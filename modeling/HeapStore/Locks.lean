import HeapStore.PageMap

/-! Shared and exclusive locks on pages. The table only decides whether a lock is granted;
waiting and giving up are left to whoever asks. -/
namespace HeapStore

inductive LockMode where
  | shared
  | exclusive
  deriving DecidableEq

/-- The transactions that hold a lock on one page. -/
structure Holders where
  shared : List TxId := []
  exclusive : List TxId := []
  deriving DecidableEq

namespace Holders

def isEmpty (h : Holders) : Bool := h.shared.isEmpty && h.exclusive.isEmpty

def otherShared (h : Holders) (tx : TxId) : Bool := h.shared.any (· ≠ tx)

def otherExclusive (h : Holders) (tx : TxId) : Bool := h.exclusive.any (· ≠ tx)

/-- The other transactions whose locks rule out a lock of the given mode for `tx`. -/
def conflicting (h : Holders) (tx : TxId) : LockMode → List TxId
  | .shared => h.exclusive.filter (· ≠ tx)
  | .exclusive => (h.exclusive ++ h.shared).filter (· ≠ tx)

def mode? (h : Holders) (tx : TxId) : Option LockMode :=
  if tx ∈ h.exclusive then some .exclusive
  else if tx ∈ h.shared then some .shared
  else none

/-- Whether `tx` is already listed as a holder of exactly this mode. -/
def lists (h : Holders) (tx : TxId) : LockMode → Bool
  | .shared => tx ∈ h.shared
  | .exclusive => tx ∈ h.exclusive

def add (h : Holders) (tx : TxId) : LockMode → Holders
  | .shared => { h with shared := tx :: h.shared }
  | .exclusive => { h with exclusive := tx :: h.exclusive }

def remove (h : Holders) (tx : TxId) : Holders :=
  ⟨h.shared.filter (· ≠ tx), h.exclusive.filter (· ≠ tx)⟩

def nonempty? (h : Holders) : Option Holders := if h.isEmpty then none else some h

end Holders

structure Locks where
  table : PageMap Holders := {}
  /-- Counts the locks granted, modulo 2^64, but for those that were held already. -/
  grants : Nat := 0
  starvationThreshold : Nat := 0
  /-- Counts releases, modulo 2^64. -/
  epoch : Nat := 0
  deriving DecidableEq

namespace Locks

def holders (l : Locks) (page : PageId) : Holders := l.table[page]?.getD {}

def mode? (l : Locks) (tx : TxId) (page : PageId) : Option LockMode := (l.holders page).mode? tx

def holds (l : Locks) (tx : TxId) (page : PageId) : Bool := (l.mode? tx page).isSome

/-- Puts a lock on record. -/
def grant (l : Locks) (page : PageId) (tx : TxId) (mode : LockMode) : Locks :=
  { l with
    table := l.table.insert page ((l.holders page).add tx mode)
    grants := (l.grants + 1) % UInt64.size }

/-- Grants a shared lock unless another transaction holds the page exclusively, and an exclusive one if
no other transaction holds any. The only shared holder of a page may so become its exclusive holder too.
A lock that is held already is granted again without being counted, an exclusive one even without a look
at the other holders. -/
def acquire? (l : Locks) (page : PageId) (tx : TxId) (mode : LockMode) : Option Locks :=
  let h := l.holders page
  match mode with
  | .shared =>
    if h.otherExclusive tx then none
    else if h.lists tx .shared then some l
    else some (l.grant page tx .shared)
  | .exclusive =>
    if h.lists tx .exclusive then some l
    else if h.otherExclusive tx || h.otherShared tx then none
    else some (l.grant page tx .exclusive)

/-- Once the granted locks have passed the threshold, a transaction should give up on a lock that
an older one keeps from it. This stands in for finding deadlocks. -/
def starving (l : Locks) (page : PageId) (tx : TxId) (mode : LockMode) : Bool :=
  l.grants > l.starvationThreshold && ((l.holders page).conflicting tx mode).any (· < tx)

def tick (l : Locks) : Locks := { l with epoch := (l.epoch + 1) % UInt64.size }

/-- Gives back whatever lock `tx` holds on the page. -/
def release (l : Locks) (page : PageId) (tx : TxId) : Locks :=
  let table := match ((l.holders page).remove tx).nonempty? with
    | some h => l.table.insert page h
    | none => l.table.erase page
  { l with table }.tick

def releaseAll (l : Locks) (tx : TxId) : Locks :=
  { l with table := l.table.filterMap fun _ (h : Holders) => (h.remove tx).nonempty? }.tick

/-- Whether something was released since the epoch was `seen`. -/
def releasedSince (l : Locks) (seen : Nat) : Bool := l.epoch ≠ seen

end Locks
end HeapStore
