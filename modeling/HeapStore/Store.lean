import HeapStore.Catalog
import HeapStore.Locks
import HeapStore.Pool
import HeapStore.Settings

/-! A store: a directory, the tables opened in it, the pages held in memory, the locks on them and
the scans under way. An operation that fails keeps what it changed before. -/
namespace HeapStore

/-- A pass over the rows of a table, page by page in ascending order. -/
structure Scan where
  table : TableRef
  tx : TxId
  /-- The page that was asked for last. -/
  page : Nat := 0
  /-- Rows of the page that are still to be returned; none while the scan is closed. -/
  rest : Option (List Row) := none
  deriving DecidableEq, Inhabited

/-- Position of a scan in `Store.scans`. -/
abbrev ScanRef := Nat

/-- A page image together with the lock that it was fetched under. -/
structure Handle where
  ref : PageRef
  mode : LockMode
  deriving DecidableEq

structure Store where
  settings : Settings
  disk : Disk
  catalog : Catalog := {}
  pool : Pool
  locks : Locks
  scans : Array Scan := #[]
  nextTx : TxId := 1

/-- A store with no tables yet over the files of a directory. -/
def Store.new (settings : Settings) (disk : Disk := {}) : Store where
  settings
  disk
  pool := .new settings.poolPages
  locks := { starvationThreshold := settings.starvationThreshold }

/-- As `Store.new`, for settings from outside. -/
def Store.new? (settings : Settings) (disk : Disk := {}) : Option Store :=
  if settings.poolPages ≤ Pool.maxCapacity then some (.new settings disk) else none

abbrev Action := EStateM Stop Store

namespace Action
variable {α : Type}

def run (x : Action α) (s : Store) : EStateM.Result Stop Store α := x s

def stop (e : Stop) : Action α := throw e

def fail (c : Cause) : Action α := stop (.ofCause c)

def crash : Action α := stop .crashed

def ofStop : Except Stop α → Action α
  | .ok a => pure a
  | .error e => stop e

def ofCause : Except Cause α → Action α
  | .ok a => pure a
  | .error c => fail c

def ofFile : Except FileError α → Action α
  | .ok a => pure a
  | .error e => stop (.failed ⟨.file e, []⟩)

/-- A value that is missing only where a crash is due. -/
def ofOption : Option α → Action α
  | some a => pure a
  | none => crash

/-- Names the activity in a failure. -/
def within (a : Activity) (x : Action α) : Action α := fun s =>
  match x s with
  | .error (.failed f) s => .error (.failed (f.within a)) s
  | r => r

/-- Turns a failure into an answer. A crash stays one. -/
def attempt (x : Action α) : Action (Except Failure α) := fun s =>
  match x s with
  | .ok a s => .ok (.ok a) s
  | .error (.failed f) s => .ok (.error f) s
  | .error .crashed s => .error .crashed s

/-- An answer that may be a failure, as the action that ends with it. -/
def ofAttempt : Except Failure α → Action α
  | .ok a => pure a
  | .error f => stop (.failed f)

end Action

namespace Store

/-- The table registered under an id. -/
def table (id : TableId) : Action Table := do .ofCause ((← get).catalog.byId id)

def updatePool (f : Pool → Pool) : Action Unit := modify fun s => { s with pool := f s.pool }

/-- The image that a reference stands for. -/
def page (r : PageRef) : Action Page := do return (← get).pool.page r

def addImage (p : Page) : Action PageRef := modifyGet fun s =>
  ((s.pool.addImage p).1, { s with pool := (s.pool.addImage p).2 })

/-- An empty frame, if there is one to be had. -/
def findFrame : Action (Option Nat) := modifyGet fun s =>
  (s.pool.findFrame.1, { s with pool := s.pool.findFrame.2 })

/-- The cached ones among the pages of a table, in ascending order. -/
def cachedPages (s : Store) (t : Table) : List PageId :=
  s.pool.frameOf.keys.filter fun id => id.table = t.id && id.number < t.pages

end Store
end HeapStore
