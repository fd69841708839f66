import HeapStore.Bytes
import HeapStore.Id

/-! The image of a page in memory. -/
namespace HeapStore

structure Page where
  id : PageId
  bytes : Bytes
  /-- The transaction whose changes have not reached the disk. -/
  dirtiedBy : Option TxId := none
  deriving DecidableEq, Inhabited

namespace Page

def empty (id : PageId) (size : Nat) : Page := ⟨id, .zeros size, none⟩

/-- As `empty`, for a size from outside. -/
def empty? (id : PageId) (size : Nat) : Option Page :=
  if size < Bytes.limit then some (empty id size) else none

def isDirty (p : Page) : Bool := p.dirtiedBy.isSome

def mark (p : Page) (owner : Option TxId) : Page := { p with dirtiedBy := owner }

/-- Writes over bytes of the image without marking it dirty. -/
def overwrite? (p : Page) (off : Nat) (new : Bytes) : Option Page :=
  (p.bytes.patch? off new).map fun bytes => { p with bytes }

end Page
end HeapStore
