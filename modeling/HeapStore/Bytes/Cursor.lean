import HeapStore.Bytes.Endian

/-! A writer and a reader that move through a buffer front to back. A step that would leave the
buffer is refused with `none`; the caller then still has the writer or reader it had before. -/
namespace HeapStore

structure Writer where
  buffer : Bytes
  position : Nat := 0
  deriving DecidableEq

namespace Writer

def put? (w : Writer) (bytes : Bytes) : Option Writer :=
  (w.buffer.patch? w.position bytes).map fun b => ⟨b, w.position + bytes.size⟩

def u8? (w : Writer) (n : UInt8) : Option Writer := w.put? ⟨#[n]⟩
def u32? (w : Writer) (n : UInt32) : Option Writer := w.put? (.ofUInt32 n)
def i32? (w : Writer) (n : Int32) : Option Writer := w.u32? n.toUInt32

/-- Zeroes the next `n` bytes. -/
def pad? (w : Writer) (n : Nat) : Option Writer :=
  if w.position + n ≤ w.buffer.size then w.put? (.zeros n) else none

end Writer

structure Reader where
  buffer : Bytes
  position : Nat := 0
  deriving DecidableEq

namespace Reader

def take? (r : Reader) (n : Nat) : Option (Bytes × Reader) :=
  (r.buffer.slice? r.position n).map fun b => (b, ⟨r.buffer, r.position + n⟩)

def u8? (r : Reader) : Option (UInt8 × Reader) :=
  (r.buffer.byte? r.position).map fun b => (b, ⟨r.buffer, r.position + 1⟩)

def u32? (r : Reader) : Option (UInt32 × Reader) :=
  (r.take? 4).map fun (b, r) => (b.toUInt32, r)

def i32? (r : Reader) : Option (Int32 × Reader) :=
  r.u32?.map fun (n, r) => (n.toInt32, r)

end Reader
end HeapStore
