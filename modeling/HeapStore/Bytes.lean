/-! Byte buffers. `slice?` and `patch?` are the only two ways into a buffer, and both answer
`none` rather than touch a byte outside it. -/
namespace HeapStore

abbrev Bytes := ByteArray

namespace Bytes

instance : DecidableEq Bytes := ByteArray.decEq

/-- No buffer has this many bytes. -/
def limit : Nat := UInt64.size / 2

def replicate (n : Nat) (x : UInt8) : Bytes := ⟨Array.replicate n x⟩

def zeros (n : Nat) : Bytes := replicate n 0

@[inline] def byte? (b : Bytes) (i : Nat) : Option UInt8 := if h : i < b.size then some b[i] else none

def set (b : Bytes) (i : Nat) (x : UInt8) : Bytes :=
  if h : i < b.size then ByteArray.set b i x h else b

/-- The `n` bytes from `off` on. -/
def slice? (b : Bytes) (off n : Nat) : Option Bytes :=
  if off + n ≤ b.size then some (b.extract off (off + n)) else none

/-- `b` with `new` written over the bytes from `off` on. -/
def patch? (b : Bytes) (off : Nat) (new : Bytes) : Option Bytes :=
  if off + new.size ≤ b.size then
    some (b.extract 0 off ++ new ++ b.extract (off + new.size) b.size)
  else none

theorem byte?_eq (b : Bytes) (i : Nat) : b.byte? i = b.data[i]? := by
  unfold byte?
  split
  · rename_i h
    rw [ByteArray.getElem_eq_getElem_data, Array.getElem?_eq_getElem]
  · rename_i h
    exact (Array.getElem?_eq_none (Nat.le_of_not_lt h)).symm

theorem byte?_eq_none_iff {b : Bytes} {i : Nat} : b.byte? i = none ↔ b.size ≤ i := by
  unfold byte?
  split <;> simp <;> omega

@[simp] theorem byte?_replicate (n i : Nat) (x : UInt8) :
    (replicate n x).byte? i = if i < n then some x else none := by
  rw [byte?_eq, replicate, Array.getElem?_replicate]

theorem byte?_append (a b : Bytes) (i : Nat) :
    (a ++ b).byte? i = if i < a.size then a.byte? i else b.byte? (i - a.size) := by
  simp only [byte?_eq, ByteArray.data_append, Array.getElem?_append, ByteArray.size_data]

theorem byte?_extract (b : Bytes) (lo hi i : Nat) :
    byte? (b.extract lo hi) i =
      if i < min hi b.size - lo then b.byte? (lo + i) else none := by
  simp only [byte?_eq, ByteArray.data_extract, Array.getElem?_extract, ByteArray.size_data]

theorem byte?_set (b : Bytes) (i j : Nat) (x : UInt8) :
    (b.set i x).byte? j = if i = j ∧ j < b.size then some x else b.byte? j := by
  unfold set
  split
  · simp only [byte?_eq, ByteArray.data_set, Array.getElem?_set]
    grind [ByteArray.size_data]
  · grind

theorem eq_of_byte? {a b : Bytes} (h : ∀ i, a.byte? i = b.byte? i) : a = b :=
  ByteArray.ext (Array.ext_getElem? fun i => by simpa only [byte?_eq] using h i)

@[simp] theorem size_replicate (n : Nat) (x : UInt8) : (replicate n x).size = n := by
  rw [← ByteArray.size_data, replicate, Array.size_replicate]

@[simp] theorem size_zeros (n : Nat) : (zeros n).size = n := size_replicate n 0

@[simp] theorem size_set (b : Bytes) (i : Nat) (x : UInt8) : (b.set i x).size = b.size := by
  unfold set
  split
  · simp only [← ByteArray.size_data, ByteArray.data_set, Array.size_set]
  · rfl

theorem size_slice {b s : Bytes} {off n : Nat} (h : b.slice? off n = some s) : s.size = n := by
  unfold slice? at h
  split at h
  · cases h
    rw [ByteArray.size_extract]
    omega
  · contradiction

theorem size_patch {b p new : Bytes} {off : Nat} (h : b.patch? off new = some p) :
    p.size = b.size := by
  unfold patch? at h
  split at h
  · cases h
    simp only [ByteArray.size_append, ByteArray.size_extract]
    omega
  · contradiction

end Bytes
end HeapStore
