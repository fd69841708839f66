import HeapStore.Bytes.Bitmap
import HeapStore.Row

/-! How a page holds rows: a bitmap with one bit per slot, set while the slot is used, then the
slots, each as wide as a row, then zeros. A page of zeros holds no rows. `none` stands for a
buffer that is too small for the slot in question, which a buffer of `pageSize` bytes never is. -/
namespace HeapStore

structure Layout where
  rowWidth : Nat
  pageSize : Nat
  deriving DecidableEq

namespace Layout

def ofSchema (s : Schema) (pageSize : Nat) : Layout := ⟨s.width, pageSize⟩

/-- Whether sixty-four bits are enough to count the bits of a page. -/
def Countable (pageSize : Nat) : Prop := pageSize * 8 < UInt64.size

instance (pageSize : Nat) : Decidable (Countable pageSize) := inferInstanceAs (Decidable (_ < _))

/-- A slot costs the bits of its row and one bit of the bitmap. The count of a page's bits wraps around, if
they are not `Countable`, unless the program was built to crash instead. -/
def slots (l : Layout) : Nat := l.pageSize * 8 % UInt64.size / (l.rowWidth * 8 + 1)

/-- Bytes of the bitmap. -/
def header (l : Layout) : Nat := (l.slots + 7) / 8

/-- The byte at which a slot starts. -/
def start (l : Layout) (i : Nat) : Nat := l.header + i * l.rowWidth

def used? (page : Bytes) (i : Nat) : Option Bool :=
  if i / 8 < page.size then some (page.bit i) else none

/-- The first free one of `count` slots from slot `i` on. -/
def freeFrom (page : Bytes) : (count i : Nat) → Option Nat
  | 0, _ => none
  | count + 1, i => if page.bit i then freeFrom page count (i + 1) else some i

/-- The slots before the first one that shares a byte of the bitmap with a free slot. -/
def full (l : Layout) (page : Bytes) : Nat := 8 * page.onesFrom (l.slots / 8) 0

/-- Slots of which nothing is free are passed over a byte at a time. -/
def firstFree? (l : Layout) (page : Bytes) : Option Nat :=
  freeFrom page (l.slots - l.full page) (l.full page)

def free? (l : Layout) (page : Bytes) : Option Nat :=
  if l.header ≤ page.size then some ((List.range l.slots).countP fun i => !page.bit i) else none

/-- Writes the values into the first free slot and tells its number, or leaves a full page as it
is. Slots are numbered by sixteen bits, as in a `RecordId`. -/
def insert? (l : Layout) (page : Bytes) (values : List Value) : Option (Option Nat × Bytes) :=
  match l.firstFree? page with
  | none => some (none, page)
  | some i => do
    let cell ← page.slice? (l.start i) l.rowWidth
    let w ← Value.writeAll? ⟨cell, 0⟩ values
    let page ← page.patch? (l.start i) w.buffer
    return (some (i % UInt16.size), page.setBit i true)

/-- Frees a slot and zeroes its bytes. False if the slot was not in use. -/
def remove? (l : Layout) (page : Bytes) (i : Nat) : Option (Bool × Bytes) :=
  if l.slots ≤ i then some (false, page)
  else if page.size ≤ i / 8 then none
  else if page.bit i then
    (page.patch? (l.start i) (.zeros l.rowWidth)).map fun page => (true, page.setBit i false)
  else some (false, page)

/-- The row whose bytes fill a slot, whether the slot is in use or not. -/
def readRow? (l : Layout) (s : Schema) (id : PageId) (page : Bytes) (i : Nat) : Option Row := do
  let cell ← page.slice? (l.start i) l.rowWidth
  let (values, _) ← Value.readAll? ⟨cell, 0⟩ s.types
  return ⟨s, values, some (.ofSlot id i)⟩

/-- The row stored in a slot, if the slot exists and is in use. -/
def row? (l : Layout) (s : Schema) (id : PageId) (page : Bytes) (i : Nat) : Option (Option Row) :=
  if l.slots ≤ i then some none
  else if page.size ≤ i / 8 then none
  else if page.bit i then (l.readRow? s id page i).map some
  else some none

def usedSlots (l : Layout) (page : Bytes) : List Nat :=
  (List.range l.slots).filter fun i => page.bit i

/-- All stored rows in the order of their slots. -/
def rows? (l : Layout) (s : Schema) (id : PageId) (page : Bytes) : Option (List Row) :=
  if l.header ≤ page.size then (l.usedSlots page).mapM (l.readRow? s id page) else none

theorem freeFrom_eq_find? (page : Bytes) (count i : Nat) :
    freeFrom page count i = (List.range' i count).find? fun j => !page.bit j := by
  induction count generalizing i with
  | zero => rfl
  | succ count ih =>
    rw [List.range'_succ, List.find?_cons, freeFrom, ih]
    cases page.bit i <;> rfl

theorem firstFree?_eq_find? (l : Layout) (page : Bytes) :
    l.firstFree? page = (List.range l.slots).find? fun i => !page.bit i := by
  have fits : l.full page ≤ l.slots := by
    have := page.onesFrom_le (l.slots / 8) 0
    unfold full
    omega
  have used : (List.range' 0 (l.full page)).find? (fun i => !page.bit i) = none := by
    rw [List.find?_eq_none]
    intro i hi
    have below := (List.mem_range'_1.mp hi).2
    unfold full at below
    simp [page.bit_of_onesFrom (show i / 8 < page.onesFrom (l.slots / 8) 0 by omega)]
  have parts : List.range l.slots =
      List.range' 0 (l.full page) ++ List.range' (l.full page) (l.slots - l.full page) := by
    have := @List.range'_append_1 0 (l.full page) (l.slots - l.full page)
    rw [Nat.zero_add, Nat.add_sub_cancel' fits] at this
    rw [this, List.range_eq_range']
  rw [firstFree?, freeFrom_eq_find?, parts, List.find?_append, used, Option.none_or]

end Layout
end HeapStore
