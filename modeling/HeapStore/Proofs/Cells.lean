import HeapStore.Proofs.Encoding
import HeapStore.Table
import Mathlib.Data.List.Basic

/-! A page as a row of slots, each with the values that are stored in it or without any. Storing a row
fills the first slot without values, removing one empties its slot, and neither touches another slot. -/
namespace HeapStore

namespace Bytes

variable {a b : Bytes} {i j : Nat}

theorem bit_congr (same : a.byte? (i / 8) = b.byte? (i / 8)) : a.bit i = b.bit i := by
  rw [bit, bit, same]

theorem byte?_setBit (b : Bytes) (on : Bool) (other : j ≠ i / 8) :
    (b.setBit i on).byte? j = b.byte? j := by
  rw [setBit, byte?_set, if_neg fun here => other here.1.symm]

end Bytes

namespace Layout

variable {l : Layout} {page page' patched new : Bytes} {i j k : Nat} {on : Bool}

/-- A slot is set to be in use or not, its cell may be written, and that is all. -/
structure Sets (l : Layout) (k : Nat) (on : Bool) (page page' : Bytes) : Prop where
  size : page'.size = page.size
  fits : l.start k + l.rowWidth ≤ page.size
  bit : ∀ j < l.slots, page'.bit j = if j = k then on else page.bit j
  cell : ∀ j < l.slots, j ≠ k →
    page'.slice? (l.start j) l.rowWidth = page.slice? (l.start j) l.rowWidth

theorem start_apart (lt : i < j) : l.start i + l.rowWidth ≤ l.start j := by
  have : i * l.rowWidth + l.rowWidth ≤ j * l.rowWidth := by
    rw [← Nat.succ_mul]
    exact Nat.mul_le_mul_right _ lt
  unfold start
  omega

theorem div_lt_header (below : i < l.slots) : i / 8 < l.header := by
  unfold header
  omega

theorem header_le_start (l : Layout) (i : Nat) : l.header ≤ l.start i := Nat.le_add_right _ _

theorem Sets.whole (h : l.Sets k on page page') : l.header ≤ page.size := by
  have := h.fits
  have := l.header_le_start k
  omega

theorem div_lt_of_patch (below : k < l.slots) (done : page.patch? (l.start k) new = some patched) :
    k / 8 < patched.size := by
  have room := Bytes.le_of_patch done
  have byte := div_lt_header below
  have front := l.header_le_start k
  rw [Bytes.size_patch done]
  omega

theorem sets_of_patch (below : k < l.slots)
    (done : page.patch? (l.start k) new = some patched) (width : new.size = l.rowWidth) (on : Bool) :
    l.Sets k on page (patched.setBit k on) := by
  have size := Bytes.size_patch done
  have fits : l.start k + l.rowWidth ≤ page.size := width ▸ Bytes.le_of_patch done
  have head : ∀ j < l.header, patched.byte? j = page.byte? j := by
    intro j front
    have := l.header_le_start k
    rw [Bytes.byte?_patch done, if_neg (by omega)]
  have there := div_lt_of_patch below done
  refine ⟨by rw [Bytes.size_setBit, size], fits, fun j inside => ?_, fun j inside other => ?_⟩
  · rw [Bytes.bit_setBit _ _ _ _ there, Bytes.bit_congr (head _ (div_lt_header inside))]
    simp only [eq_comm]
  · refine Bytes.slice?_congr (by rw [Bytes.size_setBit, size]) fun i above under => ?_
    have bitmap : i ≠ k / 8 := by
      have := l.header_le_start j
      have := div_lt_header below
      omega
    rw [Bytes.byte?_setBit _ _ bitmap, Bytes.byte?_patch done, if_neg]
    rcases Nat.lt_or_gt_of_ne other with before | after
    · have := start_apart (l := l) before
      omega
    · have := start_apart (l := l) after
      omega

/-- The mark of a slot is not in its cell. -/
theorem slice?_of_patch (below : k < l.slots) (done : page.patch? (l.start k) new = some patched)
    (width : new.size = l.rowWidth) (on : Bool) :
    (patched.setBit k on).slice? (l.start k) l.rowWidth = some new := by
  rw [← width, ← Bytes.slice?_patch done]
  refine Bytes.slice?_congr (Bytes.size_setBit ..) fun i above _ => ?_
  have byte := div_lt_header below
  have front := l.header_le_start k
  exact Bytes.byte?_setBit _ _ (by omega)

/-! Rows in slots -/

variable {s : Schema} {id : PageId} {values : List Value} {slot : Nat}

theorem readRow?_congr (same : page'.slice? (l.start i) l.rowWidth = page.slice? (l.start i) l.rowWidth) :
    l.readRow? s id page' i = l.readRow? s id page i := by
  rw [readRow?, readRow?, same]

/-- The row that is stored in a slot is that in its cell. -/
theorem join_row? (whole : l.header ≤ page.size) :
    (l.row? s id page i).join = if i < l.slots ∧ page.bit i then l.readRow? s id page i else none := by
  unfold row?
  by_cases inside : i < l.slots
  · have := div_lt_header inside
    rw [if_neg (Nat.not_le_of_lt inside), if_neg (by omega)]
    by_cases used : page.bit i
    · rw [if_pos used, if_pos ⟨inside, used⟩]
      cases l.readRow? s id page i <;> rfl
    · rw [if_neg used, if_neg fun both => used both.2]
      rfl
  · rw [if_pos (Nat.le_of_not_lt inside), if_neg fun both => inside both.1]
    rfl

theorem readRow?_of_row? {row : Row} (told : l.row? s id page i = some (some row)) :
    l.readRow? s id page i = some row := by
  unfold row? at told
  split at told
  · cases told
  · split at told
    · cases told
    · split at told
      · obtain ⟨_, read, same⟩ := Option.map_eq_some_iff.mp told
        cases same
        exact read
      · cases told

/-- A stored row goes with the schema that it is read by and names the slot that it is read from. -/
theorem eq_of_row? {row : Row} (told : (l.row? s id page i).join = some row) :
    row = ⟨s, row.values, some (.ofSlot id i)⟩ := by
  have read := readRow?_of_row? (Option.join_eq_some_iff.mp told)
  simp only [readRow?, Option.bind_eq_bind, Option.bind_eq_some_iff] at read
  obtain ⟨cell, -, told, -, same⟩ := read
  cases same
  rfl

theorem mapM_filter {α β : Type} {f : α → Option β} {p : α → Bool} {xs : List α} {ys : List β}
    (told : (xs.filter p).mapM f = some ys) : ys = xs.filterMap fun x => if p x then f x else none := by
  induction xs generalizing ys with
  | nil =>
    cases told
    rfl
  | cons x xs ih =>
    rw [List.filterMap_cons]
    by_cases taken : p x
    · rw [List.filter_cons_of_pos taken, List.mapM_cons] at told
      obtain ⟨y, first, rest⟩ := Option.bind_eq_some_iff.mp told
      obtain ⟨zs, later, same⟩ := Option.bind_eq_some_iff.mp rest
      cases same
      rw [if_pos taken, first, ih later]
    · rw [List.filter_cons_of_neg taken] at told
      rw [if_neg taken]
      exact ih told

/-- The rows of a page are those stored in its slots, in the order of the slots. -/
theorem rows?_eq {rows : List Row} (told : l.rows? s id page = some rows) :
    rows = (List.range l.slots).filterMap fun i => (l.row? s id page i).join := by
  unfold rows? at told
  split at told
  · rename_i whole
    rw [mapM_filter told]
    refine List.filterMap_congr fun i inside => ?_
    rw [join_row? whole]
    simp only [List.mem_range.mp inside, true_and]
  · cases told

theorem lt_of_firstFree? (found : l.firstFree? page = some k) : k < l.slots := by
  rw [firstFree?_eq_find?] at found
  exact List.mem_range.mp (List.mem_of_find?_eq_some found)

/-- To store a row is to write its values to the cell of the first free slot and to mark the slot. -/
theorem insert?_patches (done : l.insert? page values = some (some slot, page')) :
    ∃ k cell w patched, l.firstFree? page = some k ∧ slot = k % UInt16.size ∧
      Value.writeAll? ⟨cell, 0⟩ values = some w ∧ w.buffer.size = l.rowWidth ∧
      page.patch? (l.start k) w.buffer = some patched ∧ page' = patched.setBit k true := by
  unfold insert? at done
  cases free : l.firstFree? page with
  | none =>
    rw [free] at done
    cases done
  | some k =>
    rw [free] at done
    simp only [Option.bind_eq_bind, Option.bind_eq_some_iff] at done
    obtain ⟨cell, cut, w, wrote, patched, done, same⟩ := done
    cases same
    exact ⟨k, cell, w, patched, rfl, rfl, wrote,
      (Value.writeAll?_advances wrote).size.trans (Bytes.size_slice cut), done, rfl⟩

/-- A row that is stored on a page is in the first slot that was free, and reads as what it was. -/
theorem insert?_sets (typed : values.map Value.type = s.types)
    (done : l.insert? page values = some (some slot, page')) :
    ∃ k, l.firstFree? page = some k ∧ slot = k % UInt16.size ∧ l.Sets k true page page' ∧
      ∀ id, l.readRow? s id page' k = some ⟨s, values, some (.ofSlot id k)⟩ := by
  obtain ⟨k, cell, w, patched, free, wraps, wrote, size, patches, rfl⟩ := insert?_patches done
  have below : k < l.slots := lt_of_firstFree? free
  refine ⟨k, free, wraps, sets_of_patch below patches size true, fun id => ?_⟩
  have there := slice?_of_patch below patches size true
  have back := Value.readAll?_writeAll? wrote (b := w.buffer) ⟨rfl, fun _ _ _ => rfl⟩
  rw [typed] at back
  rw [readRow?, there]
  simp only [Option.bind_eq_bind, Option.bind_some, back]
  rfl

/-- A free slot takes values that fill it. -/
theorem insert?_of_free (whole : page.size = l.pageSize) (free : l.firstFree? page = some k)
    (wide : Value.span (values.map Value.type) = l.rowWidth) (short : ∀ v ∈ values, v.checkSize = .ok ()) :
    ∃ page', l.insert? page values = some (some (k % UInt16.size), page') := by
  have inside := start_le (lt_of_firstFree? free)
  obtain ⟨cell, cut⟩ : ∃ cell, page.slice? (l.start k) l.rowWidth = some cell := by
    rw [Bytes.slice?, if_pos (by omega)]
    exact ⟨_, rfl⟩
  have size := Bytes.size_slice cut
  obtain ⟨w, wrote⟩ := Value.writeAll?_of_le (w := ⟨cell, 0⟩) short (by
    dsimp only
    omega)
  have size' : w.buffer.size = l.rowWidth := (Value.writeAll?_advances wrote).size.trans size
  unfold insert?
  rw [free]
  dsimp only
  rw [cut, Option.bind_eq_bind, Option.bind_some, wrote, Option.bind_eq_bind, Option.bind_some,
    Bytes.patch?, if_pos (by omega)]
  exact ⟨_, rfl⟩

/-- To remove a row is to zero the cell of its slot and to clear the mark. -/
theorem remove?_patches (done : l.remove? page i = some (true, page')) :
    i < l.slots ∧ page.bit i = true ∧
      ∃ patched, page.patch? (l.start i) (.zeros l.rowWidth) = some patched ∧
        page' = patched.setBit i false := by
  unfold remove? at done
  split at done
  · cases done
  · rename_i inside
    split at done
    · cases done
    · split at done
      · rename_i used
        obtain ⟨patched, zeroed, same⟩ := Option.map_eq_some_iff.mp done
        cases same
        exact ⟨Nat.lt_of_not_le inside, used, patched, zeroed, rfl⟩
      · cases done

/-- A row that is removed was stored, and its slot is all that is emptied. -/
theorem remove?_sets (done : l.remove? page i = some (true, page')) :
    i < l.slots ∧ page.bit i = true ∧ l.Sets i false page page' := by
  obtain ⟨below, used, patched, zeroed, rfl⟩ := remove?_patches done
  exact ⟨below, used, sets_of_patch below zeroed (Bytes.size_zeros _) false⟩

theorem remove?_of_used (whole : page.size = l.pageSize) (below : i < l.slots) (used : page.bit i = true) :
    ∃ page', l.remove? page i = some (true, page') := by
  have := start_le below
  have := div_lt_header below
  have := header_le l
  unfold remove?
  rw [if_neg (Nat.not_le_of_lt below), if_neg (by omega), if_pos used, Bytes.patch?,
    if_pos (by rw [Bytes.size_zeros]; omega)]
  exact ⟨_, rfl⟩

end Layout

namespace Table

variable {t : Table} {id : PageId} {page page' : Bytes} {i k : Nat} {values : List Value}
  {slot : Nat} {row : Row}

/-- The values stored in a slot of a page, if there are any. -/
def valuesAt (t : Table) (id : PageId) (page : Bytes) (i : Nat) : Option (List Value) :=
  (t.layout.row? t.schema id page i).join.map Row.values

theorem header_le_size (whole : page.size = t.pageSize) : t.layout.header ≤ page.size := by
  rw [whole]
  exact Layout.header_le t.layout

theorem valuesAt_isSome (whole : page.size = t.pageSize) (id : PageId) (i : Nat) :
    (t.valuesAt id page i).isSome = true ↔ i < t.layout.slots ∧ page.bit i = true := by
  rw [valuesAt, Layout.join_row? (header_le_size whole), Option.isSome_map]
  split
  · rename_i used
    have inside : t.layout.start i + t.layout.rowWidth ≤ page.size := by
      rw [whole]
      exact Layout.start_le used.1
    exact iff_of_true (Layout.readRow?_isSome t.schema t.pageSize id inside) used
  · rename_i free
    exact iff_of_false (by simp) free

theorem valuesAt_zeros (t : Table) (id : PageId) (i : Nat) :
    t.valuesAt id (.zeros t.pageSize) i = none := by
  refine Option.not_isSome_iff_eq_none.mp fun there => ?_
  have used := ((valuesAt_isSome (Bytes.size_zeros t.pageSize) id i).mp there).2
  simp at used

theorem row?_eq (t : Table) (id : PageId) (page : Bytes) (i : Nat) :
    (t.layout.row? t.schema id page i).join =
      (t.valuesAt id page i).map fun values => ⟨t.schema, values, some (.ofSlot id i)⟩ := by
  unfold valuesAt
  cases there : (t.layout.row? t.schema id page i).join with
  | none => rfl
  | some row => exact congrArg some (Layout.eq_of_row? there)

/-- The rows of a page are its stored values in the order of their slots. -/
theorem rows?_eq {rows : List Row} (told : t.layout.rows? t.schema id page = some rows) :
    rows = (List.range t.layout.slots).filterMap fun i =>
      (t.valuesAt id page i).map fun values => ⟨t.schema, values, some (.ofSlot id i)⟩ := by
  rw [Layout.rows?_eq told]
  exact List.filterMap_congr fun i _ => t.row?_eq id page i

theorem valuesAt_of_sets {on : Bool} (sets : t.layout.Sets k on page page') (j : Nat) (other : j ≠ k) :
    t.valuesAt id page' j = t.valuesAt id page j := by
  rw [valuesAt, valuesAt, Layout.join_row? sets.whole, Layout.join_row? (sets.size ▸ sets.whole)]
  by_cases inside : j < t.layout.slots
  · rw [sets.bit j inside, if_neg other, Layout.readRow?_congr (sets.cell j inside other)]
  · rw [if_neg fun both => inside both.1, if_neg fun both => inside both.1]

/-- A row goes into the first free slot of a page and reads as what it was. -/
theorem valuesAt_insert? (typed : values.map Value.type = t.schema.types)
    (done : t.layout.insert? page values = some (some slot, page')) :
    ∃ k, t.layout.firstFree? page = some k ∧ slot = k % UInt16.size ∧
      ∀ id j, t.valuesAt id page' j = if j = k then some values else t.valuesAt id page j := by
  obtain ⟨k, free, wraps, sets, read⟩ := Layout.insert?_sets typed done
  have below := Layout.lt_of_firstFree? free
  refine ⟨k, free, wraps, fun id j => ?_⟩
  split
  · rename_i here
    subst here
    have used := sets.bit j below
    rw [if_pos rfl] at used
    rw [valuesAt, Layout.join_row? (sets.size ▸ sets.whole), if_pos ⟨below, used⟩, read]
    rfl
  · rename_i other
    exact valuesAt_of_sets sets j other

theorem valuesAt_remove? (done : t.layout.remove? page i = some (true, page')) :
    (∀ id, (t.valuesAt id page i).isSome = true) ∧
      ∀ id j, t.valuesAt id page' j = if j = i then none else t.valuesAt id page j := by
  obtain ⟨below, used, sets⟩ := Layout.remove?_sets done
  refine ⟨fun id => ?_, fun id j => ?_⟩
  · rw [valuesAt, Layout.join_row? sets.whole, if_pos ⟨below, used⟩, Option.isSome_map]
    exact Layout.readRow?_isSome t.schema t.pageSize id sets.fits
  · split
    · rename_i here
      subst here
      have free := sets.bit j below
      rw [if_pos rfl] at free
      rw [valuesAt, Layout.join_row? (sets.size ▸ sets.whole), if_neg (by simp [free])]
      rfl
    · rename_i other
      exact valuesAt_of_sets sets j other

end Table
end HeapStore
