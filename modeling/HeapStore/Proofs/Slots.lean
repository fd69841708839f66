import HeapStore.Layout
import HeapStore.Proofs.Fields

/-! What the layout of a page makes of pages of the right size and of empty pages. -/
namespace HeapStore

namespace Bytes

@[simp] theorem bit_zeros (n i : Nat) : (zeros n).bit i = false := by
  rw [bit, zeros, byte?_replicate]
  split <;> simp

end Bytes

/-- What a row holds, and the number of the page and the slot where it is stored. -/
def Row.placed (row : Row) : Option (Nat × Nat) × List Value :=
  (row.record.map fun record => (record.page.number, record.slot), row.values)

namespace Layout

variable {l : Layout} {page page' : Bytes} {values : List Value} {slot? : Option Nat} {i : Nat}

theorem size_insert? (h : l.insert? page values = some (slot?, page')) : page'.size = page.size := by
  unfold insert? at h
  split at h
  · cases h
    rfl
  · simp only [Option.bind_eq_bind, Option.bind_eq_some_iff] at h
    obtain ⟨cell, -, w, -, patched, done, same⟩ := h
    cases same
    rw [Bytes.size_setBit, Bytes.size_patch done]

theorem size_remove? {removed : Bool} (h : l.remove? page i = some (removed, page')) :
    page'.size = page.size := by
  unfold remove? at h
  split at h
  · cases h
    rfl
  · split at h
    · cases h
    · split at h
      · obtain ⟨patched, done, same⟩ := Option.map_eq_some_iff.mp h
        cases same
        rw [Bytes.size_setBit, Bytes.size_patch done]
      · cases h
        rfl

theorem insert?_eq_none (h : l.insert? page values = some (none, page')) :
    l.firstFree? page = none := by
  unfold insert? at h
  split at h
  · assumption
  · simp only [Option.bind_eq_bind, Option.bind_eq_some_iff] at h
    obtain ⟨cell, -, w, -, patched, -, same⟩ := h
    cases same

theorem insert?_of_full (full : l.firstFree? page = none) (values : List Value) :
    l.insert? page values = some (none, page) := by
  simp [insert?, full]

theorem remove?_zeros (l : Layout) (n i : Nat) : l.remove? (.zeros n) i ≠ some (true, page') := by
  unfold remove?
  split
  · simp
  · split <;> simp

theorem firstFree?_zeros (some : l.slots ≠ 0) (n : Nat) : l.firstFree? (.zeros n) ≠ none := by
  rw [firstFree?_eq_find?, Ne, List.find?_eq_none]
  intro none
  exact none 0 (List.mem_range.mpr (Nat.pos_of_ne_zero some)) (by simp)

@[simp] theorem usedSlots_zeros (l : Layout) (n : Nat) : l.usedSlots (.zeros n) = [] := by
  simp [usedSlots]

theorem fits (l : Layout) : l.header + l.slots * l.rowWidth ≤ l.pageSize := by
  have counted := Nat.div_mul_le_self (l.pageSize * 8 % UInt64.size) (l.rowWidth * 8 + 1)
  have bits := Nat.mod_le (l.pageSize * 8) UInt64.size
  rw [Nat.mul_add, Nat.mul_one, ← Nat.mul_assoc] at counted
  change l.slots * l.rowWidth * 8 + l.slots ≤ _ at counted
  unfold header
  omega

theorem start_le (below : i < l.slots) : l.start i + l.rowWidth ≤ l.pageSize := by
  have last : i * l.rowWidth + l.rowWidth ≤ l.slots * l.rowWidth := by
    rw [← Nat.succ_mul]
    exact Nat.mul_le_mul_right _ below
  have := l.fits
  unfold start
  omega

theorem header_le (l : Layout) : l.header ≤ l.pageSize := Nat.le_trans (Nat.le_add_right _ _) l.fits

/-- There is a row to read in each slot that a page has. -/
theorem readRow?_isSome (s : Schema) (pageSize : Nat) (id : PageId)
    (inside : (ofSchema s pageSize).start i + (ofSchema s pageSize).rowWidth ≤ page.size) :
    ((ofSchema s pageSize).readRow? s id page i).isSome := by
  obtain ⟨cell, cut⟩ := Bytes.exists_slice? inside
  have room : 0 + Value.span s.types ≤ cell.size := by
    rw [Nat.zero_add, Bytes.size_slice cut]
    exact Nat.le_refl _
  obtain ⟨values, read, -⟩ := Value.readAll?_of_le s.types room
  rw [readRow?, cut]
  simp only [Option.bind_eq_bind, Option.bind_some, read]
  rfl

theorem mapM_isSome {α β : Type} {f : α → Option β} {xs : List α} (h : ∀ x ∈ xs, (f x).isSome) :
    (xs.mapM f).isSome := by
  induction xs with
  | nil => rfl
  | cons x xs ih =>
    obtain ⟨y, first⟩ := Option.isSome_iff_exists.mp (h x (List.mem_cons_self ..))
    obtain ⟨ys, rest⟩ :=
      Option.isSome_iff_exists.mp (ih fun z later => h z (List.mem_cons_of_mem _ later))
    rw [List.mapM_cons, first, rest]
    rfl

theorem rows?_isSome (s : Schema) (pageSize : Nat) (id : PageId) (whole : page.size = pageSize) :
    ((ofSchema s pageSize).rows? s id page).isSome := by
  rw [rows?, if_pos (by rw [whole]; exact header_le _)]
  refine mapM_isSome fun i used => readRow?_isSome s pageSize id ?_
  rw [whole]
  exact start_le (List.mem_range.mp (List.mem_filter.mp used).1)

theorem map_some_of_mapM {α β : Type} {f : α → Option β} {xs : List α} {ys : List β}
    (h : xs.mapM f = some ys) : ys.map some = xs.map f := by
  induction xs generalizing ys with
  | nil =>
    cases h
    rfl
  | cons x xs ih =>
    rw [List.mapM_cons] at h
    obtain ⟨y, first, rest⟩ := Option.bind_eq_some_iff.mp h
    obtain ⟨zs, later, same⟩ := Option.bind_eq_some_iff.mp rest
    cases same
    rw [List.map_cons, List.map_cons, first, ih later]

theorem length_mapM {α β : Type} {f : α → Option β} {xs : List α} {ys : List β}
    (h : xs.mapM f = some ys) : ys.length = xs.length := by
  rw [← List.length_map some, map_some_of_mapM h, List.length_map]

theorem length_rows? {l : Layout} {s : Schema} {id : PageId} {rows : List Row}
    (h : l.rows? s id page = some rows) : rows.length ≤ l.slots := by
  unfold rows? at h
  split at h
  · have filtered := List.length_filter_le (fun i => page.bit i) (List.range l.slots)
    rw [List.length_range] at filtered
    rw [length_mapM h]
    exact filtered
  · cases h

theorem map_mapM {α β γ : Type} {f g : α → Option β} (p : β → γ)
    (same : ∀ x, (f x).map p = (g x).map p) (xs : List α) :
    (xs.mapM f).map (List.map p) = (xs.mapM g).map (List.map p) := by
  induction xs with
  | nil => rfl
  | cons x xs ih =>
    have parts : ∀ (a : Option β) (b : Option (List β)),
        (a.bind fun y => b.bind fun ys => some (y :: ys)).map (List.map p) =
          (a.map p).bind fun y => (b.map (List.map p)).bind fun ys => some (y :: ys) := by
      intro a b
      cases a <;> cases b <;> rfl
    rw [List.mapM_cons, List.mapM_cons]
    refine (parts _ _).trans (Eq.trans ?_ (parts _ _).symm)
    rw [same x, ih]

/-- Pages of one number that are the same hold the same rows at the same places. -/
theorem placed_rows? (l : Layout) (s : Schema) (id id' : PageId) (same : id.number = id'.number)
    (page : Bytes) : (l.rows? s id page).map (List.map Row.placed) =
      (l.rows? s id' page).map (List.map Row.placed) := by
  unfold rows?
  split
  · refine map_mapM Row.placed (fun i => ?_) _
    unfold readRow?
    cases page.slice? (l.start i) l.rowWidth with
    | none => rfl
    | some cell =>
      simp only [Option.bind_eq_bind, Option.bind_some]
      cases Value.readAll? ⟨cell, 0⟩ s.types with
      | none => rfl
      | some read =>
        simp only [Option.bind_some, Option.pure_def, Option.map_some, Row.placed, RecordId.ofSlot,
          same]
  · rfl

theorem rows?_zeros (l : Layout) (s : Schema) (id : PageId) :
    l.rows? s id (.zeros l.pageSize) = some [] := by
  rw [rows?, if_pos (by rw [Bytes.size_zeros]; exact header_le _), usedSlots_zeros]
  rfl

end Layout
end HeapStore
