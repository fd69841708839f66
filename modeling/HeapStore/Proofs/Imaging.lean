import HeapStore.Proofs.Coding
import HeapStore.Proofs.Fitting

/-! What a page looks like after rows have been stored on an empty page and removed from it. A used slot has the
bytes of its row, and all else is zeros and marks, so the page tells which rows it has and nothing of how they
came there. -/
namespace HeapStore

namespace Bytes

variable {a b : Bytes} {off n j : Nat}

/-- Bytes are the same if all their bits are. -/
theorem byte?_of_bits (below : j < a.size) (below' : j < b.size) (same : ∀ i, i / 8 = j → a.bit i = b.bit i) :
    a.byte? j = b.byte? j := by
  have left : a.byte? j = some a[j] := dif_pos below
  have right : b.byte? j = some b[j] := dif_pos below'
  have equal : a[j] = b[j] := by
    apply UInt8.eq_of_toBitVec_eq
    apply BitVec.eq_of_getLsbD_eq
    intro k small
    have bits := same (8 * j + k) (by omega)
    have byte : (8 * j + k) / 8 = j := by omega
    have place : (8 * j + k) % 8 = k := by omega
    simpa only [bit, byte, place, left, right, Option.getD_some] using bits
  rw [left, right, equal]

theorem byte?_of_slice? (same : a.slice? off n = b.slice? off n) (inside : off + n ≤ a.size) (below : j < n) :
    a.byte? (off + j) = b.byte? (off + j) := by
  obtain ⟨new, cut⟩ := exists_slice? inside
  rw [(slice?_eq_some_iff.mp cut).2.2 j below, (slice?_eq_some_iff.mp (same ▸ cut)).2.2 j below]

end Bytes

namespace Layout

/-- What can be done to a page. -/
inductive Edit where
  | insert (row : Row)
  | remove (slot : Nat)

/-- The row to store was made for a schema that agrees. -/
def Edit.Made (s : Schema) : Edit → Prop
  | .insert row => ∃ t values, Row.new t values = .ok row ∧ t.Agrees s
  | .remove _ => True

def perform? (l : Layout) (page : Bytes) : Edit → Option Bytes
  | .insert row => (l.insert? page row.values).map Prod.snd
  | .remove i => (l.remove? page i).map Prod.snd

def edit? (l : Layout) (page : Bytes) (es : List Edit) : Option Bytes := es.foldlM l.perform? page

variable {l : Layout} {s : Schema} {row : Row} {page page' patched new cell : Bytes} {id : PageId} {i j k : Nat}
  {on : Bool} {e : Edit} {es : List Edit}

/-- A slot has a new mark and new bytes, and nothing else on the page has changed. -/
structure Puts (l : Layout) (k : Nat) (on : Bool) (new page page' : Bytes) : Prop
    extends l.Spares k page page' where
  mark : page'.bit k = on
  here : page'.slice? (l.start k) l.rowWidth = some new

theorem puts_of_patch (below : k < l.slots) (done : page.patch? (l.start k) new = some patched)
    (width : new.size = l.rowWidth) (on : Bool) : l.Puts k on new page (patched.setBit k on) where
  toSpares := spares_of_patch below done width on
  mark := by rw [Bytes.bit_setBit _ _ _ _ (div_lt_of_patch below done), if_pos rfl]
  here := slice?_of_patch below done width on

theorem Puts.bit (h : l.Puts k on new page page') (whole : l.header ≤ page.size) (front : i / 8 < l.header) :
    page'.bit i = if i = k then on else page.bit i := by
  by_cases here : i = k
  · rw [if_pos here, here, h.mark]
  · have same := h.used i front here
    have size := h.size
    rw [used?, used?, if_pos (by omega), if_pos (by omega)] at same
    rw [if_neg here]
    exact Option.some.inj same

theorem remove?_puts (whole : page.size = l.pageSize) (below : i < l.slots) (used : page.bit i = true) :
    ∃ page', l.remove? page i = some (true, page') ∧ l.Puts i false (.zeros l.rowWidth) page page' := by
  obtain ⟨page', done⟩ := remove?_of_used whole below used
  obtain ⟨-, -, patched, zeroed, rfl⟩ := remove?_patches done
  exact ⟨_, done, puts_of_patch below zeroed (Bytes.size_zeros _) false⟩

theorem Fit.size (h : Fit s row) : row.bytes.size = s.width :=
  (h.sized.size_bytes h.typed).trans h.agrees.width

theorem insert?_puts (whole : page.size = l.pageSize) (wide : l.rowWidth = s.width) (fit : Fit s row)
    (free : l.firstFree? page = some k) :
    ∃ page', l.insert? page row.values = some (some (k % UInt16.size), page') ∧
      l.Puts k true row.bytes page page' := by
  obtain ⟨page', done⟩ := insert?_of_free whole free (fit.width.trans wide.symm) fit.sized
  obtain ⟨k', cell, ⟨buffer, position⟩, patched, free', -, wrote, size, patches, rfl⟩ := insert?_patches done
  obtain rfl : k = k' := Option.some.inj (free.symm.trans free')
  have fills : row.bytes.size = cell.size := by
    rw [fit.size, ← wide, ← size]
    exact (Value.writeAll?_advances wrote).size
  rw [Value.writeAll?_eq_put? fit.sized (Nat.zero_le _)] at wrote
  obtain rfl := Writer.buffer_of_put? wrote fills
  exact ⟨_, done, puts_of_patch (lt_of_firstFree? free) patches size true⟩

theorem readRow?_of_fit (fit : Fit s row) (cut : page.slice? (l.start i) l.rowWidth = some row.bytes) :
    l.readRow? s id page i = some ⟨s, row.values, some (.ofSlot id i)⟩ := by
  obtain ⟨r, told⟩ := Value.readAll?_allBytes fit.sized
  rw [fit.types] at told
  rw [readRow?, cut]
  simp only [Option.bind_eq_bind, Option.bind_some, Row.bytes, told]
  rfl

/-- What is in a cell whose slot is in use or is not. -/
def Holds (s : Schema) (cell : Bytes) : Bool → Prop
  | true => ∃ row, Fit s row ∧ cell = row.bytes
  | false => cell = .zeros s.width

/-- Used slots have the bytes of a row, and all else is zero but their marks. -/
structure Canonical (l : Layout) (s : Schema) (page : Bytes) : Prop where
  size : page.size = l.pageSize
  cell : ∀ i < l.slots, ∃ cell, page.slice? (l.start i) l.rowWidth = some cell ∧ Holds s cell (page.bit i)
  spare : ∀ i, l.slots ≤ i → i / 8 < l.header → page.bit i = false
  tail : ∀ j, l.start l.slots ≤ j → j < l.pageSize → page.byte? j = some 0

namespace Canonical

theorem header_le (h : l.Canonical s page) : l.header ≤ page.size := by
  rw [h.size]
  exact l.header_le

theorem zeros (wide : l.rowWidth = s.width) : l.Canonical s (.zeros l.pageSize) where
  size := Bytes.size_zeros _
  cell i below := by
    refine ⟨.zeros l.rowWidth, ?_, ?_⟩
    · have inside := start_le below
      refine Bytes.slice?_eq_some_iff.mpr ⟨?_, Bytes.size_zeros _, fun j small => ?_⟩
      · rwa [Bytes.size_zeros]
      · rw [Bytes.zeros, Bytes.zeros, Bytes.byte?_replicate, Bytes.byte?_replicate, if_pos small, if_pos (by omega)]
    · rw [Bytes.bit_zeros, wide]
      rfl
  spare i _ _ := Bytes.bit_zeros ..
  tail j _ below := by rw [Bytes.zeros, Bytes.byte?_replicate, if_pos below]

theorem puts (h : l.Canonical s page) (put : l.Puts k on new page page') (below : k < l.slots)
    (holds : Holds s new on) : l.Canonical s page' := by
  constructor
  · exact put.size.trans h.size
  · intro i inside
    by_cases here : i = k
    · subst here
      rw [put.mark]
      exact ⟨new, put.here, holds⟩
    · rw [put.cell i inside here, put.bit h.header_le (div_lt_header inside), if_neg here]
      exact h.cell i inside
  · intro i beyond front
    rw [put.bit h.header_le front, if_neg (by omega)]
    exact h.spare i beyond front
  · intro j beyond under
    rw [put.tail j beyond]
    exact h.tail j beyond under

/-- Removing leaves the page canonical and the slot free. -/
theorem remove (h : l.Canonical s page) (wide : l.rowWidth = s.width) (k : Nat) :
    ∃ page', l.perform? page (.remove k) = some page' ∧ l.Canonical s page' ∧
      ∀ i < l.slots, page'.bit i = true → page.bit i = true ∧ i ≠ k := by
  by_cases used : k < l.slots ∧ page.bit k = true
  · obtain ⟨page', done, put⟩ := remove?_puts h.size used.1 used.2
    rw [wide] at put
    refine ⟨page', by rw [perform?, done]; rfl, h.puts put used.1 rfl, fun i below set => ?_⟩
    rw [put.bit h.header_le (div_lt_header below)] at set
    split at set
    · cases set
    · rename_i other
      exact ⟨set, other⟩
  · have idle := remove?_idle h.size fun both => used ⟨both.1, by
      rw [used?_of_lt h.size both.1] at both
      exact Option.some.inj both.2⟩
    refine ⟨page, by rw [perform?, idle]; rfl, h, fun i below set => ⟨set, ?_⟩⟩
    rintro rfl
    exact used ⟨below, set⟩

theorem perform (h : l.Canonical s page) (wide : l.rowWidth = s.width) (made : e.Made s) :
    ∃ page', l.perform? page e = some page' ∧ l.Canonical s page' := by
  cases e with
  | insert row =>
    obtain ⟨t, values, new, agrees⟩ := made
    have fit := fit_of_new new agrees
    cases free : l.firstFree? page with
    | none => exact ⟨page, by rw [perform?, insert?_of_full free]; rfl, h⟩
    | some k =>
      obtain ⟨page', done, put⟩ := insert?_puts h.size wide fit free
      exact ⟨page', by rw [perform?, done]; rfl, h.puts put (lt_of_firstFree? free) ⟨row, fit, rfl⟩⟩
  | remove k =>
    obtain ⟨page', done, canonical, -⟩ := h.remove wide k
    exact ⟨page', done, canonical⟩

theorem edit (h : l.Canonical s page) (wide : l.rowWidth = s.width) (made : ∀ e ∈ es, e.Made s) :
    ∃ page', l.edit? page es = some page' ∧ l.Canonical s page' := by
  induction es generalizing page with
  | nil => exact ⟨page, rfl, h⟩
  | cons e es ih =>
    obtain ⟨next, first, canonical⟩ := h.perform wide (made e List.mem_cons_self)
    obtain ⟨page', rest, last⟩ := ih canonical fun e later => made e (List.mem_cons_of_mem _ later)
    refine ⟨page', ?_, last⟩
    rw [edit?, List.foldlM_cons, first]
    exact rest

/-- Of the slots in use those stay that are not removed. -/
theorem clear (h : l.Canonical s page) (wide : l.rowWidth = s.width) (slots : List Nat) :
    ∃ page', l.edit? page (slots.map .remove) = some page' ∧ l.Canonical s page' ∧
      ∀ i < l.slots, page'.bit i = true → page.bit i = true ∧ i ∉ slots := by
  induction slots generalizing page with
  | nil => exact ⟨page, rfl, h, fun i _ set => ⟨set, List.not_mem_nil⟩⟩
  | cons k slots ih =>
    obtain ⟨next, first, canonical, left⟩ := h.remove wide k
    obtain ⟨page', rest, last, left'⟩ := ih canonical
    refine ⟨page', ?_, last, fun i below set => ?_⟩
    · rw [List.map_cons, edit?, List.foldlM_cons, first]
      exact rest
    · obtain ⟨set', out⟩ := left' i below set
      obtain ⟨set'', other⟩ := left i below set'
      exact ⟨set'', List.not_mem_cons_of_ne_of_not_mem other out⟩

end Canonical

/-- A byte behind the bitmap and before the tail is in a cell. -/
theorem exists_cell (front : l.header ≤ j) (inside : j < l.start l.slots) :
    ∃ i < l.slots, ∃ k < l.rowWidth, j = l.start i + k := by
  unfold start at inside
  -- cells of rows without fields have no bytes
  have some : 0 < l.rowWidth := by
    apply Nat.pos_of_ne_zero
    intro none
    rw [none] at inside
    omega
  refine ⟨(j - l.header) / l.rowWidth, ?_, (j - l.header) % l.rowWidth, Nat.mod_lt _ some, ?_⟩
  · rw [Nat.div_lt_iff_lt_mul some]
    omega
  · have parts := Nat.div_add_mod' (j - l.header) l.rowWidth
    unfold start
    omega

namespace Canonical

/-- Marks and cells are all that there is on a page. -/
theorem ext (h : l.Canonical s page) (h' : l.Canonical s page') (bits : ∀ i < l.slots, page.bit i = page'.bit i)
    (cells : ∀ i < l.slots, page.slice? (l.start i) l.rowWidth = page'.slice? (l.start i) l.rowWidth) :
    page = page' := by
  have size := h.size
  have size' := h'.size
  -- a byte of the bitmap is told by its bits and a byte of a cell by the cell
  refine Bytes.eq_of_byte? fun j => ?_
  by_cases inside : j < l.pageSize
  · by_cases front : j < l.header
    · refine Bytes.byte?_of_bits (by omega) (by omega) fun i byte => ?_
      by_cases below : i < l.slots
      · exact bits i below
      · rw [h.spare i (by omega) (by omega), h'.spare i (by omega) (by omega)]
    · by_cases middle : j < l.start l.slots
      · obtain ⟨i, below, k, small, rfl⟩ := exists_cell (Nat.le_of_not_lt front) middle
        have cell := start_le below
        exact Bytes.byte?_of_slice? (cells i below) (by omega) small
      · rw [h.tail j (by omega) inside, h'.tail j (by omega) inside]
  · rw [Bytes.byte?_eq_none_iff.mpr (by omega), Bytes.byte?_eq_none_iff.mpr (by omega)]

/-- The values of a slot tell its mark and its bytes. -/
theorem told (h : l.Canonical s page) (below : i < l.slots) (id : PageId) :
    let values := (l.row? s id page i).join.map Row.values
    page.bit i = values.isSome ∧
      page.slice? (l.start i) l.rowWidth = some ((values.map Value.allBytes).getD (.zeros s.width)) := by
  obtain ⟨cell, cut, holds⟩ := h.cell i below
  rw [join_row? h.header_le, cut]
  cases used : page.bit i with
  | false =>
    rw [used] at holds
    obtain rfl : cell = .zeros s.width := holds
    simp
  | true =>
    rw [used] at holds
    obtain ⟨row, fit, rfl⟩ := holds
    rw [if_pos ⟨below, rfl⟩, readRow?_of_fit fit cut]
    exact ⟨rfl, rfl⟩

theorem eq_of_values (h : l.Canonical s page) (h' : l.Canonical s page') (id : PageId)
    (same : ∀ i, (l.row? s id page i).join.map Row.values = (l.row? s id page' i).join.map Row.values) :
    page = page' := by
  apply h.ext h'
  · intro i below
    rw [(h.told below id).1, (h'.told below id).1, same i]
  · intro i below
    rw [(h.told below id).2, (h'.told below id).2, same i]

/-- A page without rows is all zero. -/
theorem eq_zeros (h : l.Canonical s page) (wide : l.rowWidth = s.width) (none : ∀ i < l.slots, page.bit i = false) :
    page = .zeros l.pageSize := by
  have empty := Canonical.zeros wide
  apply h.ext empty
  · intro i below
    rw [none i below, Bytes.bit_zeros]
  · intro i below
    obtain ⟨cell, cut, holds⟩ := h.cell i below
    obtain ⟨cell', cut', holds'⟩ := empty.cell i below
    rw [none i below] at holds
    rw [Bytes.bit_zeros] at holds'
    rw [cut, cut', holds.trans holds'.symm]

end Canonical

/-- Two pages that were filled from empty ones, in whatever ways, are the same if they have the same values in the
same slots. The bytes of free slots, the marks that no slot has and the tail are zero, so a page whose rows have
all been removed is empty again. -/
theorem image_tells_rows_only (schema : Schema) (pageSize : Nat) {es es' : List Edit}
    (made : ∀ e ∈ es, e.Made schema) (made' : ∀ e ∈ es', e.Made schema) :
    let l := ofSchema schema pageSize
    ∃ page page', l.edit? (.zeros pageSize) es = some page ∧ l.edit? (.zeros pageSize) es' = some page' ∧
      page.size = pageSize ∧
      (∀ i < l.slots, used? page i = some false →
        page.slice? (l.start i) schema.width = some (.zeros schema.width)) ∧
      (∀ i, l.slots ≤ i → i / 8 < l.header → page.bit i = false) ∧
      (∀ j, l.header + l.slots * schema.width ≤ j → j < pageSize → page.byte? j = some 0) ∧
      (∀ id, (∀ i, (l.row? schema id page i).join.map Row.values =
        (l.row? schema id page' i).join.map Row.values) → page = page') ∧
      ∀ slots : List Nat, (∀ i < l.slots, used? page i = some true → i ∈ slots) →
        l.edit? page (slots.map .remove) = some (.zeros pageSize) := by
  intro l
  have wide : l.rowWidth = schema.width := rfl
  have empty : l.Canonical schema (.zeros pageSize) := Canonical.zeros wide
  obtain ⟨page, ran, h⟩ := empty.edit wide made
  obtain ⟨page', ran', h'⟩ := empty.edit wide made'
  refine ⟨page, page', ran, ran', h.size, fun i below free => ?_, h.spare, h.tail, h.eq_of_values h',
    fun slots all => ?_⟩
  · obtain ⟨cell, cut, holds⟩ := h.cell i below
    rw [used?_of_lt h.size below] at free
    rw [Option.some.inj free] at holds
    exact cut.trans (congrArg some holds)
  · obtain ⟨cleared, done, last, left⟩ := h.clear wide slots
    have none : ∀ i < l.slots, cleared.bit i = false := by
      intro i below
      apply Bool.eq_false_iff.mpr
      intro set
      obtain ⟨set', out⟩ := left i below set
      exact out (all i below ((used?_of_lt h.size below).trans (congrArg some set')))
    exact done.trans (congrArg some (last.eq_zeros wide none))

/-- A row that was in a slot before leaves no trace when the slot is used again. -/
theorem image_tells_rows_only_of_reused_slot :
    let schema : Schema := ⟨[⟨.integer, some "n"⟩]⟩
    let l := ofSchema schema 12
    let insert (n : Int32) : Edit := .insert ⟨schema, [.integer n], none⟩
    ∃ page, l.edit? (.zeros 12) [insert (-1), insert 8, .remove 0, insert 9] = some page ∧
      l.edit? (.zeros 12) [insert 9, insert 8] = some page ∧
      (List.range 2).map (fun i => (l.row? schema ⟨1, 0⟩ page i).join.map Row.values) =
        [some [.integer 9], some [.integer 8]] ∧ page.byte? 11 = some 0 ∧
      l.edit? page [.remove 1, .remove 0] = some (.zeros 12) := by
  intro schema l insert
  have two : l.slots = 2 := by decide
  have made : ∀ n, (insert n).Made schema := fun n => ⟨schema, [.integer n], rfl, rfl⟩
  have removes : (Edit.remove 0).Made schema := trivial
  have all : ∀ e ∈ [insert (-1), insert 8, .remove 0, insert 9], e.Made schema := by simp [made, removes]
  have all' : ∀ e ∈ [insert 9, insert 8], e.Made schema := by simp [made]
  obtain ⟨page, page', ran, ran', -, -, -, tail, -, clears⟩ := image_tells_rows_only schema 12 all all'
  have same : l.edit? (.zeros 12) [insert (-1), insert 8, .remove 0, insert 9] =
    l.edit? (.zeros 12) [insert 9, insert 8] := by decide +kernel
  have rows : (l.edit? (.zeros 12) [insert 9, insert 8]).map
      (fun page => (List.range 2).map fun i => (l.row? schema ⟨1, 0⟩ page i).join.map Row.values) =
        some [some [.integer 9], some [.integer 8]] := by decide +kernel
  have ran'' := same.symm.trans ran
  rw [ran''] at rows
  refine ⟨page, ran, ran'', Option.some.inj rows, tail 11 (by decide) (by decide),
    clears [1, 0] fun i below _ => ?_⟩
  rw [two] at below
  simp only [List.mem_cons, List.not_mem_nil, or_false]
  omega

end Layout
end HeapStore
