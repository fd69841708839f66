import HeapStore.Proofs.Cells

/-! A page as a map from slots to rows. It is full when no slot is free, else a row goes to the least free
slot, and whatever else is on the page, down to the bits of the bitmap that no slot has, stays as it is. -/
namespace HeapStore
namespace Layout

variable {l : Layout} {s : Schema} {page page' patched new : Bytes} {values : List Value} {i k slot : Nat}

/-- Nothing on the page has changed but one slot: its bit in the bitmap and its cell. -/
structure Spares (l : Layout) (k : Nat) (page page' : Bytes) : Prop where
  size : page'.size = page.size
  used : ∀ j, j / 8 < l.header → j ≠ k → used? page' j = used? page j
  cell : ∀ j < l.slots, j ≠ k →
    page'.slice? (l.start j) l.rowWidth = page.slice? (l.start j) l.rowWidth
  tail : ∀ j, l.start l.slots ≤ j → page'.byte? j = page.byte? j

theorem spares_of_patch (below : k < l.slots) (done : page.patch? (l.start k) new = some patched)
    (width : new.size = l.rowWidth) (on : Bool) : l.Spares k page (patched.setBit k on) := by
  have sets := sets_of_patch below done width on
  have size := Bytes.size_patch done
  have head := div_lt_header below
  have front := l.header_le_start k
  have there := div_lt_of_patch below done
  refine ⟨sets.size, fun j inside other => ?_, sets.cell, fun j beyond => ?_⟩
  · have same : patched.byte? (j / 8) = page.byte? (j / 8) := by
      rw [Bytes.byte?_patch done, if_neg (by omega)]
    rw [used?, used?, sets.size, Bytes.bit_setBit _ _ _ _ there, if_neg other.symm, Bytes.bit_congr same]
  · have last := start_apart (l := l) below
    rw [Bytes.byte?_setBit _ _ (by omega), Bytes.byte?_patch done, if_neg (by omega)]

theorem used?_of_lt (whole : page.size = l.pageSize) (below : i < l.slots) :
    used? page i = some (page.bit i) := by
  have := div_lt_header below
  have := l.header_le
  exact if_pos (by omega)

theorem firstFree?_eq_none_iff (whole : page.size = l.pageSize) :
    l.firstFree? page = none ↔ ∀ i < l.slots, used? page i = some true := by
  rw [firstFree?_eq_find?, List.find?_eq_none]
  refine forall_congr' fun i => ?_
  rw [List.mem_range]
  refine forall_congr' fun below => ?_
  rw [used?_of_lt whole below]
  simp

theorem firstFree?_of_least (whole : page.size = l.pageSize) (below : k < l.slots)
    (free : used? page k = some false) (least : ∀ i < k, used? page i = some true) :
    l.firstFree? page = some k := by
  rw [used?_of_lt whole below] at free
  rw [firstFree?_eq_find?, List.find?_range_eq_some]
  refine ⟨by simp [Option.some.inj free], List.mem_range.mpr below, fun i before => ?_⟩
  have used := least i before
  rw [used?_of_lt whole (Nat.lt_trans before below)] at used
  simp [Option.some.inj used]

theorem row?_of_used (whole : page.size = l.pageSize) (below : i < l.slots) (used : used? page i = some true)
    (s : Schema) (id : PageId) : l.row? s id page i = (l.readRow? s id page i).map some := by
  have bit := Option.some.inj ((used?_of_lt whole below).symm.trans used)
  have := div_lt_header below
  have := l.header_le
  rw [row?, if_neg (Nat.not_le_of_lt below), if_neg (by omega), if_pos bit]

theorem row?_of_free (free : used? page i = some false) (s : Schema) (id : PageId) :
    l.row? s id page i = some none := by
  unfold used? at free
  split at free
  · rename_i inside
    unfold row?
    split
    · rfl
    · rw [if_neg (by omega), if_neg (by simp [Option.some.inj free])]
  · cases free

theorem used?_setBit (inside : i / 8 < page.size) (on : Bool) : used? (page.setBit i on) i = some on := by
  rw [used?, Bytes.size_setBit, if_pos inside, Bytes.bit_setBit _ _ _ _ inside, if_pos rfl]

/-- A row is stored in the least free slot, if there is one, and can be read there. -/
theorem insert?_of_least (whole : page.size = l.pageSize) (below : k < l.slots)
    (free : used? page k = some false) (least : ∀ i < k, used? page i = some true)
    (wide : Value.span (values.map Value.type) = l.rowWidth) (short : ∀ v ∈ values, v.checkSize = .ok ()) :
    ∃ page', l.insert? page values = some (some (k % UInt16.size), page') ∧ used? page' k = some true ∧
      l.Spares k page page' ∧ ∀ s : Schema, values.map Value.type = s.types → ∀ id,
        l.row? s id page' k = some (some ⟨s, values, some (.ofSlot id k)⟩) := by
  have found := firstFree?_of_least whole below free least
  obtain ⟨page', done⟩ := insert?_of_free whole found wide short
  obtain ⟨k', cell, w, patched, found', -, -, width, patches, rfl⟩ := insert?_patches done
  obtain rfl : k = k' := Option.some.inj (found.symm.trans found')
  have spares := spares_of_patch below patches width true
  have used := used?_setBit (div_lt_of_patch below patches) true
  refine ⟨_, done, used, spares, fun s typed id => ?_⟩
  obtain ⟨k', found', -, -, read⟩ := insert?_sets typed done
  obtain rfl : k = k' := Option.some.inj (found.symm.trans found')
  rw [row?_of_used (spares.size.trans whole) below used, read]
  rfl

theorem remove?_frees (whole : page.size = l.pageSize) (below : i < l.slots) (used : used? page i = some true) :
    ∃ page', l.remove? page i = some (true, page') ∧ used? page' i = some false ∧ l.Spares i page page' := by
  have bit := Option.some.inj ((used?_of_lt whole below).symm.trans used)
  obtain ⟨page', done⟩ := remove?_of_used whole below bit
  obtain ⟨-, -, patched, zeroed, rfl⟩ := remove?_patches done
  have free := used?_setBit (div_lt_of_patch below zeroed) false
  exact ⟨_, done, free, spares_of_patch below zeroed (Bytes.size_zeros _) false⟩

/-- Nothing is done to a slot that is free or that is not there. -/
theorem remove?_idle (whole : page.size = l.pageSize) (idle : ¬(i < l.slots ∧ used? page i = some true)) :
    l.remove? page i = some (false, page) := by
  unfold remove?
  split
  · rfl
  · rename_i below
    have below := Nat.lt_of_not_le below
    have := div_lt_header below
    have := l.header_le
    rw [if_neg (by omega), if_neg]
    rw [used?_of_lt whole below] at idle
    exact fun bit => idle ⟨below, congrArg some bit⟩

theorem usedSlots_eq (whole : page.size = l.pageSize) :
    l.usedSlots page = (List.range l.slots).filter fun i => used? page i = some true := by
  refine List.filter_congr fun i there => ?_
  rw [used?_of_lt whole (List.mem_range.mp there)]
  simp

/-- The rows of a page are those in its used slots, one for each, in the order of the slots. -/
theorem map_rows? (whole : page.size = l.pageSize) {id : PageId} {rows : List Row}
    (told : l.rows? s id page = some rows) : rows.map (fun row => some (some row)) =
      ((List.range l.slots).filter fun i => used? page i = some true).map (l.row? s id page) := by
  unfold rows? at told
  split at told
  · rw [← usedSlots_eq whole]
    have read := congrArg (List.map (Option.map some)) (map_some_of_mapM told)
    rw [List.map_map, List.map_map] at read
    refine read.trans (List.map_congr_left fun i there => ?_)
    rw [usedSlots_eq whole] at there
    obtain ⟨inside, used⟩ := List.mem_filter.mp there
    exact (row?_of_used whole (List.mem_range.mp inside) (of_decide_eq_true used) s id).symm
  · cases told

/-- Each slot is free or has a row. -/
theorem free?_add_rows (whole : page.size = l.pageSize) {id : PageId} {rows : List Row}
    (told : l.rows? s id page = some rows) :
    ∃ n, l.free? page = some n ∧ n + rows.length = l.slots := by
  have header : l.header ≤ page.size := by
    rw [whole]
    exact l.header_le
  rw [rows?, if_pos header] at told
  refine ⟨_, if_pos header, ?_⟩
  have all := List.length_eq_countP_add_countP (fun i => page.bit i) (l := List.range l.slots)
  rw [List.length_range] at all
  rw [length_mapM told, usedSlots, ← List.countP_eq_length_filter, Nat.add_comm]
  simpa only [Bool.not_eq_true, Bool.decide_eq_false] using all.symm

/-- A page is a map from slots to rows, whatever bytes it starts from. -/
theorem page_is_slot_map {schema : Schema} {pageSize : Nat}
    (few : (ofSchema schema pageSize).slots ≤ UInt16.size) (whole : page.size = pageSize) :
    let l := ofSchema schema pageSize
    (∀ (s : Schema) values row, Row.new s values = .ok row → s.Agrees schema →
      (l.insert? page row.values = some (none, page) ↔ ∀ i < l.slots, used? page i = some true) ∧
      ∀ k < l.slots, used? page k = some false → (∀ i < k, used? page i = some true) →
        ∃ page', l.insert? page row.values = some (some k, page') ∧ used? page' k = some true ∧
          l.Spares k page page' ∧ ∀ t : Schema, t.Agrees schema → ∀ id,
            l.row? t id page' k = some (some ⟨t, values, some ⟨id, k⟩⟩)) ∧
    (∀ i, if i < l.slots ∧ used? page i = some true then
        ∃ page', l.remove? page i = some (true, page') ∧ used? page' i = some false ∧
          (∀ t id, l.row? t id page' i = some none) ∧ l.Spares i page page'
      else l.remove? page i = some (false, page)) ∧
    ∀ t : Schema, t.Agrees schema → ∀ id, ∃ rows n, l.rows? t id page = some rows ∧
      rows.map (fun row => some (some row)) =
        ((List.range l.slots).filter fun i => used? page i = some true).map (l.row? t id page) ∧
      l.free? page = some n ∧ n + rows.length = l.slots := by
  intro l
  have whole : page.size = l.pageSize := whole
  refine ⟨fun s values row made agrees => ?_, fun i => ?_, fun t agrees id => ?_⟩
  · have sized := Row.sized_new made
    have typed := Row.typed_new made
    obtain ⟨rfl, -, -⟩ := Row.new_eq_ok made
    have typed : values.map Value.type = schema.types := typed.trans agrees
    refine ⟨?_, fun k below free least => ?_⟩
    · rw [← firstFree?_eq_none_iff whole]
      exact ⟨insert?_eq_none, fun full => insert?_of_full full values⟩
    · obtain ⟨page', done, used, spares, read⟩ := insert?_of_least whole below free least
        (congrArg (fun types => (types.map FieldType.width).foldr (· + ·) 0) typed) sized
      have number : k % UInt16.size = k := Nat.mod_eq_of_lt (Nat.lt_of_lt_of_le below few)
      rw [number] at done
      refine ⟨page', done, used, spares, fun t agrees' id => ?_⟩
      rw [read t (typed.trans agrees'.symm) id, RecordId.ofSlot, number]
  · split
    · rename_i there
      obtain ⟨page', done, free, spares⟩ := remove?_frees whole there.1 there.2
      exact ⟨page', done, free, row?_of_free free, spares⟩
    · rename_i idle
      exact remove?_idle whole idle
  · have told : (l.rows? t id page).isSome := by
      have read := rows?_isSome t pageSize id whole
      unfold ofSchema at read
      rwa [agrees.width] at read
    obtain ⟨rows, told⟩ := Option.isSome_iff_exists.mp told
    obtain ⟨n, free, sum⟩ := free?_add_rows whole told
    exact ⟨rows, n, told, map_rows? whole told, free, sum⟩

/-- Of three slots the middle one is free, and the five bits after them are set. -/
theorem page_is_slot_map_among_stray_bits :
    let schema : Schema := ⟨[⟨.integer, some "n"⟩]⟩
    let l := ofSchema schema 16
    let page : Bytes := ⟨#[0xfd, 0, 0, 0, 8, 1, 2, 3, 4, 0, 0, 0, 9, 5, 6, 7]⟩
    ∃ page', l.insert? page [.integer 7] = some (some 1, page') ∧ l.Spares 1 page page' ∧
      l.row? schema ⟨1, 0⟩ page' 1 = some (some ⟨schema, [.integer 7], some ⟨⟨1, 0⟩, 1⟩⟩) ∧
      page'.bit 7 = true ∧ l.remove? page 1 = some (false, page) := by
  intro schema l page
  have few : l.slots ≤ UInt16.size := by decide
  have whole : page.size = 16 := rfl
  obtain ⟨inserts, removes, -⟩ := page_is_slot_map few whole
  obtain ⟨page', done, used, spares, read⟩ := (inserts schema [.integer 7] _ rfl rfl).2 1 (by decide)
    (by decide +kernel) (by decide +kernel)
  have free := removes 1
  rw [if_neg (by decide +kernel)] at free
  refine ⟨page', done, spares, read schema rfl _, ?_, free⟩
  have stray := spares.used 7 (by decide +kernel) (by decide)
  rw [used?, if_pos (by rw [spares.size]; decide)] at stray
  exact Option.some.inj (stray.trans (by decide +kernel))

end Layout
end HeapStore
