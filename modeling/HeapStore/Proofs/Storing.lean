import Mathlib.Data.Nat.Find
import HeapStore.Proofs.Capacity
import HeapStore.Proofs.Mapping

/-! What a transaction can rely on that nobody else is in the way of. A row that goes with a table is
stored unless the table has run out of page numbers, and one that is stored can be removed. -/
namespace HeapStore

namespace Table

variable {t : Table} {row : Row}

/-- The row has the fields of the table, and none of its texts is too long. -/
structure Takes (t : Table) (row : Row) : Prop where
  typed : row.Typed
  sized : row.Sized
  agrees : row.schema.Agrees t.schema

theorem takes_new {values : List Value} (made : Row.new t.schema values = .ok row) : t.Takes row where
  typed := Row.typed_new made
  sized := Row.sized_new made
  agrees := by
    obtain ⟨rfl, -⟩ := Row.new_eq_ok made
    rfl

theorem Takes.checkSchema (h : t.Takes row) : t.checkSchema row = .ok () := if_pos h.agrees

theorem Takes.width (h : t.Takes row) : Value.span (row.values.map Value.type) = t.layout.rowWidth := by
  rw [h.typed, h.agrees]
  rfl

/-- A row can be put on any page of the table, unless that is full. -/
theorem Takes.fits (h : t.Takes row) {page : Bytes} (whole : page.size = t.pageSize) :
    t.layout.insert? page row.values ≠ none := by
  intro none
  cases free : t.layout.firstFree? page with
  | none =>
    rw [Layout.insert?_of_full free] at none
    cases none
  | some k =>
    obtain ⟨page', inserted⟩ := Layout.insert?_of_free whole free h.width h.sized
    rw [inserted] at none
    cases none

end Table

namespace Store

variable {s s' t u : Store} {ref : TableRef} {i : TableId} {tx : TxId} {row : Row} {p : RecordId}
  {may : Prop}

/-- The values stored in a table in the order of their places. -/
def stock (s : Store) (ref : TableRef) : List (List Value) :=
  (s.catalog.table ref).places.filterMap s.stored

theorem values_listing (s : Store) (ref : TableRef) : (s.listing ref).map Row.values = s.stock ref := by
  rw [listing, List.map_filterMap]
  refine List.filterMap_congr fun p _ => ?_
  cases s.stored p <;> rfl

theorem values_rowsFrom (h : s.Coherent) (known : s.catalog.ref (s.catalog.table ref).id = .ok ref) :
    (s.view.rowsFrom ref 0).map Row.values = s.stock ref := by
  rw [rowsFrom_eq_filterMap h known, List.map_filterMap]
  refine List.filterMap_congr fun p _ => ?_
  cases s.stored p <;> rfl

theorem stock_congr (catalog : s'.catalog = s.catalog) (total : s'.total = s.total) :
    s'.stock ref = s.stock ref := by
  unfold stock
  rw [catalog]
  refine List.filterMap_congr fun p _ => ?_
  exact stored_congr (catalog ▸ .refl _) (congrFun total p.page)

/-- A list of places that is longer because a table has got more pages has nothing more to tell. -/
theorem stock_of_more {t : Table} (known : s.catalog.ref (s.catalog.table ref).id = .ok ref)
    (table : t = { s.catalog.table ref with length := t.length })
    (more : (s.catalog.table ref).pages ≤ t.pages) : t.places.filterMap s.stored = s.stock ref := by
  have id : t.id = (s.catalog.table ref).id := by rw [table]
  have layout : t.layout = (s.catalog.table ref).layout := by
    rw [table]
    rfl
  unfold stock Table.places
  rw [id, layout, ← Nat.add_sub_cancel' more, List.range_add, List.flatMap_append, List.filterMap_append]
  refine List.append_right_eq_self.mpr (List.filterMap_eq_nil_iff.mpr fun p listed => ?_)
  obtain ⟨n, behind, here⟩ := List.mem_flatMap.mp listed
  obtain ⟨k, -, rfl⟩ := List.mem_map.mp behind
  obtain ⟨slot, -, rfl⟩ := List.mem_map.mp here
  exact stored_of_lacks (p := ⟨⟨(s.catalog.table ref).id, _⟩, slot⟩) known (Nat.le_add_right _ k)

/-- In a list with different elements one that told nothing before tells something now. -/
theorem filterMap_perm_cons {α β : Type} {f g : α → Option β} {a : α} {b : β} {xs : List α}
    (once : xs.Nodup) (listed : a ∈ xs) (before : f a = none) (now : g a = some b)
    (others : ∀ x ≠ a, g x = f x) : (xs.filterMap g).Perm (b :: xs.filterMap f) := by
  induction xs with
  | nil => cases listed
  | cons x xs ih =>
    obtain ⟨new, once⟩ := List.nodup_cons.mp once
    by_cases here : x = a
    · subst here
      rw [List.filterMap_cons_some now, List.filterMap_cons_none before,
        List.filterMap_congr fun y later => others y (ne_of_mem_of_not_mem later new)]
    · have later := ih once ((List.mem_cons.mp listed).resolve_left (Ne.symm here))
      rw [List.filterMap_cons, List.filterMap_cons, others x here]
      cases f x with
      | none => exact later
      | some c => exact (later.cons c).trans (List.Perm.swap b c _)

/-- There are as many of them as slots in use. -/
theorem length_stock (h : s.Coherent) (known : s.catalog.ref (s.catalog.table ref).id = .ok ref) :
    (s.stock ref).length = ((List.range (s.catalog.table ref).pages).flatMap fun n =>
      (s.catalog.table ref).layout.usedSlots (s.total ⟨(s.catalog.table ref).id, n⟩)).length := by
  rw [stock, Table.places, List.filterMap_flatMap, List.length_flatMap, List.length_flatMap]
  congr 1
  refine List.map_congr_left fun n _ => ?_
  have here : s.catalog.ref (PageId.mk (s.catalog.table ref).id n).table = .ok ref := known
  rw [List.filterMap_map, List.length_filterMap_eq_countP, Layout.usedSlots, ← List.countP_eq_length_filter]
  refine List.countP_congr fun i inside => ?_
  have used := Table.valuesAt_isSome (h.size_total here) ⟨(s.catalog.table ref).id, n⟩ i
  rw [Function.comp_apply, stored_of_ref here, used]
  exact and_iff_right (List.mem_range.mp inside)

theorem length_places (t : Table) : t.places.length = t.pages * t.layout.slots := by
  simp [Table.places, List.length_flatMap]

theorem free?_eq_none_iff : s.free? ref = none ↔ (s.stock ref).length =
    (s.catalog.table ref).pages * (s.catalog.table ref).layout.slots := by
  rw [← length_places, stock, List.length_filterMap_eq_countP, List.countP_eq_length, free?,
    List.find?_eq_none]
  refine forall₂_congr fun p _ => ?_
  rw [Option.isNone_iff_eq_none, Option.isSome_iff_ne_none]

/-- A transaction has changed a page. For that it may have taken locks, and a table may have got an empty
page. -/
structure Reworked (tx : TxId) (id : PageId) (s s' : Store) : Prop where
  coherent : s'.Coherent
  settings : s'.settings = s.settings
  grown : s.catalog.Grown s'.catalog
  kin : s.catalog.Kin s'.catalog
  length : ∀ i ref, s.catalog.ref i = .ok ref →
    (s'.catalog.table ref).length = (s.catalog.table ref).length ∨
      (s.catalog.table ref).pageSize ∣ (s'.catalog.table ref).length
  locks : Locks.Grows tx s.locks s'.locks
  scans : ∀ r < s.scans.size, r < s'.scans.size ∧ s'.scans.getD r default = s.scans.getD r default
  owner : ∀ other u, s'.owner other = some u → s.owner other = some u ∨ other = id ∧ u = tx
  total : ∀ other ≠ id, s'.total other = s.total other

theorem Reworked.sole {id : PageId} (h : s.Reworked tx id s') (sole : Plain.Sole tx s.view) :
    Plain.Sole tx s'.view where
  patient := by
    change s'.settings.hasDeadline = true
    rw [h.settings]
    exact sole.patient
  mine u p mode held := (h.locks.own u p mode held).elim (sole.mine u p mode) fun mine => mine

theorem reworked {id : PageId} {bytes : Bytes} (h : s.Coherent) (upkeep : s.Upkeep tx t)
    (moves : Plain.Moves tx none s.view t.view) (rewritten : t.Rewritten tx id bytes s') :
    s.Reworked tx id s' := by
  have settings : s'.settings = t.settings := by rw [rewritten.rest]
  have catalog : s'.catalog = t.catalog := by rw [rewritten.rest]
  have locks : s'.locks = t.locks := by rw [rewritten.rest]
  have scans : s'.scans = t.scans := by rw [rewritten.rest]
  refine ⟨rewritten.coherent, settings.trans upkeep.settings, catalog ▸ upkeep.catalog,
    catalog ▸ moves.kin, fun i ref known => ?_, locks ▸ moves.locks, fun r valid => ?_,
    fun other u owned => ?_, fun other ne => ?_⟩
  · -- the file is as it was, or it ends with a page that was added
    obtain ⟨f, f', there, there', padded⟩ := upkeep.padded i ref known
    obtain ⟨g, found, length⟩ := h.backed i ref known
    obtain ⟨g', found', length'⟩ := upkeep.coherent.backed i ref ((upkeep.catalog.ref i).trans known)
    rw [upkeep.catalog.table ref] at found'
    cases there.symm.trans found
    cases there'.symm.trans found'
    rw [catalog, ← length, ← length']
    rcases padded with rfl | ⟨-, pages, -, last, -⟩
    · exact Or.inl rfl
    · exact Or.inr ⟨pages, last.trans (Nat.mul_comm _ _)⟩
  · rw [scans]
    exact ⟨Nat.lt_of_lt_of_le valid moves.size, moves.others r valid (by simp)⟩
  · by_cases here : other = id
    · subst here
      rcases rewritten.kept with ⟨mine, -⟩ | ⟨clean, -⟩
      · rw [mine] at owned
        cases owned
        exact Or.inr ⟨rfl, rfl⟩
      · rw [clean] at owned
        cases owned
    · rw [(rewritten.others other here).1, upkeep.owner] at owned
      exact Or.inl owned
  · rw [rewritten.total, if_neg ne, upkeep.total h]

/-- There is a first page with a free slot, which may be the one behind the last page. -/
theorem first_free (known : s.catalog.ref (s.catalog.table ref).id = .ok ref)
    (slots : (s.catalog.table ref).layout.slots ≠ 0) : ∃ n ≤ (s.catalog.table ref).pages, ∃ slot,
      (∀ m < n, (s.catalog.table ref).layout.firstFree?
        (s.total ⟨(s.catalog.table ref).id, m⟩) = none) ∧
      (s.catalog.table ref).layout.firstFree? (s.total ⟨(s.catalog.table ref).id, n⟩) = some slot := by
  have last : (s.catalog.table ref).layout.firstFree?
      (s.total ⟨(s.catalog.table ref).id, (s.catalog.table ref).pages⟩) ≠ none := by
    have here : s.catalog.ref (PageId.mk (s.catalog.table ref).id (s.catalog.table ref).pages).table =
        .ok ref := known
    have lacks : ¬s.catalog.Has ⟨(s.catalog.table ref).id, (s.catalog.table ref).pages⟩ := by
      rw [Catalog.has_iff here]
      exact Nat.lt_irrefl _
    rw [total_of_lacks lacks, Catalog.blank_of_ref here]
    exact Layout.firstFree?_zeros slots _
  have found : ∃ n, (s.catalog.table ref).layout.firstFree?
      (s.total ⟨(s.catalog.table ref).id, n⟩) ≠ none := ⟨_, last⟩
  obtain ⟨slot, free⟩ := Option.ne_none_iff_exists'.mp (Nat.find_spec found)
  exact ⟨_, Nat.find_min' found last, slot, fun m below => not_not.mp (Nat.find_min found below), free⟩

/-- A row was stored at the first free place of its table. -/
structure Stores (tx : TxId) (ref : TableRef) (values : List Value) (s s' : Store) : Prop
    extends Puts ref values s s', Reworked tx (s.vacant ref).page s s' where
  inside : (s.vacant ref).slot < (s.catalog.table ref).layout.slots

/-- Another page can only be added if it can be made and there is a number for it. -/
theorem insertRow_stores (h : s.Coherent) (sole : Plain.Sole tx s.view) (known : s.catalog.ref i = .ok ref)
    (slots : (s.catalog.table ref).layout.slots ≠ 0) (takes : (s.catalog.table ref).Takes row)
    (extendable : s.free? ref = none → (s.catalog.table ref).Extendable) :
    (insertRow tx i row).Ends s fun answer s' =>
      answer = .ok (.ofSlot (s.vacant ref).page (s.vacant ref).slot) ∧ s.Stores tx ref row.values s' := by
  obtain ⟨-, rfl⟩ := h.guarded.keyed _ _ known
  obtain ⟨n, inside, slot, passed, free⟩ := first_free known slots
  have here : s.catalog.ref (PageId.mk (s.catalog.table ref).id n).table = .ok ref := known
  obtain ⟨bytes, room⟩ :=
    Layout.insert?_of_free (h.size_total here) free takes.width takes.sized
  have last := (vacant_eq h known inside passed free).2
  obtain ⟨v, placed, -⟩ := sole.insertAnywhere h.guarded.keyed known slots passed room
    fun full => extendable (last.mpr full.symm)
  have ended : Plain.insertRow tx (s.catalog.table ref).id row s.view = .ok _ v :=
    Plain.insertRow_of_placed known takes.checkSchema slots placed
  refine (answers_of_follows (insertRow_follows h tx _ row) ended False.elim).mono ?_
  rintro answer s' ⟨record, t, rfl, upkeep, rfl, told, applied⟩
  have moves := (Plain.moving_insertRow h.guarded.keyed tx _ row).of_ok ended
  obtain ⟨ref', bytes, known', answer, inside, change, puts⟩ :=
    puts_of_ended h ended upkeep applied takes.typed
  cases known.symm.trans known'
  rw [change] at applied
  rw [answer] at told
  cases told
  exact ⟨rfl, puts, reworked h upkeep moves applied, inside⟩

/-- Otherwise there is a crash, if only as the search for a place would not end. -/
theorem insertRow_crashes (h : s.Coherent) (sole : Plain.Sole tx s.view) (known : s.catalog.ref i = .ok ref)
    (slots : (s.catalog.table ref).layout.slots ≠ 0) (takes : (s.catalog.table ref).Takes row)
    (full : s.free? ref = none)
    (last : ¬(s.catalog.table ref).Extendable) :
    (insertRow tx i row).Ends s fun answer _ => answer = .error .crashed := by
  obtain ⟨-, rfl⟩ := h.guarded.keyed _ _ known
  rw [free?_eq h known, List.findSome?_eq_none_iff] at full
  have has : ∀ n < (s.catalog.table ref).pages, s.catalog.Has ⟨(s.catalog.table ref).id, n⟩ := by
    intro n below
    have here : s.catalog.ref (PageId.mk (s.catalog.table ref).id n).table = .ok ref := known
    exact (Catalog.has_iff here).mpr below
  obtain ⟨locks, passed, -⟩ : ∃ locks, Plain.insertFrom (s.catalog.table ref) tx row
      (s.catalog.table ref).pages 0 s.view = .ok none { s.view with locks } ∧ _ :=
    sole.insertFrom_passes
      (fun n below => has n (by rwa [Nat.zero_add] at below)) fun n below => by
        rw [Nat.zero_add] at below
        exact Option.map_eq_none_iff.mp (full n (List.mem_range.mpr below))
  have ended : Plain.insertRow tx (s.catalog.table ref).id row s.view =
      .error .crashed { s.view with locks } := by
    have catalog : s.view.catalog = s.catalog := rfl
    simp only [Plain.insertRow, Plain.placeRow, Plain.insertAnywhere, Plain.bind_eq, Plain.get_eq, catalog,
      known, Plain.ofCause, takes.checkSchema, Plain.pure_eq, if_neg slots, passed, if_neg last]
    rfl
  exact crashes_of_follows (insertRow_follows h tx _ row) ended False.elim

theorem mem_places_of_stored (h : s.Coherent) (known : s.catalog.ref p.page.table = .ok ref)
    (there : (s.stored p).isSome = true) : p ∈ (s.catalog.table ref).places := by
  obtain ⟨-, key⟩ := h.guarded.keyed _ _ known
  refine Table.mem_places.mpr ⟨key.symm, Nat.lt_of_not_le fun beyond => ?_, ?_⟩
  · rw [stored_of_lacks known beyond] at there
    cases there
  · rw [stored_of_ref known, Table.valuesAt_isSome (h.size_total known)] at there
    exact there.1

/-- The row at a place was removed. -/
structure Drops (tx : TxId) (p : RecordId) (s s' : Store) : Prop extends Reworked tx p.page s s' where
  stored : ∀ q, s'.stored q = if q = p then none else s.stored q
  catalog : s'.catalog = s.catalog

theorem deleteRow_drops (h : s.Coherent) (sole : Plain.Sole tx s.view)
    (known : s.catalog.ref p.page.table = .ok ref) (there : (s.stored p).isSome = true) :
    (deleteRow tx (some p)).Ends s fun answer s' => answer = .ok () ∧ s.Drops tx p s' := by
  obtain ⟨-, key⟩ := h.guarded.keyed _ _ known
  have has : s.catalog.Has p.page :=
    (Catalog.has_iff known).mpr (Table.mem_places.mp (mem_places_of_stored h known there)).2.1
  rw [stored_of_ref known, Table.valuesAt_isSome (h.size_total known)] at there
  obtain ⟨bytes, gone⟩ := Layout.remove?_of_used (h.size_total known) there.1 there.2
  rw [total_of_has has] at gone
  obtain ⟨locks, got, -⟩ := sole.getPage has .exclusive
  have ended := Plain.deleteRow_eq_ok_iff.mpr ⟨ref, bytes, known, key.symm, got, gone, rfl⟩
  refine (answers_of_follows (deleteRow_follows h tx (some p)) ended False.elim).mono ?_
  rintro answer s' ⟨a, t, rfl, upkeep, view, -, applied⟩
  rw [← view] at ended
  obtain ⟨-, stored, catalog⟩ := removed_of_ended h ended upkeep applied
  have moves : Plain.Moves tx none s.view t.view := (Plain.moving_deleteRow tx (some p) s.view).of_ok ended
  exact ⟨rfl, reworked h upkeep moves applied, stored, catalog⟩

/-! What a table holds then -/

theorem nodup_places (t : Table) : t.places.Nodup := nodup_of_ascend t.places_ascend

theorem Stores.stock {values : List Value} (h : s.Stores tx ref values s')
    (known : s.catalog.ref (s.catalog.table ref).id = .ok ref) :
    (s'.stock ref).Perm (values :: s.stock ref) := by
  have table := h.grown.table ref
  have pages := h.pages ref
  have listed : s.vacant ref ∈ (s'.catalog.table ref).places := by
    refine Table.mem_places.mpr ⟨?_, ?_, ?_⟩
    · rw [vacant_table, h.kin.key]
    · rw [pages]
      unfold vacant
      cases free : s.free? ref with
      | none => simp
      | some p =>
        have := (Table.mem_places.mp (List.mem_of_find?_eq_some free)).2.1
        exact Nat.lt_of_lt_of_le this (Nat.le_add_right _ _)
    · rw [h.kin.layout]
      exact h.inside
  rw [← stock_of_more known table (pages ▸ Nat.le_add_right _ _)]
  refine filterMap_perm_cons (nodup_places _) listed (stored_vacant known) ?_ fun q other => ?_
  · rw [h.stored, if_pos rfl]
  · rw [h.stored, if_neg other]

theorem Drops.stock {values : List Value} (h : s.Drops tx p s') (coherent : s.Coherent)
    (known : s.catalog.ref p.page.table = .ok ref) (there : s.stored p = some values) :
    (s.stock ref).Perm (values :: s'.stock ref) := by
  have listed := mem_places_of_stored coherent known (there ▸ rfl)
  unfold Store.stock
  rw [h.catalog]
  refine filterMap_perm_cons (nodup_places _) listed ?_ there fun q other => ?_
  · rw [h.stored, if_pos rfl]
  · rw [h.stored, if_neg other]

end Store
end HeapStore
