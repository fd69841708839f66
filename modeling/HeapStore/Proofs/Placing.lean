import HeapStore.Proofs.Moving

/-! Where a row is stored and what is left of a page that a row is removed from depends on what the
pages hold that the transaction has locked by then, and not on how many empty pages the table has. -/
namespace HeapStore

namespace Catalog

variable {c c' : Catalog} {ref : TableRef}

/-- A table with fewer pages than the same table elsewhere can have one more. -/
theorem Kin.extendable (h : c.Kin c') (fewer : (c'.table ref).pages < (c.table ref).pages) :
    (c'.table ref).Extendable := by
  rcases h.counted ref with same | ⟨short, few, few'⟩
  · simp [Table.pages, h.pageSize, same] at fewer
  · rw [Table.pages, Table.pages, h.pageSize, Nat.mod_eq_of_lt few, Nat.mod_eq_of_lt few'] at fewer
    rw [Table.Extendable, h.pageSize]
    exact ⟨short, by omega⟩

end Catalog

namespace Plain

variable {v v' w : Plain} {tx u : TxId} {t : Table} {row : Row} {ref : TableRef} {tableId : TableId}
  {number count j slot : Nat} {record : RecordId} {bytes : Bytes} {id : PageId}

theorem total_of_has (has : v.catalog.Has id) : v.total id = v.bytes id := Catalog.fill_of_has has

/-- Pages without room that the transaction has come to hold. -/
def Passed (tx : TxId) (t : Table) (v w : Plain) (first last : Nat) : Prop :=
  ∀ n, first ≤ n → n < last → t.layout.firstFree? (v.total ⟨t.id, n⟩) = none ∧
    w.locks.Held tx ⟨t.id, n⟩ .exclusive

/-- The transaction holds a page that has room. -/
structure Room (tx : TxId) (t : Table) (row : Row) (v w : Plain) (j : Nat) (place : RecordId × Bytes) :
    Prop where
  page : place.1.page = ⟨t.id, j⟩
  room : t.layout.insert? (v.total place.1.page) row.values = some (some place.1.slot, place.2)
  held : w.locks.Held tx place.1.page .exclusive
  patient : v.patient = true

theorem insertInto_ok {place? : Option (RecordId × Bytes)}
    (ended : insertInto t tx row number v = .ok place? w) : (∃ locks, w = { v with locks }) ∧
      w.locks.Held tx ⟨t.id, number⟩ .exclusive ∧ v.catalog.Has ⟨t.id, number⟩ ∧
      match place? with
      | none => t.layout.firstFree? (v.total ⟨t.id, number⟩) = none
      | some place => Room tx t row v w number place := by
  obtain ⟨got, slot?, bytes, tried, rfl⟩ := insertInto_eq_ok_iff.mp ended
  obtain ⟨locked, has, -⟩ := getPage_eq_ok_iff.mp got
  obtain ⟨patient, locks, -, same⟩ := lock_eq_ok_iff.mp locked
  have held := (held_of_lock locked).1
  rw [← total_of_has has] at tried
  refine ⟨⟨locks, same⟩, held, has, ?_⟩
  cases slot? with
  | none => exact Layout.insert?_eq_none tried
  | some slot => exact ⟨rfl, tried, held, patient⟩

/-- A search ends at the first page with room, or it has passed all pages. -/
theorem insertFrom_ok {place? : Option (RecordId × Bytes)}
    (ended : insertFrom t tx row count number v = .ok place? w) : ∃ j, Passed tx t v w number j ∧
      match place? with
      | none => j = number + count
      | some place => j < number + count ∧ Room tx t row v w j place := by
  induction count generalizing v number with
  | zero =>
    cases ended
    exact ⟨number, fun n above below => by omega, rfl⟩
  | succ count ih =>
    unfold insertFrom at ended
    obtain ⟨place', x, first, rest⟩ := bind_eq_ok_iff.mp ended
    obtain ⟨⟨locks, rfl⟩, held, -, here⟩ := insertInto_ok first
    cases place' with
    | some place =>
      cases rest
      exact ⟨number, fun n above below => by omega, by omega, here⟩
    | none =>
      have moves : Moves tx none _ w := (moving_insertFrom t tx row _ _ _).of_ok rest
      have kept := moves.locks.kept
      obtain ⟨j, passed, later⟩ := ih rest
      have passed : Passed tx t v w number j := by
        intro n above below
        by_cases start : n = number
        · subst start
          exact ⟨here, kept _ _ _ held⟩
        · exact passed n (by omega) below
      refine ⟨j, passed, ?_⟩
      cases place? with
      | none => exact later.trans (by omega)
      | some place => exact ⟨by omega, later.2.page, later.2.room, later.2.held, later.2.patient⟩

theorem table_appended (valid : ref < v.catalog.opened.size) :
    (v.appended ref).catalog.table ref = (v.catalog.table ref).extended := by
  simp [appended, Catalog.table_extended valid]

theorem insertNew_ok (keyed : v.catalog.Keyed) (known : v.catalog.ref tableId = .ok ref)
    (growable : (v.catalog.table ref).Growable) {place : RecordId × Bytes}
    (ended : insertNew ref tx row (v.catalog.table ref).pages v = .ok place w) :
    w.catalog = v.catalog.extended ref ∧ Locks.Grows tx v.locks w.locks ∧
      Room tx (v.catalog.table ref) row v w (v.catalog.table ref).pages place := by
  obtain ⟨valid, -⟩ := keyed _ _ known
  obtain ⟨_, x, added, ended⟩ := bind_eq_ok_iff.mp ended
  rw [append_eq] at added
  cases added
  replace ended := get_bind_eq_ok_iff.mp ended
  obtain ⟨place?, x, tried, ended⟩ := bind_eq_ok_iff.mp ended
  rw [table_appended valid] at tried
  have moves : Moves tx none _ x := (moving_insertInto _ tx row _ _).of_ok tried
  have grows := moves.locks
  obtain ⟨⟨locks, rfl⟩, -, -, here⟩ := insertInto_ok tried
  cases place? with
  | none => cases ended
  | some place' =>
    cases ended
    obtain ⟨page, room, held, patient⟩ := here
    rw [total_appended keyed known growable] at room
    exact ⟨rfl, grows, page, room, held, patient⟩

/-- The row is stored on the first page with room, which is a new one if none of the others has any. -/
theorem insertAnywhere_first (keyed : v.catalog.Keyed) (known : v.catalog.ref tableId = .ok ref)
    (some : 0 < (v.catalog.table ref).pageSize) {place : RecordId × Bytes}
    (ended : insertAnywhere ref tx row v = .ok place w) : ∃ j ≤ (v.catalog.table ref).pages,
      Passed tx (v.catalog.table ref) v w 0 j ∧ Room tx (v.catalog.table ref) row v w j place ∧
      ∀ k, (w.catalog.table k).pages =
        (v.catalog.table k).pages + if k = ref ∧ j = (v.catalog.table ref).pages then 1 else 0 := by
  obtain ⟨locks, place?, searched, ⟨rfl, rfl⟩ | ⟨rfl, few, added⟩⟩ := insertAnywhere_cases ended
  · obtain ⟨j, passed, below, found⟩ := insertFrom_ok searched
    rw [Nat.zero_add] at below
    refine ⟨j, Nat.le_of_lt below, passed, found, fun k => ?_⟩
    rw [if_neg fun last => Nat.ne_of_lt below last.2]
    rfl
  · obtain ⟨j, passed, found⟩ := insertFrom_ok searched
    obtain ⟨catalog, grows, page, room, held, patient⟩ :=
      insertNew_ok (v := { v with locks }) keyed known ⟨some, few⟩ added
    obtain ⟨valid, -⟩ := keyed _ _ known
    rw [Nat.zero_add] at found
    subst found
    refine ⟨_, Nat.le_refl _, fun n above below => ?_, ⟨page, room, held, patient⟩, fun k => ?_⟩
    · exact (passed n above below).imp_right (grows.kept _ _ _)
    · rw [catalog, Catalog.table_extended valid]
      by_cases here : k = ref
      · rw [if_pos here, if_pos ⟨here, rfl⟩, Table.pages_extended ⟨some, few⟩, here]
      · rw [if_neg here, if_neg fun both => here both.1]
        rfl

/-- The page that the row is stored on is one that the table has afterwards. -/
theorem insertAnywhere_ok (keyed : v.catalog.Keyed) (known : v.catalog.ref tableId = .ok ref)
    (some : 0 < (v.catalog.table ref).pageSize) {place : RecordId × Bytes}
    (ended : insertAnywhere ref tx row v = .ok place w) : ∃ j < (w.catalog.table ref).pages,
      Passed tx (v.catalog.table ref) v w 0 j ∧ Room tx (v.catalog.table ref) row v w j place := by
  obtain ⟨j, inside, passed, room, pages⟩ := insertAnywhere_first keyed known some ended
  refine ⟨j, ?_, passed, room⟩
  have here := pages ref
  split at here
  · omega
  · rename_i other
    have : j ≠ (v.catalog.table ref).pages := fun last => other ⟨rfl, last⟩
    omega

/-- A page that is added to a table is one that the transaction holds. -/
theorem insertAnywhere_grown (keyed : v.catalog.Keyed) (known : v.catalog.ref tableId = .ok ref)
    (some : 0 < (v.catalog.table ref).pageSize) {place : RecordId × Bytes}
    (ended : insertAnywhere ref tx row v = .ok place w) (lacks : ¬v.catalog.Has id)
    (has : w.catalog.Has id) : w.locks.Held tx id .exclusive := by
  obtain ⟨locks, place?, -, ⟨-, rfl⟩ | ⟨-, few, added⟩⟩ := insertAnywhere_cases ended
  · exact absurd has lacks
  · obtain ⟨catalog, -, page, -, held⟩ :=
      insertNew_ok (v := { v with locks }) keyed known ⟨some, few⟩ added
    rw [catalog] at has
    obtain there | rfl := (Catalog.has_extended keyed known ⟨some, few⟩).mp has
    · exact absurd there lacks
    · rwa [page] at held

/-! The same search by a transaction that is alone -/

theorem Sole.insertInto (h : Sole tx w) (has : w.catalog.Has ⟨t.id, number⟩)
    {slot? : Option Nat}
    (tried : t.layout.insert? (w.total ⟨t.id, number⟩) row.values = some (slot?, bytes)) :
    ∃ locks, insertInto t tx row number w =
      .ok (slot?.map fun slot => (⟨⟨t.id, number⟩, slot⟩, bytes)) { w with locks } ∧
        Sole tx { w with locks } := by
  obtain ⟨locks, got, sole⟩ := h.getPage has .exclusive
  rw [total_of_has has] at tried
  exact ⟨locks, insertInto_eq_ok_iff.mpr ⟨got, slot?, bytes, tried, rfl⟩, sole⟩

theorem Sole.insertFrom_passes (h : Sole tx w)
    (has : ∀ n < number + count, w.catalog.Has ⟨t.id, n⟩)
    (full : ∀ n < number + count, t.layout.firstFree? (w.total ⟨t.id, n⟩) = none) :
    ∃ locks, insertFrom t tx row count number w = .ok none { w with locks } ∧
      Sole tx { w with locks } := by
  induction count generalizing w number with
  | zero => exact ⟨w.locks, rfl, h⟩
  | succ count ih =>
    have below : number < number + (count + 1) := by omega
    obtain ⟨locks, first, sole⟩ := h.insertInto (has number below)
      (Layout.insert?_of_full (full number below) row.values)
    obtain ⟨locks', rest, sole'⟩ := @ih { w with locks } (number + 1) sole
      (fun n inside => has n (by omega)) (fun n inside => full n (by omega))
    refine ⟨locks', ?_, sole'⟩
    simp [insertFrom, bind_eq, first, rest]

theorem Sole.insertFrom_finds (h : Sole tx w) (above : number ≤ j) (enough : j < number + count)
    (has : ∀ n ≤ j, w.catalog.Has ⟨t.id, n⟩)
    (full : ∀ n < j, t.layout.firstFree? (w.total ⟨t.id, n⟩) = none)
    (room : t.layout.insert? (w.total ⟨t.id, j⟩) row.values = some (some slot, bytes)) :
    ∃ locks, insertFrom t tx row count number w = .ok (some (⟨⟨t.id, j⟩, slot⟩, bytes))
      { w with locks } := by
  induction count generalizing w number with
  | zero => omega
  | succ count ih =>
    by_cases here : number = j
    · subst here
      obtain ⟨locks, first, -⟩ := h.insertInto (has number (Nat.le_refl _)) room
      exact ⟨locks, by simp [insertFrom, bind_eq, first, pure_eq]⟩
    · obtain ⟨locks, first, sole⟩ := h.insertInto (has number above)
        (Layout.insert?_of_full (full number (by omega)) row.values)
      obtain ⟨locks', rest⟩ := @ih { w with locks } (number + 1) sole (by omega) (by omega) has
        full room
      exact ⟨locks', by simp [insertFrom, bind_eq, first, rest]⟩

theorem Sole.insertNew (h : Sole tx w) (keyed : w.catalog.Keyed)
    (known : w.catalog.ref tableId = .ok ref) (growable : (w.catalog.table ref).Growable)
    (room : (w.catalog.table ref).layout.insert?
      (w.total ⟨(w.catalog.table ref).id, (w.catalog.table ref).pages⟩) row.values =
        some (some slot, bytes)) :
    ∃ w', insertNew ref tx row (w.catalog.table ref).pages w =
        .ok (⟨⟨(w.catalog.table ref).id, (w.catalog.table ref).pages⟩, slot⟩, bytes) w' ∧
      w'.catalog = w.catalog.extended ref := by
  obtain ⟨valid, -⟩ := keyed _ _ known
  have there : (w.appended ref).catalog.Has
      ⟨(w.catalog.table ref).id, (w.catalog.table ref).pages⟩ :=
    (Catalog.has_extended keyed known growable).mpr (Or.inr rfl)
  rw [← total_appended keyed known growable] at room
  have sole : Sole tx (w.appended ref) := ⟨h.patient, h.mine⟩
  obtain ⟨locks, found, -⟩ := sole.insertInto (t := (w.catalog.table ref).extended) there room
  refine ⟨{ w.appended ref with locks }, ?_, rfl⟩
  simp only [Plain.insertNew, bind_eq, append_eq, get_eq, table_appended valid, found]
  rfl

/-- A transaction that is alone stores the row on the first page with room. -/
theorem Sole.insertAnywhere (h : Sole tx w) (keyed : w.catalog.Keyed)
    (known : w.catalog.ref tableId = .ok ref) (slots : (w.catalog.table ref).layout.slots ≠ 0)
    (full : ∀ n < j, (w.catalog.table ref).layout.firstFree?
      (w.total ⟨(w.catalog.table ref).id, n⟩) = none)
    (room : (w.catalog.table ref).layout.insert? (w.total ⟨(w.catalog.table ref).id, j⟩) row.values =
      some (some slot, bytes))
    (extendable : (w.catalog.table ref).pages = j → (w.catalog.table ref).Extendable) :
    ∃ w', insertAnywhere ref tx row w =
        .ok (⟨⟨(w.catalog.table ref).id, j⟩, slot⟩, bytes) w' ∧
      ∀ k, (w'.catalog.table k).pages = (w.catalog.table k).pages ∨
        k = ref ∧ (w'.catalog.table k).pages = j + 1 := by
  obtain ⟨valid, key⟩ := keyed _ _ known
  have known' : w.catalog.ref (w.catalog.table ref).id = .ok ref := by rw [key, known]
  have has : ∀ n, w.catalog.Has ⟨(w.catalog.table ref).id, n⟩ ↔ n < (w.catalog.table ref).pages :=
    fun n => Catalog.has_iff known'
  have inside : j ≤ (w.catalog.table ref).pages := by
    apply Nat.le_of_not_lt
    intro beyond
    -- the page behind the last one would be empty
    apply Layout.firstFree?_zeros slots (w.catalog.table ref).pageSize
    rw [← full _ beyond, total, Catalog.fill_of_lacks (by simp [has]), Catalog.blank_of_ref known']
  unfold Plain.insertAnywhere
  simp only [bind_eq, get_eq]
  rcases Nat.lt_or_eq_of_le inside with below | rfl
  · have enough : j < 0 + (w.catalog.table ref).pages := by rwa [Nat.zero_add]
    obtain ⟨locks, found⟩ := h.insertFrom_finds (Nat.zero_le j) enough
      (fun n le => (has n).mpr (by omega)) full room
    simp only [found]
    exact ⟨_, rfl, fun k => Or.inl rfl⟩
  · obtain ⟨locks, passed, sole⟩ : ∃ locks, insertFrom (w.catalog.table ref) tx row
        (w.catalog.table ref).pages 0 w = .ok none { w with locks } ∧ Sole tx { w with locks } :=
      h.insertFrom_passes (fun n below => (has n).mpr (by omega)) fun n below => full n (by omega)
    have few := extendable rfl
    have pageSize := Table.pageSize_pos_of_slots slots
    obtain ⟨w', placed, catalog⟩ := sole.insertNew keyed known ⟨pageSize, few⟩ room
    simp only [passed, if_pos few, placed]
    refine ⟨w', rfl, fun k => ?_⟩
    by_cases here : k = ref
    · subst here
      refine Or.inr ⟨rfl, ?_⟩
      simp [catalog, Catalog.table_extended valid, Table.pages_extended ⟨pageSize, few⟩]
    · exact Or.inl (by simp [catalog, Catalog.table_extended valid, here])

/-! The same change on both sides -/

/-- In `w` the transaction `u` is alone and finds what `tx` has found in `v`, as far as `tx` holds locks
in `v'`. -/
structure Mirrors (tx u : TxId) (v v' w : Plain) : Prop where
  keyed : v.catalog.Keyed
  paged : v.catalog.Paged
  paged' : w.catalog.Paged
  kin : v.catalog.Kin w.catalog
  sole : Sole u w
  agree : ∀ id mode, v'.locks.Held tx id mode → w.total id = v.total id
  blank : ∀ ref mode, v.catalog.ref (v.catalog.table ref).id = .ok ref →
    v'.locks.Held tx ⟨(v.catalog.table ref).id, 0⟩ mode → ∀ n ≥ (v'.catalog.table ref).pages,
      w.total ⟨(v.catalog.table ref).id, n⟩ = .zeros (v.catalog.table ref).pageSize
  whole : ∀ id ref, w.catalog.ref id.table = .ok ref → (w.bytes id).size = (w.catalog.table ref).pageSize

/-- No table has got more pages than it has on either side. -/
def Bounded (v' w w' : Plain) : Prop := ∀ ref, (w'.catalog.table ref).pages ≤
  max (w.catalog.table ref).pages (v'.catalog.table ref).pages

theorem insertRow_mirrors {out : Outcome} (h : Mirrors tx u v v' w)
    (ended : insertRow tx tableId row v = .ok out v') :
    ∃ w', insertRow u tableId row w = .ok out w' ∧ Bounded v' w w' := by
  have kin' := ((moving_insertRow h.keyed tx tableId row).of_ok ended).kin
  obtain ⟨ref, place, known, agrees, slots, placed, rfl⟩ := insertRow_ok ended
  have pageSize := Table.pageSize_pos_of_lt (h.paged _ _ known)
  obtain ⟨j, below, passed, page, room, held⟩ := insertAnywhere_ok h.keyed known pageSize placed
  have table := h.kin.table ref
  have known' : w.catalog.ref tableId = .ok ref := (h.kin.ref _).trans known
  have layout := h.kin.layout ref
  have checked' : (w.catalog.table ref).checkSchema row = .ok () := by
    rw [table]
    exact agrees
  have full : ∀ n < j, (w.catalog.table ref).layout.firstFree?
      (w.total ⟨(w.catalog.table ref).id, n⟩) = none := by
    intro n inside
    obtain ⟨full, held⟩ := passed n (Nat.zero_le n) inside
    rwa [layout, h.kin.key, h.agree _ _ held]
  rw [← h.agree _ _ held, page, ← layout, ← h.kin.key] at room
  obtain ⟨w', placed', pages⟩ := h.sole.insertAnywhere (h.kin.keyed h.keyed) known'
    (by rwa [layout]) full room fun last => (kin'.symm.trans h.kin).extendable (last ▸ below)
  refine ⟨w', ?_, fun k => ?_⟩
  · obtain ⟨⟨page', slot⟩, bytes⟩ := place
    cases page
    rw [h.kin.key] at placed'
    exact insertRow_of_placed known' checked' (layout ▸ slots) placed'
  · rcases pages k with same | ⟨rfl, more⟩
    · omega
    · omega

theorem deleteRow_mirrors {record? : Option RecordId} {out : Outcome} (h : Mirrors tx u v v' w)
    (ended : deleteRow tx record? v = .ok out v') :
    ∃ w', deleteRow u record? w = .ok out w' ∧ Bounded v' w w' := by
  cases record? with
  | none => cases ended
  | some record =>
    obtain ⟨ref, bytes, known, mine, got, gone, rfl⟩ := deleteRow_eq_ok_iff.mp ended
    obtain ⟨locked, has, -⟩ := getPage_eq_ok_iff.mp got
    have known' : w.catalog.ref record.page.table = .ok ref := (h.kin.ref _).trans known
    rw [← total_of_has has, ← h.agree _ _ (held_of_lock locked).1, ← h.kin.layout ref] at gone
    by_cases has' : w.catalog.Has record.page
    · obtain ⟨locks, got', -⟩ := h.sole.getPage has' .exclusive
      rw [total_of_has has'] at gone
      refine ⟨{ w with locks }, deleteRow_eq_ok_iff.mpr ⟨ref, bytes, known', ?_, got', gone, rfl⟩,
        fun k => Nat.le_max_left _ _⟩
      rw [mine, h.kin.key]
    · -- there is nothing on a page that is not there
      rw [total, Catalog.fill_of_lacks has', Catalog.blank_of_ref known'] at gone
      exact absurd gone (Layout.remove?_zeros _ _ _)

end Plain
end HeapStore
