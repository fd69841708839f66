import HeapStore.Proofs.Serving
import HeapStore.Proofs.Storing

/-! A table is scanned by a transaction that removes each row it is told and may store another one for
it. Removing the row frees a place on a page that the scan is past, and the other row goes to the first
place that is free, so the scan does not meet it. -/
namespace HeapStore.Store

variable {s s' t : Store} {tx : TxId} {i : TableId} {r : ScanRef} {ref : TableRef} {id : PageId}
  {p : RecordId} {row : Row} {rows left : List Row} {kept : List (List Value)} {values : List Value}
  {choose : List Row → Option Row}

/-- Stores a row, if there is one. -/
def insertSome (tx : TxId) (i : TableId) : Option Row → Action Unit
  | none => return ()
  | some row => do
    let _ ← insertRow tx i row
    return ()

/-- Removes each row that a scan has left, and stores another one for it if `choose` has one for the rows
that were told so far. It tells the rows, each with the one that was stored for it. It counts as a crash
that there are `fuel` of them or more. -/
def sweep (tx : TxId) (i : TableId) (r : ScanRef) (choose : List Row → Option Row) :
    (fuel : Nat) → (told : List Row) → Action (List (Row × Option Row))
  | 0, _ => .crash
  | fuel + 1, told => do
    if ← hasNext r then
      let row ← nextRow r
      let told := told ++ [row]
      deleteRow tx row.record
      insertSome tx i (choose told)
      let later ← sweep tx i r choose fuel told
      return (row, choose told) :: later
    else return []

/-- Does so with all rows of a table. -/
def sweepTable (tx : TxId) (i : TableId) (choose : List Row → Option Row) (fuel : Nat) :
    Action (List (Row × Option Row)) := do
  let r ← newScan tx i
  openScan r
  sweep tx i r choose fuel []

/-- The row is at a place of the table with that id. -/
structure Lies (s : Store) (i : TableId) (row : Row) (p : RecordId) : Prop where
  record : row.record = some p
  table : p.page.table = i
  stored : s.stored p = some row.values

/-- The scan has these rows left. They are where they were when it was opened, and besides them the table
holds what was stored for the rows before. The pages that were changed are among those the scan has read. -/
structure Sweeping (tx : TxId) (i : TableId) (r : ScanRef) (ref : TableRef) (left : List Row)
    (kept : List (List Value)) (s : Store) : Prop where
  coherent : s.Coherent
  known : s.catalog.ref i = .ok ref
  mine : ∀ u id mode, s.locks.Held u id mode → u = tx
  scanning : s.view.Scanning tx r ref left
  few : (s.catalog.table ref).layout.slots ≤ UInt16.size
  enough : (s.catalog.table ref).pages ≤ s.settings.poolPages
  reached : ∀ id u, s.owner id = some u → id.table = i ∧ id.number ≤ (s.scans.getD r default).page
  there : ∀ row ∈ left, ∃ p, s.Lies i row p
  once : (left.map Row.record).Nodup
  stock : (s.stock ref).Perm (left.map Row.values ++ kept)

theorem Sweeping.key (h : s.Sweeping tx i r ref left kept) : (s.catalog.table ref).id = i :=
  (h.coherent.guarded.keyed _ _ h.known).2

theorem Sweeping.sole (h : s.Sweeping tx i r ref left kept) (some : (s.catalog.table ref).pages ≠ 0) :
    Plain.Sole tx s.view :=
  ⟨h.scanning.readable.patient.resolve_right some, h.mine⟩

/-- While a page is left that the scan has not read, the changed pages do not fill the pool. -/
theorem Sweeping.not_exhausted (h : s.Sweeping tx i r ref left kept) (upkeep : s.Upkeep tx t)
    (more : (s.scans.getD r default).page + 1 < (s.catalog.table ref).pages) {e : Stop} :
    ¬t.Exhausted e := by
  rintro ⟨-, full, -⟩
  let seen := (List.range ((s.scans.getD r default).page + 1)).map (PageId.mk i)
  have fits := upkeep.coherent.frames_le full seen fun other u owned => by
    rw [upkeep.owner] at owned
    obtain ⟨rfl, below⟩ := h.reached other u owned
    exact List.mem_map.mpr ⟨other.number, List.mem_range.mpr (Nat.lt_succ_of_le below), rfl⟩
  rw [List.length_map, List.length_range, upkeep.settings] at fits
  have := h.enough
  omega

/-- The scan has moved on over some of its rows, and nothing else has changed. -/
theorem Sweeping.looked (told : List Row) (h : s.Sweeping tx i r ref (told ++ left) kept)
    (upkeep : s.Upkeep tx t) (moves : Plain.Moves tx (some r) s.view t.view)
    (scanning : t.view.Scanning tx r ref left)
    (further : (s.scans.getD r default).page ≤ (t.scans.getD r default).page) :
    t.Sweeping tx i r ref left (told.map Row.values ++ kept) ∧ t.catalog = s.catalog := by
  have catalog : t.catalog = s.catalog := moves.still (by simp)
  have total : t.total = s.total := moves.total
  refine ⟨⟨upkeep.coherent, catalog ▸ h.known, fun u id mode held => ?_, scanning, catalog ▸ h.few, ?_,
    fun id u owned => ?_, fun row listed => ?_, ?_, ?_⟩, catalog⟩
  · exact (moves.locks.own u id mode held).elim (h.mine u id mode) fun mine => mine
  · rw [catalog, upkeep.settings]
    exact h.enough
  · rw [upkeep.owner] at owned
    exact (h.reached id u owned).imp_right fun below => Nat.le_trans below further
  · obtain ⟨p, record, table, stored⟩ := h.there row (List.mem_append_right _ listed)
    refine ⟨p, record, table, ?_⟩
    rw [stored_congr (catalog ▸ .refl _) (congrFun total p.page)]
    exact stored
  · have once := h.once
    rw [List.map_append] at once
    exact (List.nodup_append.mp once).2.1
  · rw [stock_congr catalog total]
    refine h.stock.trans ?_
    rw [List.map_append, List.append_assoc]
    exact List.perm_append_comm_assoc _ _ _

theorem Sweeping.hasNext (h : s.Sweeping tx i r ref left kept) : (hasNext r).Ends s fun answer t =>
    answer = .ok (!left.isEmpty) ∧ t.Sweeping tx i r ref left kept ∧ t.catalog = s.catalog := by
  obtain ⟨v, ended, scanning, -, further⟩ := Plain.hasNext_eq h.scanning
  refine (same_of_follows (hasNext_follows h.coherent r id) ended fun awaits t e upkeep =>
    h.not_exhausted upkeep (h.scanning.table ▸ awaits.2)).mono ?_
  rintro answer t ⟨rfl, upkeep, rfl⟩
  have reads : s.view.Reads r { table := ref, tx } :=
    ⟨h.scanning.valid, h.scanning.table.symm, h.scanning.mover.symm⟩
  have moves := (Plain.moving_hasNext reads).of_ok ended
  exact ⟨rfl, Sweeping.looked [] h upkeep moves scanning further⟩

/-- A place that stores something is on a page, and then the row is told by all scans that get there. -/
theorem record_mem_rowsFrom (h : s.Coherent) (known : s.catalog.ref p.page.table = .ok ref)
    (few : (s.catalog.table ref).layout.slots ≤ UInt16.size) (there : s.stored p = some values) {n : Nat}
    (ahead : n ≤ p.page.number) : some p ∈ (s.view.rowsFrom ref n).map Row.record := by
  obtain ⟨-, key⟩ := h.guarded.keyed _ _ known
  obtain ⟨-, inside, below⟩ := Table.mem_places.mp (mem_places_of_stored h known (there ▸ rfl))
  have number : p.page.number ∈ List.range' n ((s.catalog.table ref).pages - n) :=
    List.mem_range'_1.mpr ⟨ahead, by omega⟩
  have page : (⟨(s.catalog.table ref).id, p.page.number⟩ : PageId) = p.page := by rw [key]
  refine List.mem_map.mpr ⟨⟨(s.catalog.table ref).schema, values, some p⟩, ?_, rfl⟩
  refine List.mem_flatMap.mpr ⟨p.page.number, number, ?_⟩
  rw [rowsAt_eq h (by rw [key, known]) inside, page]
  refine List.mem_filterMap.mpr ⟨p.slot, List.mem_range.mpr below, ?_⟩
  rw [there, RecordId.ofSlot, Nat.mod_eq_of_lt (Nat.lt_of_lt_of_le below few)]
  rfl

/-- The row that is told is on a page that the scan has read. -/
theorem Sweeping.nextRow (h : s.Sweeping tx i r ref (row :: left) kept) :
    (nextRow r).Ends s fun answer t => answer = .ok row ∧
      t.Sweeping tx i r ref left (row.values :: kept) ∧ t.catalog = s.catalog ∧
      ∃ p, t.Lies i row p ∧ p.page.number ≤ (t.scans.getD r default).page ∧
        some p ∉ left.map Row.record := by
  obtain ⟨v, ended, scanning, further⟩ := Plain.nextRow_eq h.scanning
  refine (same_of_follows (nextRow_follows h.coherent r id) ended fun awaits t e upkeep =>
    h.not_exhausted upkeep (h.scanning.table ▸ awaits.2)).mono ?_
  rintro answer t ⟨rfl, upkeep, rfl⟩
  have reads : s.view.Reads r { table := ref, tx } :=
    ⟨h.scanning.valid, h.scanning.table.symm, h.scanning.mover.symm⟩
  have moves := (Plain.moving_nextRow reads).of_ok ended
  obtain ⟨sweeping, catalog⟩ := Sweeping.looked [row] h upkeep moves scanning further
  obtain ⟨p, record, table, stored⟩ := h.there row (List.mem_cons_self ..)
  have other : some p ∉ left.map Row.record := record ▸ (List.nodup_cons.mp h.once).1
  have stored' : t.stored p = some row.values := by
    rw [stored_congr upkeep.catalog (upkeep.total h.coherent p.page)]
    exact stored
  refine ⟨rfl, sweeping, catalog, p, ⟨record, table, stored'⟩,
    Nat.le_of_not_lt fun ahead => other ?_, other⟩
  -- on a later page it would be told once more
  obtain ⟨rest, -, split⟩ := scanning.left
  rw [← split, List.map_append]
  exact List.mem_append_right _
    (record_mem_rowsFrom upkeep.coherent (table ▸ sweeping.known) sweeping.few stored' ahead)

/-- One of the pages that the scan has read was changed, and none was added. -/
theorem Sweeping.reworked {kept' : List (List Value)} (h : s.Sweeping tx i r ref left kept)
    (sole : Plain.Sole tx s.view) (change : s.Reworked tx id s')
    (pages : (s'.catalog.table ref).pages = (s.catalog.table ref).pages)
    (reached : id.table = i ∧ id.number ≤ (s.scans.getD r default).page)
    (same : ∀ p, some p ∈ left.map Row.record → s.stored p ≠ none → s'.stored p = s.stored p)
    (stock : (s'.stock ref).Perm (left.map Row.values ++ kept')) : s'.Sweeping tx i r ref left kept' := by
  obtain ⟨readable, valid, table, mover, rest, here, split⟩ := h.scanning
  obtain ⟨valid', scan⟩ := change.scans r valid
  have known : s'.catalog.ref (s'.catalog.table ref).id = .ok ref := by
    rw [change.kin.key, h.key, change.kin.ref, h.known]
  have readable' : s'.view.Readable tx ref := by
    refine ⟨Or.inl (change.sole sole).patient, known, ?_, fun number inside => ?_,
      fun u id => (change.sole sole).mine u id .exclusive⟩
    · change (s'.catalog.table ref).pageSize ≠ 0
      rw [change.kin.pageSize]
      exact readable.some
    · exact (change.coherent.size_content _).trans (size_saved known)
  refine ⟨change.coherent, by rw [change.kin.ref, h.known], (change.sole sole).mine,
    ⟨readable', valid', scan ▸ table, scan ▸ mover, rest, scan ▸ here, ?_⟩, ?_, ?_, fun other u owned => ?_,
    fun row listed => ?_, h.once, stock⟩
  · rw [← split, show s'.view.scans.getD r default = _ from scan]
    congr 1
    refine Plain.rowsFrom_congr change.kin readable.known fun number beyond => change.total _ ?_
    rintro rfl
    exact Nat.not_succ_le_self _ (Nat.le_trans beyond reached.2)
  · rw [change.kin.layout]
    exact h.few
  · rw [pages, change.settings]
    exact h.enough
  · rw [scan]
    rcases change.owner other u owned with before | ⟨rfl, -⟩
    · exact h.reached other u before
    · exact reached
  · obtain ⟨p, record, table, stored⟩ := h.there row listed
    have kept := same p (List.mem_map.mpr ⟨row, listed, record⟩) (by rw [stored]; simp)
    exact ⟨p, record, table, kept.trans stored⟩

/-- There is a free place on a page that the scan has read. -/
def Room (s : Store) (r : ScanRef) (ref : TableRef) : Prop :=
  ∃ p ∈ (s.catalog.table ref).places, s.stored p = none ∧ p.page.number ≤ (s.scans.getD r default).page

/-- The first free place of the table is on one, then. -/
theorem Room.vacant (h : s.Room r ref) : s.free? ref = some (s.vacant ref) ∧
    s.vacant ref ∈ (s.catalog.table ref).places ∧
    (s.vacant ref).page.number ≤ (s.scans.getD r default).page := by
  obtain ⟨p, listed, empty, reached⟩ := h
  unfold Store.vacant free?
  cases found : (s.catalog.table ref).places.find? fun p => (s.stored p).isNone with
  | none =>
    have used := List.find?_eq_none.mp found p listed
    rw [empty] at used
    exact absurd rfl used
  | some q =>
    obtain ⟨-, before, after, split, used⟩ := List.find?_eq_some_iff_append.mp found
    refine ⟨rfl, List.mem_of_find?_eq_some found, Nat.le_trans ?_ reached⟩
    have ascend := (s.catalog.table ref).places_ascend
    rw [split] at listed ascend
    rcases List.mem_append.mp listed with first | rest
    · have := used p first
      rw [empty] at this
      cases this
    · rcases List.mem_cons.mp rest with rfl | later
      · exact Nat.le_refl _
      · have order := (List.pairwise_cons.mp (List.pairwise_append.mp ascend).2.1).1 p later
        rcases order with lt | ⟨same, -⟩
        · exact Nat.le_of_lt lt
        · exact Nat.le_of_eq same

theorem Sweeping.delete (h : s.Sweeping tx i r ref left (values :: kept)) (table : p.page.table = i)
    (there : s.stored p = some values) (reached : p.page.number ≤ (s.scans.getD r default).page)
    (other : some p ∉ left.map Row.record) : (deleteRow tx (some p)).Ends s fun answer t =>
      answer = .ok () ∧ t.Sweeping tx i r ref left kept ∧ t.catalog = s.catalog ∧ t.Room r ref := by
  have known : s.catalog.ref p.page.table = .ok ref := table ▸ h.known
  have listed := mem_places_of_stored h.coherent known (there ▸ rfl)
  have sole := h.sole (Nat.ne_of_gt (Nat.zero_lt_of_lt (Table.mem_places.mp listed).2.1))
  refine (deleteRow_drops h.coherent sole known (there ▸ rfl)).mono ?_
  rintro answer t ⟨rfl, drops⟩
  have scan := (drops.scans r h.scanning.valid).2
  refine ⟨rfl, h.reworked sole drops.toReworked (by rw [drops.catalog]) ⟨table, reached⟩
    (fun q needed _ => ?_) ?_, drops.catalog, p, drops.catalog ▸ listed, ?_, scan ▸ reached⟩
  · rw [drops.stored, if_neg]
    rintro rfl
    exact other needed
  · refine ((drops.stock h.coherent known there).symm.trans h.stock).trans List.perm_middle |>.cons_inv
  · rw [drops.stored, if_pos rfl]

theorem Sweeping.insert (h : s.Sweeping tx i r ref left kept) (room : s.Room r ref)
    (takes : (s.catalog.table ref).Takes row) : (insertRow tx i row).Ends s fun answer t =>
      (∃ record, answer = .ok record) ∧ t.Sweeping tx i r ref left (row.values :: kept) ∧
        s.catalog.Kin t.catalog ∧ ∀ k, (t.catalog.table k).pages = (s.catalog.table k).pages := by
  obtain ⟨free, listed, reached⟩ := room.vacant
  obtain ⟨-, inside, below⟩ := Table.mem_places.mp listed
  have sole := h.sole (Nat.ne_of_gt (Nat.zero_lt_of_lt inside))
  refine (insertRow_stores h.coherent sole h.known (Nat.ne_of_gt (Nat.zero_lt_of_lt below)) takes
    fun full => ?_).mono ?_
  · rw [free] at full
    cases full
  rintro answer t ⟨rfl, stores⟩
  have pages : ∀ k, (t.catalog.table k).pages = (s.catalog.table k).pages := by
    intro k
    rw [stores.pages, if_neg, Nat.add_zero]
    rintro ⟨-, full⟩
    rw [free] at full
    cases full
  have known : s.catalog.ref (s.catalog.table ref).id = .ok ref := by rw [h.key, h.known]
  refine ⟨⟨_, rfl⟩, h.reworked sole stores.toReworked (pages ref) ⟨?_, reached⟩ (fun p _ there => ?_) ?_,
    stores.kin, pages⟩
  · rw [vacant_table, h.key]
  · rw [stores.stored, if_neg]
    rintro rfl
    exact there (stored_vacant known)
  · exact ((stores.stock known).trans (h.stock.cons _)).trans List.perm_middle.symm

theorem Sweeping.insertSome {new : Option Row} (h : s.Sweeping tx i r ref left kept) (room : s.Room r ref)
    (takes : ∀ row, new = some row → (s.catalog.table ref).Takes row) :
    (insertSome tx i new).Ends s fun answer t => answer = .ok () ∧
      t.Sweeping tx i r ref left (new.toList.map Row.values ++ kept) ∧ s.catalog.Kin t.catalog ∧
      ∀ k, (t.catalog.table k).pages = (s.catalog.table k).pages := by
  cases new with
  | none => exact ⟨rfl, h, .refl _, fun _ => rfl⟩
  | some row =>
    unfold Store.insertSome
    rw [Action.ends_bind]
    refine (h.insert room (takes row rfl)).mono ?_
    rintro answer t ⟨⟨record, rfl⟩, rest⟩
    exact ⟨rfl, rest⟩

theorem map_inits_tail {α β : Type} (f : List α → β) (a : α) (as : List α) :
    (a :: as).inits.tail.map f = f [a] :: as.inits.tail.map fun seen => f (a :: seen) := by
  cases as <;> simp

/-- All rows that are left are told, and in the end the table holds what was stored for them. -/
theorem Sweeping.runs (h : s.Sweeping tx i r ref left kept)
    (takes : ∀ told row, choose told = some row → (s.catalog.table ref).Takes row) {fuel : Nat}
    (enough : left.length < fuel) (told : List Row) :
    (sweep tx i r choose fuel told).Ends s fun answer t => ∃ done, answer = .ok done ∧
      done.map Prod.fst = left ∧
      done.map Prod.snd = left.inits.tail.map (fun seen => choose (told ++ seen)) ∧
      (∀ k, (t.catalog.table k).pages = (s.catalog.table k).pages) ∧
      (t.stock ref).Perm ((done.filterMap Prod.snd).map Row.values ++ kept) := by
  induction left generalizing s kept fuel told with
  | nil =>
    obtain ⟨fuel, rfl⟩ := Nat.exists_eq_add_one.mpr enough
    unfold sweep
    rw [Action.ends_bind]
    refine h.hasNext.mono ?_
    rintro answer t ⟨rfl, sweeping, catalog⟩
    exact ⟨[], rfl, rfl, rfl, fun k => by rw [catalog], sweeping.stock⟩
  | cons row left ih =>
    obtain ⟨fuel, rfl⟩ := Nat.exists_eq_add_one.mpr (Nat.zero_lt_of_lt enough)
    unfold sweep
    rw [Action.ends_bind]
    refine h.hasNext.mono ?_
    rintro answer t₁ ⟨rfl, h, catalog₁⟩
    simp only [Action.andThen, List.isEmpty_cons, Bool.not_false, if_true]
    rw [Action.ends_bind]
    refine h.nextRow.mono ?_
    rintro answer t₂ ⟨rfl, h, catalog₂, p, lies, reached, other⟩
    rw [Action.andThen, lies.record, Action.ends_bind]
    refine (h.delete lies.table lies.stored reached other).mono ?_
    rintro answer t₃ ⟨rfl, h, catalog₃, room⟩
    have same : t₃.catalog = s.catalog := by rw [catalog₃, catalog₂, catalog₁]
    rw [Action.andThen, Action.ends_bind]
    refine (h.insertSome room fun row new => same ▸ takes _ row new).mono ?_
    rintro answer t₄ ⟨rfl, h, kin, pages⟩
    rw [same] at kin pages
    rw [Action.andThen, Action.ends_bind]
    refine (ih h (fun told row new => ?_) (Nat.lt_of_succ_lt_succ enough) (told ++ [row])).mono ?_
    · obtain ⟨typed, sized, agrees⟩ := takes told row new
      exact ⟨typed, sized, (kin.schema ref).symm ▸ agrees⟩
    rintro answer t₅ ⟨done, rfl, rows, chosen, pages', stock⟩
    refine ⟨_, rfl, by rw [List.map_cons, rows], ?_, fun k => (pages' k).trans (pages k), stock.trans ?_⟩
    · rw [map_inits_tail, List.map_cons, chosen]
      simp only [List.append_assoc, List.singleton_append]
    cases choose (told ++ [row]) with
    | none => exact .refl _
    | some new => exact List.perm_middle

/-- A scan that is opened while no page is dirty has all rows of its table left. -/
theorem openScan_sweeps (h : s.Coherent) (known : s.catalog.ref i = .ok ref)
    (readable : ¬s.Unreadable ref) (few : (s.catalog.table ref).layout.slots ≤ UInt16.size)
    (mine : ∀ u id mode, s.locks.Held u id mode → u = tx) (clean : ∀ id, s.owner id = none)
    (enough : (s.catalog.table ref).pages ≤ s.settings.poolPages) (valid : r < s.scans.size)
    (here : s.scans.getD r default = { table := ref, tx }) :
    (openScan r).Ends s fun answer t => answer = .ok () ∧
      t.Sweeping tx i r ref (s.listing ref) [] ∧ t.catalog = s.catalog := by
  obtain ⟨-, key⟩ := h.guarded.keyed _ _ known
  have table : (s.view.scans.getD r default).table = ref := congrArg Scan.table here
  have mover : (s.view.scans.getD r default).tx = tx := congrArg Scan.tx here
  obtain ⟨v, ended, scanning, -⟩ := Plain.openScan_eq
    (readable_view h known readable fun u id => mine u id .exclusive) valid table mover
  have follows : (openScan r).Ends s
      (Follows ((s.catalog.table ref).pages ≠ 0) tx s (Plain.openScan r) Same) :=
    openScan_follows h r fun some => table ▸ some
  refine (same_of_follows follows ended fun some t e upkeep => ?_).mono ?_
  · rintro ⟨-, full, -⟩
    have fits := upkeep.coherent.frames_le full [] fun id u owned => by
      rw [upkeep.owner, clean] at owned
      cases owned
    rw [upkeep.settings] at fits
    exact some (Nat.le_zero.mp (Nat.le_trans enough fits))
  rintro answer t ⟨rfl, upkeep, rfl⟩
  have reads : s.view.Reads r { table := ref, tx } := ⟨valid, table.symm, mover.symm⟩
  have moves := (Plain.moving_openScan reads).of_ok ended
  have catalog : t.catalog = s.catalog := moves.still (by simp)
  rw [rowsFrom_eq h (by rw [key, known]) few] at scanning
  refine ⟨rfl, ⟨upkeep.coherent, catalog ▸ known, fun u id mode held => ?_, scanning, catalog ▸ few, ?_,
    fun id u owned => ?_, fun row listed => ?_, ?_, ?_⟩, catalog⟩
  · exact (moves.locks.own u id mode held).elim (mine u id mode) fun mine => mine
  · rw [catalog, upkeep.settings]
    exact enough
  · rw [upkeep.owner, clean] at owned
    cases owned
  · obtain ⟨p, place, made⟩ := List.mem_filterMap.mp listed
    obtain ⟨values, stored, rfl⟩ := Option.map_eq_some_iff.mp made
    refine ⟨p, rfl, (Table.mem_places.mp place).1.trans key, ?_⟩
    rw [stored_congr upkeep.catalog (upkeep.total h p.page)]
    exact stored
  · have places : (s.listing ref).map Row.record =
        ((s.catalog.table ref).places.filter fun p => (s.stored p).isSome).map some := by
      rw [listing, List.map_filterMap, ← List.filterMap_eq_map, List.filterMap_filter]
      refine List.filterMap_congr fun p _ => ?_
      cases s.stored p <;> rfl
    rw [places]
    exact ((nodup_places _).filter _).map fun _ _ => Option.some.inj
  · rw [stock_congr catalog moves.total, values_listing, List.append_nil]

/-- If the locks are all of one transaction and no page is dirty, nothing is left to ask of them. -/
theorem Pooled.coherent_of_clean (h : s.Pooled) (mine : ∀ u id mode, s.locks.Held u id mode → u = tx)
    (clean : ∀ id, s.owner id = none) : s.Coherent := by
  obtain ⟨locks, coherent⟩ := h.coherent
  have same : ({ { s with locks } with locks := s.locks } : Store) = s := rfl
  rw [← same]
  refine coherent.withLocks ⟨coherent.guarded.pool, fun u v p mode held held' => ?_,
    coherent.guarded.keyed, fun id u owned => ?_, coherent.guarded.known⟩
  · rw [mine u p .exclusive held, mine v p mode held']
  · rw [show s.owner id = none from clean id] at owned
    cases owned

theorem Pooled.owner_of_clean (h : s.Pooled) (clean : s.pool.dirty = []) (id : PageId) :
    s.owner id = none := by
  refine Option.eq_none_iff_forall_ne_some.mpr fun u owned => ?_
  obtain ⟨page, cached, mine⟩ := Option.bind_eq_some_iff.mp owned
  obtain ⟨k, there, rfl⟩ := Pool.image?_eq_some_iff.mp cached
  obtain ⟨f, here, -⟩ := h.sound.resident?_eq_some_iff.mp there
  have dirty : k ∈ s.pool.dirty :=
    List.mem_filter.mpr ⟨mem_residents_iff.mpr ⟨f, here⟩, Option.isSome_of_mem mine⟩
  rw [clean] at dirty
  cases dirty

/-- The rows in the file of a table. -/
def filed (s : Store) (ref : TableRef) : List Row := Plain.rowsFrom { s.view with bytes := s.saved } ref 0

theorem Coherent.filed_eq (h : s.Coherent) (known : s.catalog.ref i = .ok ref)
    (few : (s.catalog.table ref).layout.slots ≤ UInt16.size) (clean : ∀ id, s.owner id = none) :
    s.filed ref = s.listing ref := by
  have same : s.content = s.saved := funext fun id => h.content_of_clean (clean id)
  rw [filed, ← same, ← rowsFrom_eq h ?_ few]
  · rfl
  · rw [(h.guarded.keyed _ _ known).2, known]

variable {settings : Settings} {disk : Disk} {qs : List Request}

/-- A transaction that nobody is in the way of can change a table while it scans it. If every row it is
told is removed, and no row or one row of the table is stored for it, all that succeeds and comes to an end.
The rows that are told are those that are in the file when the scan is opened, in the order of their
places, no page is added, and in the end the table holds just the rows that were stored on the way. -/
theorem sweep_meets_no_new_row (served : (Store.new settings disk).serveAll qs = some s)
    (scans : Array Scan) (known : s.catalog.ref i = .ok ref) (readable : ¬s.Unreadable ref)
    (few : (s.catalog.table ref).layout.slots ≤ UInt16.size)
    (mine : ∀ u id mode, s.locks.Held u id mode → u = tx) (clean : s.pool.dirty = [])
    (enough : (s.catalog.table ref).pages ≤ s.settings.poolPages)
    (takes : ∀ told row, choose told = some row → (s.catalog.table ref).Takes row) {fuel : Nat}
    (tries : (s.listing ref).length < fuel) :
    ∃ done t, sweepTable tx i choose fuel { s with scans } = .ok done t ∧
      done.map Prod.fst = s.listing ref ∧ s.listing ref = s.filed ref ∧
      done.map Prod.snd = (s.listing ref).inits.tail.map choose ∧
      (∀ k, (t.catalog.table k).pages = (s.catalog.table k).pages) ∧
      ((t.listing ref).map Row.values).Perm ((done.filterMap Prod.snd).map Row.values) := by
  obtain ⟨pooled, -⟩ := serveAll_pooled (pooled_new settings disk) served
  have clean := pooled.owner_of_clean clean
  have coherent := pooled.coherent_of_clean mine clean
  let ready : Store := { s with scans := scans.push { table := ref, tx } }
  have created : newScan tx i { s with scans } = .ok scans.size ready := by
    unfold newScan
    refine Action.bind_eq_ok_iff.mpr ⟨_, _, rfl, ?_⟩
    refine Action.bind_eq_ok_iff.mpr ⟨ref, { s with scans }, ?_, rfl⟩
    change Action.ofCause (s.catalog.ref i) { s with scans } = _
    rw [known]
    rfl
  have valid : scans.size < ready.scans.size := by simp [ready]
  have here : ready.scans.getD scans.size default = { table := ref, tx } := by
    simp [ready, Array.getD_eq_getD_getElem?]
  obtain ⟨u, opened, sweeping, catalog⟩ := (openScan_sweeps (coherent.withScans ready.scans) known readable
    few mine clean enough valid here).exists_ok
  have told := sweeping.runs (fun told row new => (catalog ▸ takes told row new :)) tries []
  cases ended : sweep tx i scans.size choose fuel [] u with
  | error e t =>
    obtain ⟨done, never, -⟩ := told.of_error ended
    cases never
  | ok done t =>
    obtain ⟨_, same, rows, chosen, pages, stock⟩ := told.of_ok ended
    cases same
    refine ⟨done, t, ?_, rows, (coherent.filed_eq known few clean).symm, chosen,
      fun k => by rw [pages, catalog], ?_⟩
    · refine Action.bind_eq_ok_iff.mpr ⟨_, _, created, ?_⟩
      exact Action.bind_eq_ok_iff.mpr ⟨_, _, opened, ended⟩
    · rw [values_listing]
      exact List.append_nil (List.map Row.values _) ▸ stock

/-- Every other one of four rows on two pages is replaced, with one page locked beforehand. -/
theorem sweep_meets_no_new_row_on_two_pages :
    let schema : Schema := ⟨[⟨.integer, some "n"⟩]⟩
    let row (n : Int32) : Row := ⟨schema, [.integer n], none⟩
    let insert (n : Int32) : Request := .insert 1 1 (row n)
    let choose (told : List Row) := if told.length % 2 = 1 then some (row 5) else none
    ∃ s done t, (Store.new { pageSize := 16, poolPages := 2 }).serveAll
        [.addTable (.create "odd" "odd" schema "n"), insert 1, insert 2, insert 3, insert 4,
          .complete 1 true, .getPage 2 ⟨1, 0⟩ .shared] = some s ∧
      (s.catalog.table 0).pages = 2 ∧
      s.locks.table = ({} : PageMap Holders).insert ⟨1, 0⟩ { shared := [2] } ∧
      sweepTable 2 1 choose 5 { s with scans := #[{ table := 0, tx := 1 }] } = .ok done t ∧
      done.map (Row.values ∘ Prod.fst) = [[.integer 1], [.integer 2], [.integer 3], [.integer 4]] ∧
      (t.catalog.table 0).pages = 2 ∧
      ((t.listing 0).map Row.values).Perm [[.integer 5], [.integer 5]] := by
  intro schema row insert choose
  have facts : ((Store.new { pageSize := 16, poolPages := 2 }).serveAll
      [.addTable (.create "odd" "odd" schema "n"), insert 1, insert 2, insert 3, insert 4,
        .complete 1 true, .getPage 2 ⟨1, 0⟩ .shared]).any (fun s => (s.catalog.table 0).pages = 2 ∧
          s.locks.table = ({} : PageMap Holders).insert ⟨1, 0⟩ { shared := [2] } ∧
          (s.catalog.ref 1).toOption = some 0 ∧ ¬s.Unreadable 0 ∧
          (s.catalog.table 0).layout.slots ≤ UInt16.size ∧ s.pool.dirty = [] ∧ s.settings.poolPages = 2 ∧
          (s.catalog.table 0).schema = schema ∧
          (s.listing 0).map Row.values = [[.integer 1], [.integer 2], [.integer 3], [.integer 4]] ∧
          (s.listing 0).inits.tail.map choose = [some (row 5), none, some (row 5), none]) = true := by
    decide +kernel
  obtain ⟨s, served, pages, locks, known, readable, few, clean, frames, fields, rows, new⟩ :=
    exists_of_any facts
  have mine : ∀ u id mode, s.locks.Held u id mode → u = 2 := by
    intro u id mode held
    unfold Locks.Held Locks.holders at held
    rw [locks, PageMap.getElem?_insert] at held
    by_cases here : id = ⟨1, 0⟩ <;> cases mode <;> simp_all [Holders.lists]
  have takes : ∀ told new, choose told = some new → (s.catalog.table 0).Takes new := by
    intro told new chosen
    have same : row 5 = new := (Option.some.inj (ite_eq_iff.mp chosen |>.resolve_right (by simp)).2 :)
    rw [← same]
    exact Table.takes_new (fields ▸ rfl : Row.new _ [.integer 5] = .ok (row 5))
  have count : (s.listing 0).length < 5 := by
    rw [← List.length_map Row.values, rows]
    decide
  obtain ⟨done, t, ended, told, -, chosen, pages', stock⟩ := sweep_meets_no_new_row served
    #[{ table := 0, tx := 1 }] (of_toOption known) readable few mine clean (by rw [pages, frames])
    takes count
  have stored : done.filterMap Prod.snd = (done.map Prod.snd).filterMap id := by
    rw [List.filterMap_map]
    rfl
  rw [stored, chosen, new] at stock
  refine ⟨s, done, t, served, pages, locks, ended, ?_, by rw [pages', pages], stock⟩
  rw [← List.map_map, told, rows]

/-- What the answer of an action is, if it returns or crashes. -/
def answer? {α : Type} (x : Action α) (s : Store) : Option (Option α) :=
  match x s with
  | .ok a _ => some (some a)
  | .error .crashed _ => some none
  | .error (.failed _) _ => none

/-- A scan crashes if its pages have no size or if a lock is asked for without an end. It tells other rows
than are in the file of its table if another table has the same file, or had the same id. -/
theorem sweep_misled :
    let schema : Schema := ⟨[⟨.integer, some "n"⟩]⟩
    let holding (n : UInt8) : File := ⟨[⟨0, ⟨#[1, 0, 0, 0, n]⟩⟩], 16⟩
    let disk : Disk := ⟨[("odd", holding 7), ("even", holding 8)]⟩
    let load (id : TableId) (path name : String) : Request :=
      .addTable (.loadWithId id path name schema "n" 16)
    let served (settings : Settings) (qs : List Request) : Option Store :=
      qs.foldlM serve (Store.new settings disk)
    let cleared (s : Store) : Bool := s.pool.dirty = [] ∧ s.locks.table = {}
    let told (s : Store) := (answer? (sweepTable 1 1 (fun _ => none) 3) s).map
      (Option.map (List.map (Row.values ∘ Prod.fst)))
    (∃ s, served { pageSize := 0 } [.addTable (.create "new" "new" schema "n")] = some s ∧ cleared s ∧
      (s.catalog.table 0).pages = 0 ∧ told s = some none) ∧
    (∃ s, served { lockRetries := UInt32.size - 1, lockWait := UInt64.size - 1 }
        [load 1 "odd" "odd"] = some s ∧ cleared s ∧ s.filed 0 ≠ [] ∧ told s = some none) ∧
    (∃ s, served {} [load 1 "odd" "odd", load 2 "odd" "same", .getPage 1 ⟨1, 0⟩ .shared,
        .insert 1 2 ⟨schema, [.integer 8], none⟩, .complete 1 true] = some s ∧ cleared s ∧
      (s.filed 0).map Row.values = [[.integer 7], [.integer 8]] ∧ told s = some (some [[.integer 7]])) ∧
    ∃ s, served {} [load 1 "odd" "odd", .getPage 1 ⟨1, 0⟩ .shared, .complete 1 true,
        load 1 "even" "even"] = some s ∧ cleared s ∧
      (s.filed 1).map Row.values = [[.integer 8]] ∧ told s = some (some [[.integer 7]]) := by
  intro schema holding disk load served cleared told
  refine ⟨exists_of_any ?_, exists_of_any ?_, exists_of_any ?_, exists_of_any ?_⟩
  all_goals decide +kernel

end HeapStore.Store
