import HeapStore.Proofs.Cells
import HeapStore.Proofs.Repeating
import Mathlib.Data.List.Find

/-! A store as a map from places to the values stored there. A row goes to the first free place of its
table, or to a new page if there is none, and a scan tells the rows in the order of their places. -/
namespace HeapStore

/-- Whether an event takes nothing back and adds no table. -/
def Event.keeps : Event → Bool
  | .begin | .op _ _ | .commit _ | .flushPage _ | .flushAll => true
  | .abort _ | .drop _ | .discard _ | .addTable _ => false

/-- Whether it does not store or remove rows either. -/
def Event.looks : Event → Bool
  | .op _ o => !o.alters
  | e => e.keeps

/-- The order of the places of a table: by page first, and then by slot. -/
def RecordId.Before (p q : RecordId) : Prop :=
  p.page.number < q.page.number ∨ p.page.number = q.page.number ∧ p.slot < q.slot

theorem nodup_of_ascend {places : List RecordId} (ascend : places.Pairwise RecordId.Before) :
    places.Nodup := by
  refine ascend.imp fun before same => ?_
  subst same
  rcases before with lt | ⟨-, lt⟩ <;> exact Nat.lt_irrefl _ lt

theorem Layout.eq_zero_of_firstFree?_zeros {l : Layout} {n i : Nat}
    (found : l.firstFree? (.zeros n) = some i) : i = 0 := by
  rw [firstFree?_eq_find?] at found
  cases slots : l.slots with
  | zero =>
    rw [slots] at found
    cases found
  | succ count =>
    rw [slots, List.range_succ_eq_map, List.find?_cons_of_pos (by simp)] at found
    exact (Option.some.inj found).symm

namespace Table

variable {t : Table} {p : RecordId}

/-- The places of a table, in ascending order. -/
def places (t : Table) : List RecordId :=
  (List.range t.pages).flatMap fun n => (List.range t.layout.slots).map (RecordId.mk ⟨t.id, n⟩)

theorem mem_places : p ∈ t.places ↔
    p.page.table = t.id ∧ p.page.number < t.pages ∧ p.slot < t.layout.slots := by
  obtain ⟨⟨table, number⟩, slot⟩ := p
  simp only [places, List.mem_flatMap, List.mem_range, List.mem_map, RecordId.mk.injEq, PageId.mk.injEq]
  constructor
  · rintro ⟨n, below, i, inside, ⟨rfl, rfl⟩, rfl⟩
    exact ⟨rfl, below, inside⟩
  · rintro ⟨rfl, below, inside⟩
    exact ⟨number, below, slot, inside, ⟨rfl, rfl⟩, rfl⟩

theorem places_ascend (t : Table) : t.places.Pairwise RecordId.Before := by
  refine List.pairwise_flatMap.mpr ⟨fun n _ => ?_, ?_⟩
  · exact List.pairwise_map.mpr (List.pairwise_lt_range.imp fun lt => Or.inr ⟨rfl, lt⟩)
  · refine List.pairwise_lt_range.imp fun lt p first q second => Or.inl ?_
    obtain ⟨i, -, rfl⟩ := List.mem_map.mp first
    obtain ⟨j, -, rfl⟩ := List.mem_map.mp second
    exact lt

theorem agrees_of_checkSchema {row : Row} (checked : t.checkSchema row = .ok ()) :
    row.schema.Agrees t.schema := by
  unfold checkSchema at checked
  split at checked
  · assumption
  · cases checked

end Table

namespace Store

variable {s s' t : Store} {ref : TableRef} {p : RecordId} {i k slot : Nat} {id : PageId} {tx : TxId}
  {bytes : Bytes}

/-- The values stored at a place, if there are any. -/
def stored (s : Store) (p : RecordId) : Option (List Value) :=
  match s.catalog.byId p.page.table with
  | .ok t => t.valuesAt p.page (s.total p.page) p.slot
  | .error _ => none

/-- The first place of a table where nothing is stored. -/
def free? (s : Store) (ref : TableRef) : Option RecordId :=
  (s.catalog.table ref).places.find? fun p => (s.stored p).isNone

/-- The place that the next row of a table goes to. If there is no free one it is on a new page. -/
def vacant (s : Store) (ref : TableRef) : RecordId :=
  (s.free? ref).getD ⟨⟨(s.catalog.table ref).id, (s.catalog.table ref).pages⟩, 0⟩

/-- The rows of a table in the order of their places. -/
def listing (s : Store) (ref : TableRef) : List Row :=
  (s.catalog.table ref).places.filterMap fun p =>
    (s.stored p).map fun values => ⟨(s.catalog.table ref).schema, values, some p⟩

theorem stored_of_ref (known : s.catalog.ref p.page.table = .ok ref) :
    s.stored p = (s.catalog.table ref).valuesAt p.page (s.total p.page) p.slot := by
  simp [stored, Catalog.byId, known, Except.map]

theorem Coherent.size_total (h : s.Coherent) (known : s.catalog.ref id.table = .ok ref) :
    (s.total id).size = (s.catalog.table ref).pageSize := by
  by_cases has : s.catalog.Has id
  · rw [total_of_has has, h.size_content, size_saved known]
  · rw [total_of_lacks has, Catalog.blank_of_ref known, Bytes.size_zeros]

theorem stored_congr (grown : s.catalog.Grown s'.catalog) (same : s'.total p.page = s.total p.page) :
    s'.stored p = s.stored p := by
  cases known : s.catalog.ref p.page.table with
  | error c =>
    have known' := (grown.ref p.page.table).trans known
    simp [stored, Catalog.byId, known, known', Except.map]
  | ok ref =>
    rw [stored_of_ref known, stored_of_ref ((grown.ref _).trans known), same, grown.table ref]
    rfl

theorem stored_of_lacks (known : s.catalog.ref p.page.table = .ok ref)
    (beyond : (s.catalog.table ref).pages ≤ p.page.number) : s.stored p = none := by
  have lacks : ¬s.catalog.Has p.page := by
    rw [Catalog.has_iff known]
    exact Nat.not_lt_of_le beyond
  rw [stored_of_ref known, total_of_lacks lacks, Catalog.blank_of_ref known, Table.valuesAt_zeros]

/-- The first free place is on the first page that has a free slot. -/
theorem free?_eq (h : s.Coherent) (known : s.catalog.ref (s.catalog.table ref).id = .ok ref) :
    s.free? ref = (List.range (s.catalog.table ref).pages).findSome? fun n =>
      ((s.catalog.table ref).layout.firstFree? (s.total ⟨(s.catalog.table ref).id, n⟩)).map
        (RecordId.mk ⟨(s.catalog.table ref).id, n⟩) := by
  unfold free? Table.places
  rw [List.find?_flatMap]
  congr 1
  funext n
  rw [List.find?_map, Layout.firstFree?_eq_find?]
  congr 1
  refine List.find?_congr fun i inside => ?_
  have here : s.catalog.ref (RecordId.mk ⟨(s.catalog.table ref).id, n⟩ i).page.table = .ok ref := known
  have used := Table.valuesAt_isSome (h.size_total here) ⟨(s.catalog.table ref).id, n⟩ i
  rw [Function.comp_apply, stored_of_ref here, ← Option.not_isSome, Bool.eq_iff_iff]
  simp only [Bool.not_eq_true', ← Bool.not_eq_true, used, List.mem_range.mp inside, true_and]

/-- The rows on a page are those that are stored there. -/
theorem rowsAt_eq (h : s.Coherent) {n : Nat} (known : s.catalog.ref (s.catalog.table ref).id = .ok ref)
    (inside : n < (s.catalog.table ref).pages) : s.view.rowsAt ref n =
      (List.range (s.catalog.table ref).layout.slots).filterMap fun i =>
        (s.stored ⟨⟨(s.catalog.table ref).id, n⟩, i⟩).map fun values =>
          ⟨(s.catalog.table ref).schema, values, some (.ofSlot ⟨(s.catalog.table ref).id, n⟩ i)⟩ := by
  have here : s.catalog.ref (PageId.mk (s.catalog.table ref).id n).table = .ok ref := known
  have has : s.catalog.Has ⟨(s.catalog.table ref).id, n⟩ := (Catalog.has_iff here).mpr inside
  have whole : (s.content ⟨(s.catalog.table ref).id, n⟩).size = (s.catalog.table ref).pageSize := by
    rw [h.size_content, size_saved here]
  obtain ⟨rows, told⟩ := Option.isSome_iff_exists.mp
    (Layout.rows?_isSome (s.catalog.table ref).schema _ ⟨(s.catalog.table ref).id, n⟩ whole)
  have there : s.view.rowsAt ref n = rows := congrArg (Option.getD · []) told
  rw [there, Table.rows?_eq told]
  refine List.filterMap_congr fun i _ => ?_
  rw [stored_of_ref here, total_of_has has]

/-- The rows that the pages of a table hold are those that are stored at its places. -/
theorem rowsFrom_eq_filterMap (h : s.Coherent)
    (known : s.catalog.ref (s.catalog.table ref).id = .ok ref) : s.view.rowsFrom ref 0 =
      (s.catalog.table ref).places.filterMap fun p =>
        (s.stored p).map fun values => ⟨(s.catalog.table ref).schema, values, some (.ofSlot p.page p.slot)⟩ := by
  unfold Plain.rowsFrom Table.places
  rw [List.filterMap_flatMap, Nat.sub_zero, ← List.range_eq_range']
  refine List.flatMap_congr fun n inside => ?_
  rw [rowsAt_eq h known (List.mem_range.mp inside), List.filterMap_map]
  rfl

/-- They name their places if the slots are few enough to be told apart. -/
theorem rowsFrom_eq (h : s.Coherent) (known : s.catalog.ref (s.catalog.table ref).id = .ok ref)
    (few : (s.catalog.table ref).layout.slots ≤ UInt16.size) : s.view.rowsFrom ref 0 = s.listing ref := by
  rw [rowsFrom_eq_filterMap h known]
  refine List.filterMap_congr fun p listed => ?_
  have inside := (Table.mem_places.mp listed).2.2
  rw [RecordId.ofSlot, Nat.mod_eq_of_lt (Nat.lt_of_lt_of_le inside few)]

theorem vacant_table (s : Store) (ref : TableRef) :
    (s.vacant ref).page.table = (s.catalog.table ref).id := by
  unfold vacant
  cases free : s.free? ref with
  | none => rfl
  | some p => exact (Table.mem_places.mp (List.mem_of_find?_eq_some free)).1

theorem stored_vacant (known : s.catalog.ref (s.catalog.table ref).id = .ok ref) :
    s.stored (s.vacant ref) = none := by
  unfold vacant
  cases free : s.free? ref with
  | none => exact stored_of_lacks (p := ⟨⟨(s.catalog.table ref).id, _⟩, 0⟩) known (Nat.le_refl _)
  | some p =>
    have vacant : (s.stored p).isNone = true := List.find?_some (p := fun p => (s.stored p).isNone) free
    exact Option.isNone_iff_eq_none.mp vacant

/-- A page gets new bytes, by which values are stored in one of its slots or taken from there. -/
theorem Rewritten.stored (h : s.Rewritten tx id bytes s') (known : s.catalog.ref id.table = .ok ref)
    (slot : Nat) (values? : Option (List Value)) (sets : ∀ j, (s.catalog.table ref).valuesAt id bytes j =
      if j = slot then values? else (s.catalog.table ref).valuesAt id (s.total id) j) (p : RecordId) :
    s'.stored p = if p = ⟨id, slot⟩ then values? else s.stored p := by
  obtain ⟨page, i⟩ := p
  have catalog : s'.catalog = s.catalog := by rw [h.rest]
  by_cases here : page = id
  · subst here
    have known' : s'.catalog.ref page.table = .ok ref := catalog ▸ known
    rw [stored_of_ref (p := ⟨page, i⟩) known, stored_of_ref (p := ⟨page, i⟩) known', catalog, h.total,
      if_pos rfl, sets]
    simp
  · rw [if_neg fun same => here (congrArg RecordId.page same)]
    refine stored_congr (catalog ▸ .refl _) ?_
    rw [h.total, if_neg here]

/-- The first free place is that of the first slot that is free, if the pages before have none. -/
theorem free?_of_passed (h : s.Coherent) (known : s.catalog.ref (s.catalog.table ref).id = .ok ref)
    {n : Nat} (inside : n < (s.catalog.table ref).pages)
    (passed : ∀ m < n, (s.catalog.table ref).layout.firstFree?
      (s.total ⟨(s.catalog.table ref).id, m⟩) = none)
    (free : (s.catalog.table ref).layout.firstFree? (s.total ⟨(s.catalog.table ref).id, n⟩) = some slot) :
    s.free? ref = some ⟨⟨(s.catalog.table ref).id, n⟩, slot⟩ := by
  rw [free?_eq h known, show (s.catalog.table ref).pages =
    n + ((s.catalog.table ref).pages - n - 1 + 1) by omega, List.range_add, List.findSome?_append,
    List.findSome?_eq_none_iff.mpr fun m below => by rw [passed m (List.mem_range.mp below)]; rfl,
    Option.none_or, List.range_succ_eq_map, List.map_cons, List.findSome?_cons, Nat.add_zero, free]
  rfl

theorem free?_of_full (h : s.Coherent) (known : s.catalog.ref (s.catalog.table ref).id = .ok ref)
    (passed : ∀ n < (s.catalog.table ref).pages, (s.catalog.table ref).layout.firstFree?
      (s.total ⟨(s.catalog.table ref).id, n⟩) = none) : s.free? ref = none := by
  rw [free?_eq h known]
  exact List.findSome?_eq_none_iff.mpr fun n below => by rw [passed n (List.mem_range.mp below)]; rfl

/-- The first page that has a free slot is a new one if there is no free place, and then the slot is
its first one. -/
theorem vacant_eq (h : s.Coherent) (known : s.catalog.ref (s.catalog.table ref).id = .ok ref) {n : Nat}
    (inside : n ≤ (s.catalog.table ref).pages)
    (passed : ∀ m < n, (s.catalog.table ref).layout.firstFree?
      (s.total ⟨(s.catalog.table ref).id, m⟩) = none)
    (free : (s.catalog.table ref).layout.firstFree? (s.total ⟨(s.catalog.table ref).id, n⟩) = some slot) :
    s.vacant ref = ⟨⟨(s.catalog.table ref).id, n⟩, slot⟩ ∧
    (s.free? ref = none ↔ n = (s.catalog.table ref).pages) := by
  unfold vacant
  rcases Nat.lt_or_eq_of_le inside with below | rfl
  · rw [free?_of_passed h known below passed free]
    exact ⟨rfl, by simp [Nat.ne_of_lt below]⟩
  · have here : s.catalog.ref (PageId.mk (s.catalog.table ref).id (s.catalog.table ref).pages).table =
        .ok ref := known
    have lacks : ¬s.catalog.Has ⟨(s.catalog.table ref).id, (s.catalog.table ref).pages⟩ := by
      rw [Catalog.has_iff here]
      exact Nat.lt_irrefl _
    rw [total_of_lacks lacks, Catalog.blank_of_ref here] at free
    rw [free?_of_full h known passed, Layout.eq_zero_of_firstFree?_zeros free]
    exact ⟨rfl, by simp⟩

/-- A row has gone to the first free place of a table, and at no other place anything has changed. The
table has got a page if it had no free place. -/
structure Puts (ref : TableRef) (values : List Value) (s s' : Store) : Prop where
  stored : ∀ p, s'.stored p = if p = s.vacant ref then some values else s.stored p
  pages : ∀ k, (s'.catalog.table k).pages =
    (s.catalog.table k).pages + if k = ref ∧ s.free? ref = none then 1 else 0

theorem puts_of_ended (h : s.Coherent) {i : TableId} {row : Row} {out : Plain.Outcome}
    (ended : Plain.insertRow tx i row s.view = .ok out t.view) (upkeep : s.Upkeep tx t)
    (applied : Applied tx out.change t s') (typed : row.Typed) : ∃ ref bytes,
      s.catalog.ref i = .ok ref ∧ out.answer = .stored (.ofSlot (s.vacant ref).page (s.vacant ref).slot) ∧
      (s.vacant ref).slot < (s.catalog.table ref).layout.slots ∧
      out.change = some ((s.vacant ref).page, bytes) ∧ s.Puts ref row.values s' := by
  obtain ⟨ref, ⟨⟨page, slot⟩, bytes⟩, known, agrees, slots, placed, rfl⟩ := Plain.insertRow_ok ended
  have pageSize := Table.pageSize_pos_of_slots slots
  obtain ⟨n, inside, passed, ⟨rfl, room, -⟩, pages⟩ :=
    Plain.insertAnywhere_first h.guarded.keyed known pageSize placed
  obtain ⟨-, rfl⟩ := h.guarded.keyed _ _ known
  have types := typed.trans (Table.agrees_of_checkSchema agrees)
  obtain ⟨k, free, rfl, sets⟩ := Table.valuesAt_insert? types room
  obtain ⟨first, last⟩ :=
    vacant_eq h known inside (fun m below => (passed m (Nat.zero_le m) below).1) free
  refine ⟨ref, bytes, known, by rw [first]; rfl, by rw [first]; exact Layout.lt_of_firstFree? free,
    by rw [first]; rfl, fun p => ?_, fun k => ?_⟩
  · have stored := Rewritten.stored applied ((upkeep.catalog.ref _).trans known) k (some row.values)
      (fun j => by
        rw [upkeep.total h, upkeep.catalog.table ref]
        exact sets _ j) p
    rw [first, stored, stored_congr upkeep.catalog (upkeep.total h p.page)]
    rfl
  · have catalog : s'.catalog = t.view.catalog := applied.catalog
    rw [catalog, pages k]
    simp only [last]
    rfl

theorem removed_of_ended (h : s.Coherent) {record : RecordId} {out : Plain.Outcome}
    (ended : Plain.deleteRow tx (some record) s.view = .ok out t.view) (upkeep : s.Upkeep tx t)
    (applied : Applied tx out.change t s') : (s.stored record).isSome = true ∧
      (∀ p, s'.stored p = if p = record then none else s.stored p) ∧ s'.catalog = s.catalog := by
  have moves : Plain.Moves tx (some 0) s.view t.view :=
    (Plain.moving_deleteRow tx (some record) s.view).of_ok ended
  obtain ⟨ref, bytes, known, -, got, gone, rfl⟩ := Plain.deleteRow_eq_ok_iff.mp ended
  obtain ⟨-, has, -⟩ := Plain.getPage_eq_ok_iff.mp got
  rw [← Plain.total_of_has has] at gone
  obtain ⟨there, sets⟩ := Table.valuesAt_remove? gone
  have table := upkeep.catalog.table ref
  have still := applied.catalog.trans (moves.still (by simp))
  refine ⟨by rw [stored_of_ref known]; exact there _, fun p => ?_, still⟩
  have stored := Rewritten.stored applied ((upkeep.catalog.ref _).trans known) record.slot none
    (fun j => by
      rw [upkeep.total h, table]
      exact sets _ j) p
  rw [stored, stored_congr upkeep.catalog (upkeep.total h p.page)]

/-- A transaction that ends with what it has done leaves all pages as they are. -/
theorem Completed.unchanged (h : s.Completed tx s.content s') :
    s'.catalog = s.catalog ∧ s'.total = s.total := by
  have catalog : s'.catalog = s.catalog := by rw [h.rest]
  refine ⟨catalog, funext fun id => total_of_same catalog ?_⟩
  by_cases owned : s.owner id = some tx
  · exact (h.landed id owned).2.1
  · exact (h.others id owned).2.1

end Store

namespace Session
open Store

variable {M P S : Session} {es past : List Event} {e : Event} {reply : Reply} {s : Store}
  {tx u : TxId} {settings : Settings} {disk : Disk} {ref : TableRef} {i : TableId} {row : Row}
  {record : RecordId} {a : Answer} {k r : Nat} {rows left : List Row}

/-- A row is stored at the first free place of its table, and at no other place anything changes. The
table gets a page if it has no free place. The record id tells the place as far as it can. -/
theorem place_of_insert (h : S.store.Coherent)
    (told : S.outcome? (.op tx (.insert i row)) = some (.ok (.stored record), s)) (typed : row.Typed) :
    ∃ ref, S.store.catalog.ref i = .ok ref ∧
    record = .ofSlot (S.store.vacant ref).page (S.store.vacant ref).slot ∧
    (S.store.vacant ref).slot < (S.store.catalog.table ref).layout.slots ∧
    (∀ p, s.stored p = if p = S.store.vacant ref then some row.values else S.store.stored p) ∧
    ∀ k, (s.catalog.table k).pages =
      (S.store.catalog.table k).pages + if k = ref ∧ S.store.free? ref = none then 1 else 0 := by
  obtain ⟨c, y, -, plain, taken⟩ := op_taken h told
  cases plain
  generalize same : Except.ok (Answer.stored record) = reply at taken
  cases taken with
  | stuck f s iterates => cases iterates
  | refused f s ended upkeep => cases same
  | answered out t s ended upkeep applied =>
    obtain ⟨ref, bytes, known, answer, below, -, placed⟩ := puts_of_ended h ended upkeep applied typed
    rw [answer] at same
    cases same
    exact ⟨ref, known, rfl, below, placed.stored, placed.pages⟩

/-- If the slots of a page are few enough to be told apart, the record id is the place. -/
theorem stored_of_insert (h : S.store.Coherent)
    (told : S.outcome? (.op tx (.insert i row)) = some (.ok (.stored record), s)) (typed : row.Typed)
    (few : ∀ ref, S.store.catalog.ref i = .ok ref →
      (S.store.catalog.table ref).layout.slots ≤ UInt16.size) : ∃ ref,
    S.store.catalog.ref i = .ok ref ∧ record = S.store.vacant ref ∧
    (∀ p, s.stored p = if p = record then some row.values else S.store.stored p) ∧
    ∀ k, (s.catalog.table k).pages =
      (S.store.catalog.table k).pages + if k = ref ∧ S.store.free? ref = none then 1 else 0 := by
  obtain ⟨ref, known, names, below, stored, pages⟩ := place_of_insert h told typed
  have short := Nat.mod_eq_of_lt (Nat.lt_of_lt_of_le below (few ref known))
  rw [RecordId.ofSlot, short] at names
  exact ⟨ref, known, names, names ▸ stored, pages⟩

theorem stored_of_delete (h : S.store.Coherent)
    (told : S.outcome? (.op tx (.delete (some record))) = some (.ok a, s)) :
    (S.store.stored record).isSome = true ∧
    (∀ p, s.stored p = if p = record then none else S.store.stored p) ∧
    s.catalog = S.store.catalog := by
  obtain ⟨c, y, -, plain, taken⟩ := op_taken h told
  cases plain
  cases taken with
  | answered out t s ended upkeep applied => exact removed_of_ended h ended upkeep applied

/-! What is stored from step to step -/

theorem total_of_commit (h : S.store.Coherent) (told : S.outcome? (.commit tx) = some (reply, s)) :
    s.catalog = S.store.catalog ∧ s.total = S.store.total := by
  obtain ⟨x, found, settled⟩ := Option.bind_eq_some_iff.mp told
  obtain ⟨-, rfl⟩ := action?_commit_eq_some_iff.mp found
  obtain ⟨answer, rfl, -, completed⟩ := settle_done (commit_completes h tx) settled
  exact completed.unchanged

theorem Steady.grown (h : Steady settings S) (told : S.outcome? e = some (reply, s))
    (keeps : e.keeps = true) : S.store.catalog.Grown s.catalog := by
  refine (h.impact told).grown.resolve_right ?_
  rintro ⟨new, rfl, -⟩
  cases keeps

/-- Unless a row is stored or removed, all pages hold what they held. -/
theorem Steady.keeps (h : Steady settings S) (told : S.outcome? e = some (reply, s))
    (keeps : e.keeps = true) (idle : changeOf (e, reply) = none) : s.total = S.store.total := by
  cases h.impact told with
  | begun first store =>
    subst store
    rfl
  | looked u o own upkeep _ => exact funext (upkeep.total h.coherent)
  | changed u o id bytes t own running alters upkeep rewritten change =>
    rw [idle] at change
    cases change
  | completed u b ends holds completed =>
    cases e <;> cases ends <;> cases keeps
    exact (total_of_commit h.coherent told).2
  | landed p b flushes landed holds =>
    refine funext fun id => landed.total fun taken => holds id ?_ taken
    rintro rfl
    cases keeps
  | opened new adds opened =>
    subst adds
    cases keeps

theorem Event.keeps_of_looks (looks : e.looks = true) : e.keeps = true := by
  cases e <;> first | rfl | exact looks

theorem idle_of_looks (looks : e.looks = true) : changeOf (e, reply) = none := by
  cases change : changeOf (e, reply) with
  | none => rfl
  | some page =>
    obtain ⟨o, rfl, alters⟩ := alters_of_changeOf change
    simp [Event.looks, alters] at looks

/-- While nobody stores or removes rows, the tables stay as they are. -/
theorem Steady.looks (h : Steady settings S) (told : S.outcome? e = some (reply, s))
    (looks : e.looks = true) : s.catalog = S.store.catalog ∧ s.total = S.store.total := by
  refine ⟨?_, h.keeps told (Event.keeps_of_looks looks) (idle_of_looks looks)⟩
  cases h.impact told with
  | begun first store => rw [store]
  | looked u o own upkeep _ =>
    subst own
    exact catalog_of_looking h.guarded told (by simpa [Event.looks] using looks)
  | changed u o id bytes t own running alters upkeep rewritten change =>
    rw [idle_of_looks looks] at change
    cases change
  | completed u b ends holds completed => rw [completed.rest]
  | landed p b flushes landed holds => rw [landed.rest]
  | opened new adds opened =>
    subst adds
    cases looks

/-- What is stored after a step, by what the step was told. -/
def storedAfter (stored : RecordId → Option (List Value)) :
    Event × Reply → RecordId → Option (List Value)
  | (.op _ (.insert _ row), .ok (.stored record)) =>
    fun p => if p = record then some row.values else stored p
  | (.op _ (.delete (some record)), .ok _) => fun p => if p = record then none else stored p
  | _ => stored

/-- A step stores and removes what it says it does. -/
theorem Steady.stored (h : Steady settings S) (told : S.outcome? e = some (reply, s))
    (keeps : e.keeps = true) (typed : ∀ tx i row, e = .op tx (.insert i row) → row.Typed)
    (few : ∀ ref, (S.store.catalog.table ref).layout.slots ≤ UInt16.size) :
    s.stored = storedAfter S.store.stored (e, reply) := by
  unfold storedAfter
  split
  · rename_i tx i row record same
    cases same
    obtain ⟨ref, -, -, stored, -⟩ :=
      stored_of_insert h.coherent told (typed _ _ _ rfl) fun ref _ => few ref
    exact funext stored
  · rename_i tx record a same
    cases same
    exact funext (stored_of_delete h.coherent told).2.1
  · rename_i stores removes
    have idle : changeOf (e, reply) = none := by
      unfold changeOf
      split
      · rename_i same
        exact absurd same (stores _ _ _ _)
      · rename_i same
        exact absurd same (removes _ _ _)
      · rfl
    exact funext fun p => stored_congr (h.grown told keeps) (congrFun (h.keeps told keeps idle) _)

/-- What is stored in the end is what was stored in the beginning, but for the rows that were said to be
stored and removed on the way. -/
theorem Steady.stored_run (h : Steady settings M) (ran : M.run es = some S)
    (keeps : ∀ e ∈ es, e.keeps = true) (typed : ∀ tx i row, .op tx (.insert i row) ∈ es → row.Typed)
    (few : ∀ ref, (M.store.catalog.table ref).layout.slots ≤ UInt16.size) :
    S.store.stored = ((M.trace es).map Prod.snd).foldl storedAfter M.store.stored := by
  induction es generalizing M with
  | nil =>
    cases ran
    rfl
  | cons e es ih =>
    rw [run_cons, Option.bind_eq_some_iff] at ran
    obtain ⟨T, stepped, ran⟩ := ran
    obtain ⟨reply, s, told, rfl⟩ := outcome?_of_step stepped
    have first := keeps e (List.mem_cons_self ..)
    have stored := h.stored told first
      (fun tx i row here => typed tx i row (here ▸ List.mem_cons_self ..)) few
    have adds : ¬∃ t, e = .addTable t := by
      rintro ⟨t, rfl⟩
      cases first
    have later := h.step told fun added => absurd added adds
    rw [trace_cons told, List.map_cons, List.foldl_cons, ← stored]
    refine ih later ran (fun e listed => keeps e (List.mem_cons_of_mem _ listed))
      (fun tx i row listed => typed tx i row (List.mem_cons_of_mem _ listed)) fun ref => ?_
    change ((s.catalog.table ref).layout).slots ≤ UInt16.size
    rw [(h.grown told first).table ref]
    exact few ref

end Session
end HeapStore
