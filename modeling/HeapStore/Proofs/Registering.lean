import HeapStore.Proofs.Opening

/-! Tables by id and by name. As long as the count of ids has not come to its end, an id that is taken is a
new one, so no table takes the place of another unless it is added under that very id. A name leads to the
id that it was last given to, and an id to the name that it was last given. -/
namespace HeapStore

namespace Catalog

variable {c c' : Catalog} {id : TableId} {t : Table} {name key : String}

/-- What an id leads to is what it led to before. -/
structure SameAt (c c' : Catalog) (id : TableId) : Prop where
  byId : c'.byId id = c.byId id
  name : c'.name id = c.name id
  primaryKey : c'.primaryKey id = c.primaryKey id

theorem SameAt.refl (c : Catalog) (id : TableId) : c.SameAt c id := ⟨rfl, rfl, rfl⟩

theorem SameAt.trans {c'' : Catalog} (h : c.SameAt c' id) (h' : c'.SameAt c'' id) : c.SameAt c'' id :=
  ⟨h'.byId.trans h.byId, h'.name.trans h.name, h'.primaryKey.trans h.primaryKey⟩

theorem SameAt.allocate (c : Catalog) (id : TableId) : c.SameAt c.allocate.2 id := ⟨rfl, rfl, rfl⟩

theorem entry_add (c : Catalog) (t : Table) (name key : String) (id : TableId) :
    (c.add t name key).entry id =
      if id = t.id then .ok ⟨c.opened.size, name, key⟩ else c.entry id := by
  simp only [entry, add, Assoc.get?_insert]
  by_cases mine : id = t.id
  · simp only [if_pos mine]
  · simp only [if_neg mine]

theorem id?_add (c : Catalog) (t : Table) (name key other : String) :
    (c.add t name key).id? other = if other = name then some t.id else c.id? other :=
  Assoc.get?_insert _ _ _ _

theorem byId_add (keyed : c.Keyed) (t : Table) (name key : String) (id : TableId) :
    (c.add t name key).byId id = if id = t.id then .ok t else c.byId id := by
  unfold byId
  rw [ref_add]
  split
  · exact congrArg Except.ok ((table_add _ _ _ _ _).trans (if_pos rfl))
  · cases known : c.ref id with
    | error cause => rfl
    | ok ref =>
      exact congrArg Except.ok
        ((table_add _ _ _ _ _).trans (if_neg (Nat.ne_of_lt (keyed id ref known).1)))

theorem sameAt_add (keyed : c.Keyed) (t : Table) (name key : String) (other : id ≠ t.id) :
    c.SameAt (c.add t name key) id where
  byId := by rw [byId_add keyed, if_neg other]
  name := by rw [Catalog.name, entry_add, if_neg other, Catalog.name]
  primaryKey := by rw [Catalog.primaryKey, entry_add, if_neg other, Catalog.primaryKey]

/-- The table is found by its id, its name and its key. -/
structure Shows (c : Catalog) (t : Table) (title key : String) : Prop where
  byId : c.byId t.id = .ok t
  name : c.name t.id = .ok title
  primaryKey : c.primaryKey t.id = .ok key
  id? : c.id? title = some t.id

theorem shows_add (keyed : c.Keyed) (t : Table) (name key : String) :
    (c.add t name key).Shows t name key where
  byId := by rw [byId_add keyed, if_pos rfl]
  name := by
    rw [Catalog.name, entry_add, if_pos rfl]
    rfl
  primaryKey := by
    rw [Catalog.primaryKey, entry_add, if_pos rfl]
    rfl
  id? := by rw [id?_add, if_pos rfl]

/-- The ids of tables have been counted, but for those behind which the count starts over. -/
structure Counted (c : Catalog) : Prop where
  keyed : c.Keyed
  below : ∀ id ref, c.ref id = .ok ref → id < c.nextId ∨ UInt32.size ≤ id + 1

theorem counted_empty : Counted {} := by
  refine ⟨keyed_empty, fun id ref known => ?_⟩
  cases known

theorem nextId_allocate (room : c.nextId + 1 < UInt32.size) : c.allocate.2.nextId = c.nextId + 1 :=
  Nat.mod_eq_of_lt room

theorem Counted.allocate (h : c.Counted) (room : c.nextId + 1 < UInt32.size) : c.allocate.2.Counted := by
  refine ⟨h.keyed, fun id ref known => ?_⟩
  rw [nextId_allocate room]
  exact (h.below id ref known).imp_left Nat.lt_succ_of_lt

theorem nextId_le_add (c : Catalog) (t : Table) (name key : String) :
    c.nextId ≤ (c.add t name key).nextId := Nat.le_max_left _ _

theorem Counted.add (h : c.Counted) (t : Table) (name key : String) : (c.add t name key).Counted := by
  refine ⟨h.keyed.add t name key, fun id ref known => ?_⟩
  rw [ref_add] at known
  split at known
  · rename_i mine
    rcases Nat.lt_or_ge (t.id + 1) UInt32.size with room | last
    · left
      calc id < t.id + 1 := mine ▸ Nat.lt_succ_self t.id
        _ = idAfter t.id := (Nat.mod_eq_of_lt room).symm
        _ ≤ (c.add t name key).nextId := Nat.le_max_right _ _
    · -- behind this id the count starts over, so it is not raised
      exact Or.inr (mine ▸ last)
  · exact (h.below id ref known).imp_left fun before =>
      Nat.lt_of_lt_of_le before (nextId_le_add c t name key)

theorem Counted.byId_nextId (h : c.Counted) (room : c.nextId + 1 < UInt32.size) :
    c.byId c.nextId = .error (.unknownTable c.nextId) := by
  cases found : c.byId c.nextId with
  | error cause => rw [eq_unknownTable_of_byId found]
  | ok t =>
    obtain ⟨ref, known, -⟩ := byId_eq_ok_iff.mp found
    rcases h.below c.nextId ref known with before | last
    · exact absurd before (Nat.lt_irrefl _)
    · exact absurd room (Nat.not_lt.mpr last)

/-- A name that a table was given, by the id of the table. -/
structure Naming where
  id : TableId
  name : String
  deriving DecidableEq

/-- A name leads to the id that it was last given to, and an id to the name that it was last given. The log
has the last ones first. -/
structure Tracks (c : Catalog) (log : List Naming) : Prop where
  keyed : c.Keyed
  id? : ∀ title, c.id? title = (log.find? (·.name = title)).map Naming.id
  name : ∀ id, (c.name id).toOption = (log.find? (·.id = id)).map Naming.name

variable {log : List Naming}

theorem tracks_empty : Tracks {} [] := ⟨keyed_empty, fun _ => rfl, fun _ => rfl⟩

theorem Tracks.allocate (h : c.Tracks log) : c.allocate.2.Tracks log := ⟨h.keyed, h.id?, h.name⟩

theorem Tracks.add (h : c.Tracks log) (t : Table) (title key : String) :
    (c.add t title key).Tracks (⟨t.id, title⟩ :: log) := by
  refine ⟨h.keyed.add t title key, fun other => ?_, fun id => ?_⟩
  · rw [id?_add, List.find?_cons]
    by_cases same : title = other
    · simp only [same, decide_true, if_true, Option.map_some]
    · simp only [same, decide_false, Ne.symm same, if_false, h.id?]
  · rw [Catalog.name, entry_add, List.find?_cons]
    by_cases same : t.id = id
    · simp only [same, decide_true, if_true, Option.map_some]
      rfl
    · simp only [same, decide_false, Ne.symm same, if_false, ← h.name]
      rfl

theorem exists_byId_iff : (∃ t, c.byId id = .ok t) ↔ ∃ title, c.name id = .ok title := by
  unfold byId ref Catalog.name
  cases c.entry id with
  | error cause => constructor <;> exact nofun
  | ok e => exact ⟨fun _ => ⟨_, rfl⟩, fun _ => ⟨_, rfl⟩⟩

/-- The last name of a table is the one that was given to it at some time, unless it was given another later. -/
theorem exists_last (later before : List Naming) (n : Naming) (others : ∀ m ∈ later, m.name ≠ n.name) :
    ∃ title, (later ++ n :: before).find? (·.id = n.id) = some ⟨n.id, title⟩ ∧
      (title = n.name ↔ ∀ m ∈ later, m.id ≠ n.id) := by
  have mine : decide (n.id = n.id) = true := decide_eq_true rfl
  rw [List.find?_append, List.find?_cons_of_pos (p := fun m : Naming => m.id = n.id) mine]
  cases found : later.find? (·.id = n.id) with
  | none =>
    refine ⟨n.name, rfl, iff_of_true rfl fun m mem same => ?_⟩
    exact List.find?_eq_none.mp found m mem (decide_eq_true same)
  | some m =>
    have mem := List.mem_of_find?_eq_some found
    have same : m.id = n.id := by simpa using List.find?_some found
    refine ⟨m.name, by rw [← same, Option.some_or], iff_of_false (others m mem) fun apart => ?_⟩
    exact apart m mem same

/-- A name that leads to an id is the name of that table, unless the table was given another one since. -/
theorem Tracks.of_id? (h : c.Tracks log) (found : c.id? name = some id) :
    ∃ later before title table, log = later ++ ⟨id, name⟩ :: before ∧ (∀ n ∈ later, n.name ≠ name) ∧
      c.byId id = .ok table ∧ table.id = id ∧ c.name id = .ok title ∧
      log.find? (·.id = id) = some ⟨id, title⟩ ∧ (title = name ↔ ∀ n ∈ later, n.id ≠ id) := by
  rw [h.id?, Option.map_eq_some_iff] at found
  obtain ⟨given, first, mine⟩ := found
  obtain ⟨same, later, before, rfl, passed⟩ := List.find?_eq_some_iff_append.mp first
  obtain rfl : given = ⟨id, name⟩ := by
    rw [← mine, ← of_decide_eq_true same]
  have others : ∀ n ∈ later, n.name ≠ name := fun n mem => by simpa using passed n mem
  obtain ⟨title, last, back⟩ := exists_last later before ⟨id, name⟩ others
  have named : c.name id = .ok title := of_toOption (by rw [h.name, last, Option.map_some])
  obtain ⟨table, known⟩ := exists_byId_iff.mpr ⟨_, named⟩
  obtain ⟨ref, registered, here⟩ := byId_eq_ok_iff.mp known
  exact ⟨later, before, title, table, rfl, others, known, here ▸ (h.keyed id ref registered).2, named, last,
    back⟩

/-- What leads from ids to tables leads to their names, too. -/
theorem Tracks.of_byId (h : c.Tracks log) (found : c.byId id = .ok t) :
    ∃ title, c.name id = .ok title ∧ (c.id? title).isSome = true := by
  obtain ⟨title, named⟩ := exists_byId_iff.mp ⟨t, found⟩
  have last := h.name id
  rw [named] at last
  obtain ⟨n, there, same⟩ := Option.map_eq_some_iff.mp last.symm
  refine ⟨title, named, ?_⟩
  rw [h.id?, Option.isSome_map, List.find?_isSome]
  exact ⟨n, List.mem_of_find?_eq_some there, decide_eq_true same⟩

end Catalog

/-- What can be done about the tables of a store. Its files come and go from outside. -/
inductive TableCall where
  | allocate
  | add (t : Table) (name primaryKey : String)
  | create (path name : String) (schema : Schema) (primaryKey : String)
  | load (path name : String) (schema : Schema) (primaryKey : String)
  | replaceFiles (disk : Disk)

namespace TableCall
open Store

variable {s t : Store} {c : TableCall}

def perform : TableCall → Action (Option TableId)
  | allocate => do return some (← allocateId)
  | add t name primaryKey => do
    register t name primaryKey
    return none
  | create path name schema primaryKey => do return some (← createTable path name schema primaryKey)
  | load path name schema primaryKey => do return some (← openTable path name schema primaryKey)
  | replaceFiles disk => do
    modify fun s => { s with disk }
    return none

/-- Whether it is a call for a table under an id of the store's choice. -/
def opens : TableCall → Bool
  | create .. | load .. => true
  | allocate | add .. | replaceFiles _ => false

/-- Whether an id is used up. -/
def takes : TableCall → Bool
  | allocate | create .. | load .. => true
  | add .. | replaceFiles _ => false

/-- The id under which a caller adds a table. -/
def adds? : TableCall → Option TableId
  | add t _ _ => some t.id
  | allocate | create .. | load .. | replaceFiles _ => none

theorem takes_of_opens (opens : c.opens = true) : c.takes = true := by
  cases c with
  | create | load => rfl
  | allocate | add | replaceFiles => cases opens

theorem adds?_of_opens (opens : c.opens = true) : c.adds? = none := by
  cases c with
  | create | load => rfl
  | allocate | add | replaceFiles => cases opens

/-- The id that the call answers with, if it does. -/
def answer? (c : TableCall) (s : Store) : Option TableId :=
  match c.perform s with
  | .ok id? _ => id?
  | .error _ _ => none

/-- What the call leaves behind, also if it fails. -/
def next (c : TableCall) (s : Store) : Store :=
  match c.perform s with
  | .ok _ t => t
  | .error _ t => t

/-- The table is made or found by the path and registered. -/
inductive Registers (s : Store) (id : TableId) : TableCall → Table → String → String → Disk → Prop where
  | created {path name key : String} {schema : Schema} {file : String} {disk : Disk}
      (made : s.disk.create path = .ok (file, disk)) : Registers s id (.create path name schema key)
        ⟨id, file, schema, s.settings.pageSize, 0⟩ name key disk
  | loaded {path name key : String} {schema : Schema} {file : String} {f : File}
      (found : s.disk.find path = .ok (file, f)) : Registers s id (.load path name schema key)
        ⟨id, file, schema, s.settings.pageSize, f.length⟩ name key s.disk

theorem Registers.id {id : TableId} {table : Table} {name key : String} {disk : Disk}
    (h : Registers s id c table name key disk) : table.id = id := by
  cases h <;> rfl

/-- How calls end. -/
inductive Outcome (s : Store) : TableCall → Except Stop (Option TableId) → Store → Prop where
  | allocated : Outcome s .allocate (.ok (some s.catalog.nextId))
      { s with catalog := s.catalog.allocate.2 }
  | added (t : Table) (name key : String) : Outcome s (.add t name key) (.ok none)
      { s with catalog := s.catalog.add t name key }
  | opened {c : TableCall} {table : Table} {name key : String} {disk : Disk} (opens : c.opens = true)
      (registers : Registers s s.catalog.nextId c table name key disk) :
      Outcome s c (.ok (some s.catalog.nextId))
        { s with disk, catalog := s.catalog.allocate.2.add table name key }
  | failed {c : TableCall} (opens : c.opens = true) (e : Stop) :
      Outcome s c (.error e) { s with catalog := s.catalog.allocate.2 }
  | replaced (disk : Disk) : Outcome s (.replaceFiles disk) (.ok none) { s with disk }

theorem perform_ends (c : TableCall) (s : Store) : c.perform.Ends s (Outcome s c) := by
  cases c with
  | allocate => exact .allocated
  | add t name key => exact .added t name key
  | create path name schema key =>
    have opens : (create path name schema key).opens = true := rfl
    simp only [perform, createTable, allocateId, createWithId, Table.create, bind_assoc, pure_bind,
      Action.ends_bind, Action.ends_modifyGet, Action.andThen, Action.ends_get, Action.ends_within]
    -- the id is taken before the file is made, so it is used up in both cases
    cases made : s.disk.create path with
    | error e => exact .failed opens _
    | ok made' => exact .opened opens (.created made)
  | load path name schema key =>
    have opens : (load path name schema key).opens = true := rfl
    simp only [perform, openTable, allocateId, openWithId, Table.load, bind_assoc, pure_bind,
      Action.ends_bind, Action.ends_modifyGet, Action.andThen, Action.ends_get, Action.ends_within]
    cases found : s.disk.find path with
    | error e => exact .failed opens _
    | ok found' => exact .opened opens (.loaded found)
  | replaceFiles disk => exact .replaced disk

theorem outcome_of_ok {id? : Option TableId} (performed : c.perform s = .ok id? t) :
    Outcome s c (.ok id?) t := by
  have ends := perform_ends c s
  rwa [Action.Ends, performed] at ends

theorem outcome_of_error {e : Stop} (performed : c.perform s = .error e t) :
    Outcome s c (.error e) t := by
  have ends := perform_ends c s
  rwa [Action.Ends, performed] at ends

theorem next_of_ok {id? : Option TableId} (performed : c.perform s = .ok id? t) : c.next s = t := by
  rw [next, performed]

theorem exists_outcome (c : TableCall) (s : Store) :
    ∃ r t, c.next s = t ∧ c.answer? s = r.toOption.join ∧ Outcome s c r t := by
  unfold next answer?
  cases performed : c.perform s with
  | ok id? t => exact ⟨_, _, rfl, rfl, outcome_of_ok performed⟩
  | error e t => exact ⟨_, _, rfl, rfl, outcome_of_error performed⟩

theorem counted_next (counted : s.catalog.Counted)
    (room : c.takes → s.catalog.nextId + 1 < UInt32.size) : (c.next s).catalog.Counted := by
  obtain ⟨r, t, next, -, outcome⟩ := exists_outcome c s
  rw [next]
  cases outcome with
  | allocated => exact counted.allocate (room rfl)
  | added table name key => exact counted.add table name key
  | opened opens registers => exact (counted.allocate (room (takes_of_opens opens))).add _ _ _
  | failed opens e => exact counted.allocate (room (takes_of_opens opens))
  | replaced disk => exact counted

theorem nextId_le_next (room : c.takes → s.catalog.nextId + 1 < UInt32.size) :
    s.catalog.nextId ≤ (c.next s).catalog.nextId := by
  obtain ⟨r, t, next, -, outcome⟩ := exists_outcome c s
  rw [next]
  have taken : c.takes → s.catalog.nextId ≤ s.catalog.allocate.2.nextId := fun takes =>
    Catalog.nextId_allocate (room takes) ▸ Nat.le_succ _
  cases outcome with
  | allocated => exact taken rfl
  | added table name key => exact Catalog.nextId_le_add _ table name key
  | opened opens registers =>
    exact Nat.le_trans (taken (takes_of_opens opens)) (Catalog.nextId_le_add _ _ _ _)
  | failed opens e => exact taken (takes_of_opens opens)
  | replaced disk => exact Nat.le_refl _

/-- An id that a call answers with is the next one, and it is counted from then on. -/
theorem answered (room : c.takes → s.catalog.nextId + 1 < UInt32.size) {id : TableId}
    (answer : c.answer? s = some id) :
    c.takes ∧ id = s.catalog.nextId ∧ id < (c.next s).catalog.nextId := by
  obtain ⟨r, t, next, same, outcome⟩ := exists_outcome c s
  rw [answer] at same
  rw [next]
  have taken : c.takes → s.catalog.nextId < s.catalog.allocate.2.nextId := fun takes =>
    Catalog.nextId_allocate (room takes) ▸ Nat.lt_succ_self _
  cases outcome with
  | allocated =>
    cases same
    exact ⟨rfl, rfl, taken rfl⟩
  | added table name key => cases same
  | opened opens registers =>
    cases same
    have takes := takes_of_opens opens
    exact ⟨takes, rfl, Nat.lt_of_lt_of_le (taken takes) (Catalog.nextId_le_add _ _ _ _)⟩
  | failed opens e => cases same
  | replaced disk => cases same

/-- A call leaves a table where it is, unless it adds another under its id. -/
theorem sameAt_next (counted : s.catalog.Counted)
    (room : c.takes → s.catalog.nextId + 1 < UInt32.size) {id : TableId} {table : Table}
    (found : s.catalog.byId id = .ok table) (other : c.adds? ≠ some id) :
    s.catalog.SameAt (c.next s).catalog id := by
  obtain ⟨r, t, next, -, outcome⟩ := exists_outcome c s
  rw [next]
  cases outcome with
  | allocated => exact .allocate _ _
  | added table name key =>
    exact Catalog.sameAt_add counted.keyed table name key fun same => other (congrArg some same.symm)
  | opened opens registers =>
    refine .trans (.allocate _ _) (Catalog.sameAt_add (c := s.catalog.allocate.2) counted.keyed _ _ _ ?_)
    rw [registers.id]
    rintro rfl
    rw [counted.byId_nextId (room (takes_of_opens opens))] at found
    cases found
  | failed opens e => exact .allocate _ _
  | replaced disk => exact .refl _ _

/-- The store after the calls. -/
def after (s : Store) : List TableCall → Store
  | [] => s
  | c :: cs => after (c.next s) cs

/-- The ids that the calls answer with. -/
def given (s : Store) : List TableCall → List TableId
  | [] => []
  | c :: cs => (c.answer? s).toList ++ given (c.next s) cs

/-- The count of ids does not come to its end. -/
def Clear (s : Store) : List TableCall → Prop
  | [] => True
  | c :: cs => (c.takes → s.catalog.nextId + 1 < UInt32.size) ∧ Clear (c.next s) cs

instance : (s : Store) → (cs : List TableCall) → Decidable (Clear s cs)
  | _, [] => .isTrue trivial
  | s, c :: cs =>
    have : Decidable (Clear (c.next s) cs) := instDecidableClear _ cs
    inferInstanceAs (Decidable (_ ∧ _))

theorem clear_append (s : Store) (cs ds : List TableCall) :
    Clear s (cs ++ ds) ↔ Clear s cs ∧ Clear (after s cs) ds := by
  induction cs generalizing s with
  | nil => exact (iff_of_eq (true_and _)).symm
  | cons c cs ih => exact (and_congr_right fun _ => ih _).trans and_assoc.symm

theorem counted_after {cs : List TableCall} (counted : s.catalog.Counted) (clear : Clear s cs) :
    (after s cs).catalog.Counted := by
  induction cs generalizing s with
  | nil => exact counted
  | cons c cs ih => exact ih (counted_next counted clear.1) clear.2

theorem nextId_le_after {cs : List TableCall} (clear : Clear s cs) :
    s.catalog.nextId ≤ (after s cs).catalog.nextId := by
  induction cs generalizing s with
  | nil => exact Nat.le_refl _
  | cons c cs ih => exact Nat.le_trans (nextId_le_next clear.1) (ih clear.2)

theorem given_lt {cs : List TableCall} (clear : Clear s cs) {id : TableId} (mem : id ∈ given s cs) :
    id < (after s cs).catalog.nextId := by
  induction cs generalizing s with
  | nil => cases mem
  | cons c cs ih =>
    rcases List.mem_append.mp mem with here | later
    · obtain ⟨-, -, below⟩ := answered clear.1 (Option.mem_toList.mp here)
      exact Nat.lt_of_lt_of_le below (nextId_le_after clear.2)
    · exact ih clear.2 later

theorem sameAt_after {cs : List TableCall} (counted : s.catalog.Counted) (clear : Clear s cs)
    {id : TableId} {table : Table} (found : s.catalog.byId id = .ok table)
    (others : ∀ c ∈ cs, c.adds? ≠ some id) : s.catalog.SameAt (after s cs).catalog id := by
  induction cs generalizing s with
  | nil => exact .refl _ _
  | cons c cs ih =>
    have first := sameAt_next counted clear.1 found (others c List.mem_cons_self)
    exact first.trans (ih (counted_next counted clear.1) clear.2 (first.byId.trans found)
      fun d mem => others d (List.mem_cons_of_mem c mem))

/-- An id that is answered was not answered before and is no table's. So a table under an id of the store's
choice takes the place of no other, and it keeps its own until one is added under that very id. A call for
such a table that fails leaves everything as it is, but for the id that it used up. -/
theorem fresh_ids_never_collide (settings : Settings) (disk : Disk) (before : List TableCall) (c : TableCall)
    (later : List TableCall) (clear : Clear (Store.new settings disk) (before ++ c :: later)) :
    let s := after (Store.new settings disk) before
    (∀ id, c.answer? s = some id →
      id ∉ given (Store.new settings disk) before ∧ s.catalog.byId id = .error (.unknownTable id)) ∧
    (c.opens → (∀ id table, s.catalog.byId id = .ok table → s.catalog.SameAt (c.next s).catalog id) ∧
      (∀ id? t, c.perform s = .ok id? t → ∃ id table name key disk, id? = some id ∧
        Registers s id c table name key disk ∧ t.catalog.Shows table name key ∧
        ((∀ d ∈ later, d.adds? ≠ some id) → t.catalog.SameAt (after t later).catalog id)) ∧
      ∀ e t, c.perform s = .error e t →
        t = { s with catalog := { s.catalog with nextId := s.catalog.nextId + 1 } }) := by
  intro s
  obtain ⟨clearBefore, room, clearLater⟩ := (clear_append _ _ _).mp clear
  have counted : s.catalog.Counted := counted_after Catalog.counted_empty clearBefore
  refine ⟨fun id answer => ?_, fun opens => ⟨fun id table found => ?_, fun id? t performed => ?_,
    fun e t performed => ?_⟩⟩
  · obtain ⟨takes, rfl, -⟩ := answered room answer
    exact ⟨fun given => Nat.lt_irrefl _ (given_lt clearBefore given), counted.byId_nextId (room takes)⟩
  · exact sameAt_next counted room found (adds?_of_opens opens ▸ nofun)
  · have counted' : t.catalog.Counted := next_of_ok performed ▸ counted_next counted room
    rw [next_of_ok performed] at clearLater
    cases outcome_of_ok performed with
    | allocated => cases opens
    | added => cases opens
    | replaced => cases opens
    | @opened _ table name key disk _ registers =>
      have shows := Catalog.shows_add (c := s.catalog.allocate.2) counted.keyed table name key
      have found := shows.byId
      rw [registers.id] at found
      exact ⟨_, _, _, _, _, rfl, registers, shows, sameAt_after counted' clearLater found⟩
  · cases outcome_of_error performed with
    | failed =>
      rw [← Catalog.nextId_allocate (room (takes_of_opens opens))]
      rfl

/-- A table comes with an id of its own, and then a file is not there. -/
theorem fresh_ids_never_collide_past_ten :
    let start := Store.new { pageSize := 16, poolPages := 1 }
    let ten : Table := ⟨10, "ten.dat", ⟨[⟨.integer, some "n"⟩]⟩, 16, 0⟩
    let before := [.add ten "ten" "n", .load "gone.dat" "gone" ten.schema "n"]
    let c := create "new.dat" "ten" ten.schema "n"
    Clear start (before ++ c :: [.allocate]) ∧ c.answer? (after start before) = some 12 ∧
      12 ∉ given start before ∧ (after start before).catalog.byId 12 = .error (.unknownTable 12) ∧
      (after start before).catalog.SameAt (c.next (after start before)).catalog 10 := by
  intro start ten before c
  obtain ⟨clear, answer, found⟩ : Clear start (before ++ c :: [.allocate]) ∧
      c.answer? (after start before) = some 12 ∧
      ((after start before).catalog.byId 10).toOption = some ten := by
    decide +kernel
  obtain ⟨fresh, keeps⟩ := fresh_ids_never_collide _ _ before c [.allocate] clear
  exact ⟨clear, answer, (fresh 12 answer).1, (fresh 12 answer).2, (keeps rfl).1 10 ten (of_toOption found)⟩

/-- The name that the call gives, and the id of the table. -/
def naming? (c : TableCall) (s : Store) : Option Catalog.Naming :=
  match c with
  | add t name _ => some ⟨t.id, name⟩
  | create _ name _ _ | load _ name _ _ => (c.answer? s).map (⟨·, name⟩)
  | allocate | replaceFiles _ => none

/-- The names that the calls give, the last ones first and before those that were given already. -/
def namings (s : Store) (log : List Catalog.Naming) : List TableCall → List Catalog.Naming
  | [] => log
  | c :: cs => namings (c.next s) ((c.naming? s).toList ++ log) cs

theorem tracks_next {log : List Catalog.Naming} (h : s.catalog.Tracks log) (c : TableCall) :
    (c.next s).catalog.Tracks ((c.naming? s).toList ++ log) := by
  obtain ⟨r, t, next, answer, outcome⟩ := exists_outcome c s
  rw [next]
  cases outcome with
  | allocated => exact h.allocate
  | added table name key => exact h.add table name key
  | replaced disk => exact h
  | opened opens registers =>
    have answer : c.answer? s = some s.catalog.nextId := answer
    cases registers with
    | created | loaded =>
      rw [naming?, answer]
      exact h.allocate.add _ _ _
  | failed opens e =>
    have answer : c.answer? s = none := answer
    cases c with
    | create | load =>
      rw [naming?, answer]
      exact h.allocate
    | allocate | add | replaceFiles => cases opens

theorem tracks_after {log : List Catalog.Naming} (h : s.catalog.Tracks log) (cs : List TableCall) :
    (after s cs).catalog.Tracks (namings s log cs) := by
  induction cs generalizing s log with
  | nil => exact h
  | cons c cs ih => exact ih (tracks_next h c)

/-- A name leads to the table that it was last given to. It is the last name of the table, unless the table
was given another one since. Every table has a name that leads to some table. -/
theorem names_lead_where_last_given (settings : Settings) (disk : Disk) (cs : List TableCall) :
    let catalog := (after (Store.new settings disk) cs).catalog
    let log := namings (Store.new settings disk) [] cs
    (∀ name id, catalog.id? name = some id → ∃ later before title table,
      log = later ++ ⟨id, name⟩ :: before ∧ (∀ n ∈ later, n.name ≠ name) ∧
      catalog.byId id = .ok table ∧ table.id = id ∧ catalog.name id = .ok title ∧
      log.find? (·.id = id) = some ⟨id, title⟩ ∧ (title = name ↔ ∀ n ∈ later, n.id ≠ id)) ∧
    ∀ id table, catalog.byId id = .ok table →
      ∃ name, catalog.name id = .ok name ∧ (catalog.id? name).isSome = true := by
  have tracks := tracks_after (s := Store.new settings disk) Catalog.tracks_empty cs
  exact ⟨fun _ _ => tracks.of_id?, fun _ _ => tracks.of_byId⟩

/-- A table that was given another name is still found by the one that it had before. -/
theorem names_do_not_lead_back :
    let schema : Schema := ⟨[⟨.integer, some "n"⟩]⟩
    let calls := [add ⟨1, "odd.dat", schema, 16, 0⟩ "odd" "n", add ⟨1, "even.dat", schema, 16, 0⟩ "even" "n"]
    let catalog := (after (Store.new { pageSize := 16, poolPages := 1 }) calls).catalog
    ¬ ∀ name id, catalog.id? name = some id → catalog.name id = .ok name := by
  intro schema calls catalog back
  have found : catalog.id? "odd" = some 1 := by decide +kernel
  have named : (catalog.name 1).toOption = some "even" := by decide +kernel
  rw [back "odd" 1 found] at named
  revert named
  decide

end TableCall
end HeapStore
