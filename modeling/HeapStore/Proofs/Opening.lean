import HeapStore.Proofs.Isolation
import HeapStore.Proofs.Performing
import HeapStore.Proofs.Settling

/-! Tables that are opened while a session is under way. As long as no two of them share an id or a
file, files, tables and cached pages go together after every run. -/
namespace HeapStore

namespace Table

variable {d d' : Disk} {id : TableId} {path : String} {schema : Schema} {pageSize : Nat} {t : Table}

theorem create_eq_ok (created : create d id path schema pageSize = .ok (t, d')) :
    t = ⟨id, t.file, schema, pageSize, 0⟩ ∧ d.get? t.file = none ∧ d' = d.insert t.file {} ∧
      Disk.Nameable t.file := by
  unfold create at created
  cases made : d.create path with
  | error e =>
    rw [made] at created
    cases created
  | ok pair =>
    rw [made] at created
    cases created
    exact ⟨rfl, Disk.create_eq_ok made⟩

theorem load_eq_ok (loaded : load d id path schema pageSize = .ok t) :
    t = ⟨id, t.file, schema, pageSize, t.length⟩ ∧ t.Backed d ∧ Disk.Nameable t.file := by
  unfold load at loaded
  cases found : d.find path with
  | error e =>
    rw [found] at loaded
    cases loaded
  | ok pair =>
    rw [found] at loaded
    cases loaded
    obtain ⟨there, nameable⟩ := Disk.find_eq_ok found
    exact ⟨rfl, ⟨pair.2, there, rfl⟩, nameable⟩

theorem load_eq (backed : t.Backed d) (nameable : Disk.Nameable t.file) (id : TableId) :
    load d id t.file t.schema t.pageSize = .ok { t with id } := by
  obtain ⟨f, there, length⟩ := backed
  rw [load, Disk.find_of_nameable nameable there, ← length]
  rfl

end Table

namespace Store

variable {s s' : Store} {t : Table} {name key : String} {may : Prop}

theorem coherent_new (settings : Settings) (disk : Disk) : (Store.new settings disk).Coherent where
  guarded := guarded_new settings disk
  capacity := rfl
  apart _ _ _ _ known := by cases known
  backed _ _ known := by cases known
  named _ _ known := by cases known
  has _ _ cached := by simp [Store.new] at cached
  whole _ _ cached := by simp [Store.new] at cached
  clean _ _ cached := by simp [Store.new] at cached

/-- A table that is added has no id and no file of others. -/
theorem Coherent.fresh (h : s.Coherent) (distinct : (s.catalog.add t name key).Distinct) {id : TableId}
    {ref : TableRef} (known : s.catalog.ref id = .ok ref) :
    id ≠ t.id ∧ (s.catalog.table ref).file ≠ t.file := by
  obtain ⟨valid, same⟩ := h.guarded.keyed _ _ known
  have last : s.catalog.opened.size < (s.catalog.add t name key).opened.size := by
    simp [Catalog.add]
  have apart := distinct ref (Nat.lt_trans valid last) s.catalog.opened.size last
  rw [Catalog.table_add, Catalog.table_add, if_pos rfl, if_neg (Nat.ne_of_lt valid), same] at apart
  exact ⟨fun here => Nat.ne_of_lt valid (apart (Or.inl here)),
    fun here => Nat.ne_of_lt valid (apart (Or.inr here))⟩

theorem Coherent.register (h : s.Coherent) (distinct : (s.catalog.add t name key).Distinct)
    (backed : t.Backed s.disk) (nameable : Disk.Nameable t.file) :
    Coherent { s with catalog := s.catalog.add t name key } := by
  have keeps : s.Keeps { s with catalog := s.catalog.add t name key } :=
    (quiet_register t name key s).elim (fun never => by cases never) fun calm => calm h.guarded
  have ref : ∀ id ref, (s.catalog.add t name key).ref id = .ok ref →
      id = t.id ∧ (s.catalog.add t name key).table ref = t ∨
        s.catalog.ref id = .ok ref ∧
          (s.catalog.add t name key).table ref = s.catalog.table ref := by
    intro id ref known
    rw [Catalog.ref_add] at known
    rw [Catalog.table_add]
    split at known
    · rename_i mine
      cases known
      exact Or.inl ⟨mine, if_pos rfl⟩
    · exact Or.inr ⟨known, if_neg (Nat.ne_of_lt (h.guarded.keyed _ _ known).1)⟩
  have old : ∀ {id : PageId} {page : Page}, s.pool.image? id = some page → ∃ ref,
      s.catalog.ref id.table = .ok ref ∧ (s.catalog.add t name key).ref id.table = .ok ref ∧
        (s.catalog.add t name key).table ref = s.catalog.table ref := by
    intro id page cached
    obtain ⟨ref, known⟩ := h.guarded.known id page cached
    refine ⟨ref, known, ?_, ?_⟩
    · rw [Catalog.ref_add, if_neg (h.fresh distinct known).1, known]
    · rw [Catalog.table_add, if_neg (Nat.ne_of_lt (h.guarded.keyed _ _ known).1)]
  have saved : ∀ {id : PageId} {page : Page}, s.pool.image? id = some page →
      Store.saved { s with catalog := s.catalog.add t name key } id = s.saved id := by
    intro id page cached
    obtain ⟨ref, known, known', table⟩ := old cached
    rw [saved_of_ref known, saved_of_ref (s := { s with catalog := s.catalog.add t name key }) known',
      table]
  refine ⟨keeps.guarded, h.capacity, ?_, ?_, ?_, ?_, ?_, ?_⟩
  · intro id id' k k' known known' file
    rcases ref id k known with ⟨mine, table⟩ | ⟨before, table⟩ <;>
      rcases ref id' k' known' with ⟨mine', table'⟩ | ⟨before', table'⟩
    · rw [mine, mine']
    · rw [table, table'] at file
      exact absurd file.symm (h.fresh distinct before').2
    · rw [table, table'] at file
      exact absurd file (h.fresh distinct before).2
    · rw [table, table'] at file
      exact h.apart _ _ _ _ before before' file
  · intro id k known
    rcases ref id k known with ⟨-, table⟩ | ⟨before, table⟩
    · rw [table]
      exact backed
    · rw [table]
      exact h.backed _ _ before
  · intro id k known
    rcases ref id k known with ⟨-, table⟩ | ⟨before, table⟩
    · rw [table]
      exact nameable
    · rw [table]
      exact h.named _ _ before
  · intro id page cached
    obtain ⟨k, known, known', table⟩ := old cached
    obtain ⟨k', same, below⟩ := h.has id page cached
    rw [known] at same
    cases same
    exact ⟨k, known', table ▸ below⟩
  · intro id page cached
    rw [saved cached]
    exact h.whole id page cached
  · intro id page cached clean
    rw [saved cached]
    exact h.clean id page cached clean

/-- A file that no table uses yet is added. -/
theorem Coherent.addFile (h : s.Coherent) {file : String} (absent : s.disk.get? file = none) (f : File) :
    Coherent { s with disk := s.disk.insert file f } := by
  have other : ∀ id ref, s.catalog.ref id = .ok ref → (s.catalog.table ref).file ≠ file := by
    rintro id ref known rfl
    obtain ⟨f, there, -⟩ := h.backed id ref known
    rw [absent] at there
    cases there
  have found : ∀ id ref, s.catalog.ref id = .ok ref →
      (s.disk.insert file f).get? (s.catalog.table ref).file =
        s.disk.get? (s.catalog.table ref).file := by
    intro id ref known
    rw [Assoc.get?_insert, if_neg (other id ref known)]
  have saved : ∀ id, Store.saved { s with disk := s.disk.insert file f } id = s.saved id := by
    intro id
    cases known : s.catalog.ref id.table with
    | error e => simp only [Store.saved, Catalog.byId, known, Except.map]
    | ok ref =>
      rw [saved_of_ref known, saved_of_ref (s := { s with disk := s.disk.insert file f }) known]
      unfold Table.bytes
      dsimp only
      rw [found _ _ known]
  refine ⟨⟨h.guarded.pool, h.guarded.locks, h.guarded.keyed, h.guarded.owned, h.guarded.known⟩,
    h.capacity, h.apart, ?_, h.named, h.has, ?_, ?_⟩
  · intro id ref known
    obtain ⟨f', there, length⟩ := h.backed id ref known
    exact ⟨f', (found id ref known).trans there, length⟩
  · intro id page cached
    rw [saved]
    exact h.whole id page cached
  · intro id page cached clean
    rw [saved]
    exact h.clean id page cached clean

theorem Coherent.allocate (h : s.Coherent) :
    Coherent { s with catalog := s.catalog.allocate.2 } :=
  ⟨⟨h.guarded.pool, h.guarded.locks, h.guarded.keyed, h.guarded.owned, h.guarded.known⟩,
    h.capacity, h.apart, h.backed, h.named, h.has, h.whole, h.clean⟩

theorem openWithId_eq (s : Store) {id : TableId} {path name : String} {schema : Schema} {key : String}
    {pageSize : Nat} (loaded : Table.load s.disk id path schema pageSize = .ok t) :
    openWithId id path name schema key pageSize s =
      .ok () { s with catalog := s.catalog.add t name key } := by
  simp only [openWithId, register, Action.within, bind, EStateM.bind, Action.get_eq, loaded,
    Action.ofFile, pure, EStateM.pure]
  rfl

theorem createWithId_eq (s : Store) {id : TableId} {path name : String} {schema : Schema} {key : String}
    {pageSize : Nat} {disk : Disk} (created : Table.create s.disk id path schema pageSize = .ok (t, disk)) :
    createWithId id path name schema key pageSize s =
      .ok () { s with disk, catalog := s.catalog.add t name key } := by
  simp only [createWithId, register, Action.within, bind, EStateM.bind, Action.get_eq, created,
    Action.ofFile, pure, EStateM.pure]
  rfl

/-- What adding a table comes to: an id may be taken, a file may be made, and the table of a file that
is there is registered. -/
structure Adding (P : Store → Prop) : Prop where
  allocated : ∀ s, P s → P { s with catalog := s.catalog.allocate.2 }
  made : ∀ s file, P s → s.disk.get? file = none → P { s with disk := s.disk.insert file {} }
  registered : ∀ s t name key, P s → t.Backed s.disk → Disk.Nameable t.file →
    P { s with catalog := s.catalog.add t name key }

section Adding

variable {P : Store → Prop}

theorem adds_map {α β : Type} {x : Action α} (first : x.Ends s fun _ => P) (f : α → β) :
    (do return f (← x)).Ends s fun _ => P := by
  rw [Action.ends_bind]
  refine first.mono ?_
  rintro (e | a) t held
  · exact held
  · exact held

variable (adding : Adding P)

include adding

theorem openWithId_adds (h : P s) (id : TableId) (path name : String) (schema : Schema)
    (key : String) (pageSize : Nat) :
    (openWithId id path name schema key pageSize).Ends s fun _ => P := by
  unfold openWithId register
  rw [Action.ends_bind, Action.ends_within, Action.ends_bind, Action.ends_get, Action.andThen]
  cases loaded : Table.load s.disk id path schema pageSize with
  | error e => exact h
  | ok t =>
    obtain ⟨-, backed, nameable⟩ := Table.load_eq_ok loaded
    exact adding.registered s t name key h backed nameable

theorem createWithId_adds (h : P s) (id : TableId) (path name : String) (schema : Schema)
    (key : String) (pageSize : Nat) :
    (createWithId id path name schema key pageSize).Ends s fun _ => P := by
  unfold createWithId register
  rw [Action.ends_bind, Action.ends_within, Action.ends_bind, Action.ends_get, Action.andThen]
  cases created : Table.create s.disk id path schema pageSize with
  | error e => exact h
  | ok made =>
    obtain ⟨t, disk⟩ := made
    obtain ⟨new, absent, rfl, nameable⟩ := Table.create_eq_ok created
    refine adding.registered _ t name key (adding.made s t.file h absent) ⟨{}, ?_, ?_⟩ nameable
    · exact (Assoc.get?_insert _ _ _ _).trans (if_pos rfl)
    · rw [new]

/-- The id that is taken first does not matter. -/
theorem adds_allocate {x : TableId → Nat → Action Unit}
    (later : ∀ t : Store, P t → ∀ id pageSize, (x id pageSize).Ends t fun _ => P) (h : P s) : Action.Ends
      (do let id ← allocateId; x id (← get).settings.pageSize; return id) s fun _ => P := by
  unfold allocateId
  rw [Action.ends_bind, Action.ends_modifyGet, Action.andThen, Action.ends_bind, Action.ends_get,
    Action.andThen]
  exact adds_map (later _ (adding.allocated s h) _ _) fun _ => _

theorem newTable_adds (h : P s) (t : NewTable) : t.perform.Ends s fun _ => P := by
  cases t with
  | create path name schema key =>
    exact adds_map (adds_allocate adding (fun _ h id pageSize =>
      createWithId_adds adding h id path name schema key pageSize) h) fun _ => Answer.done
  | load path name schema key =>
    exact adds_map (adds_allocate adding (fun _ h id pageSize =>
      openWithId_adds adding h id path name schema key pageSize) h) fun _ => Answer.done
  | createWithId id path name schema key pageSize =>
    exact adds_map (createWithId_adds adding h id path name schema key pageSize) fun _ =>
      Answer.done
  | loadWithId id path name schema key pageSize =>
    exact adds_map (openWithId_adds adding h id path name schema key pageSize) fun _ =>
      Answer.done

end Adding

/-- A table may have been added, with a file of its own that may be new. -/
structure Opened (s s' : Store) : Prop where
  rest : s' = { s with disk := s'.disk, catalog := s'.catalog }
  coherent : s'.catalog.Distinct → s'.Coherent
  kept : s'.catalog.Distinct → ∀ id ref, s.catalog.ref id = .ok ref →
    s'.catalog.ref id = .ok ref ∧ s'.catalog.table ref = s.catalog.table ref
  files : ∀ name f, s.disk.get? name = some f → s'.disk.get? name = some f

theorem adding_opened (s : Store) : Adding s.Opened := by
  refine ⟨fun s' opened => ⟨?_, fun distinct => ?_, opened.kept, opened.files⟩,
    fun s' file opened absent => ⟨?_, fun distinct => ?_, opened.kept, fun name f there => ?_⟩,
    fun s' t name key opened backed nameable => ⟨?_, fun distinct => ?_, fun distinct id ref known => ?_,
      opened.files⟩⟩
  · rw [opened.rest]
  · exact (opened.coherent distinct).allocate
  · rw [opened.rest]
  · exact (opened.coherent distinct).addFile absent {}
  · have before := opened.files name f there
    rw [Assoc.get?_insert, if_neg, before]
    rintro rfl
    simp [absent] at before
  · rw [opened.rest]
  · exact (opened.coherent ((Catalog.extends_add _ t name key).distinct distinct)).register distinct
      backed nameable
  · have before := (Catalog.extends_add _ t name key).distinct distinct
    obtain ⟨known', table⟩ := opened.kept before id ref known
    have coherent := opened.coherent before
    have valid := (coherent.guarded.keyed id ref known').1
    dsimp only
    rw [Catalog.ref_add, if_neg (coherent.fresh distinct known').1, Catalog.table_add,
      if_neg (Nat.ne_of_lt valid)]
    exact ⟨known', table⟩

theorem Opened.refl (h : s.Coherent) : s.Opened s :=
  ⟨rfl, fun _ => h, fun _ _ _ known => ⟨known, rfl⟩, fun _ _ there => there⟩

theorem newTable_opens (h : s.Coherent) (t : NewTable) : t.perform.Ends s fun _ => s.Opened :=
  newTable_adds (adding_opened s) (.refl h) t

/-- A store in which tables were opened and nothing else was done. -/
structure Fresh (settings : Settings) (disk : Disk) (s : Store) : Prop where
  rest : s = { Store.new settings s.disk with catalog := s.catalog }
  keyed : s.catalog.Keyed
  tables : ∀ ref < s.catalog.opened.size,
    (s.catalog.table ref).Backed s.disk ∧ Disk.Nameable (s.catalog.table ref).file
  files : ∀ name f, disk.get? name = some f → s.disk.get? name = some f

theorem Fresh.pool {settings : Settings} {disk : Disk} (h : Fresh settings disk s) :
    s.pool = .new settings.poolPages := by
  rw [h.rest]
  rfl

theorem Fresh.settings {settings : Settings} {disk : Disk} (h : Fresh settings disk s) :
    s.settings = settings := by
  rw [h.rest]
  rfl

theorem Fresh.owner {settings : Settings} {disk : Disk} (h : Fresh settings disk s) (id : PageId) :
    s.owner id = none := by
  rw [Store.owner, h.pool, Pool.image?_new]
  rfl

theorem Fresh.unlocked {settings : Settings} {disk : Disk} (h : Fresh settings disk s) (tx : TxId)
    (id : PageId) (mode : LockMode) : ¬s.locks.Held tx id mode := by
  rw [h.rest]
  exact Locks.not_held_empty _

theorem fresh_new (settings : Settings) (disk : Disk) : Fresh settings disk (Store.new settings disk) where
  rest := rfl
  keyed := Catalog.keyed_empty
  tables _ valid := absurd valid (Nat.not_lt_zero _)
  files _ _ there := there

theorem newTable_fresh {settings : Settings} {disk : Disk} (h : Fresh settings disk s) (t : NewTable) :
    t.perform.Ends s fun _ => Fresh settings disk := by
  refine newTable_adds ⟨fun s' fresh => ⟨?_, fresh.keyed, fresh.tables, fresh.files⟩,
    fun s' file fresh absent => ⟨?_, fresh.keyed, fun ref valid => ?_, fun name f there => ?_⟩,
    fun s' t name key fresh backed nameable => ⟨?_, fresh.keyed.add t name key, fun ref valid => ?_,
      fresh.files⟩⟩ h t
  · rw [fresh.rest]
    rfl
  · rw [fresh.rest]
    rfl
  · obtain ⟨⟨f, there, length⟩, nameable⟩ := fresh.tables ref valid
    refine ⟨⟨f, ?_, length⟩, nameable⟩
    rw [Assoc.get?_insert, if_neg, there]
    intro here
    simp [here, absent] at there
  · have before := fresh.files name f there
    rw [Assoc.get?_insert, if_neg, before]
    rintro rfl
    simp [absent] at before
  · rw [fresh.rest]
    rfl
  · rw [Catalog.table_add]
    split
    · exact ⟨backed, nameable⟩
    · rename_i other
      have below : ref < s'.catalog.opened.size + 1 := by simpa [Catalog.add] using valid
      exact fresh.tables ref (Nat.lt_of_le_of_ne (Nat.le_of_lt_succ below) other)

theorem Fresh.coherent {settings : Settings} {disk : Disk} (h : Fresh settings disk s)
    (apart : s.catalog.Apart) : s.Coherent where
  guarded := by
    have new := guarded_new settings s.disk
    rw [h.rest]
    exact ⟨new.pool, new.locks, h.keyed, new.owned, fun id page cached => by simp [Store.new] at cached⟩
  capacity := by
    rw [h.pool, h.settings]
    rfl
  apart := apart
  backed id ref known := (h.tables ref (h.keyed id ref known).1).1
  named id ref known := (h.tables ref (h.keyed id ref known).1).2
  has id page cached := by simp [h.pool] at cached
  whole id page cached := by simp [h.pool] at cached
  clean id page cached := by simp [h.pool] at cached

/-- A step that does not crash looks for a page first, and then it may change the page. -/
theorem Performs.parts {tx : TxId} {y : Plain.Act Plain.Outcome} {answer : Except Stop Answer}
    (performs : Performs may tx s y answer s') (ended : answer ≠ .error .crashed) :
    ∃ t, s.Upkeep tx t ∧ (s' = t ∨ ∃ id bytes, t.Rewritten tx id bytes s') := by
  rcases performs with ⟨-, e, -, -, upkeep⟩ | performs
  · exact ⟨s', upkeep, Or.inl rfl⟩
  · split at performs
    · rename_i o v _
      obtain ⟨a, t, -, upkeep, -, -, applied⟩ := performs
      refine ⟨t, upkeep, ?_⟩
      cases change : o.change with
      | none =>
        rw [change] at applied
        exact Or.inl applied
      | some changed =>
        rw [change] at applied
        exact Or.inr ⟨_, _, applied⟩
    · obtain ⟨told, rfl | ⟨upkeep, -⟩⟩ := performs
      · exact absurd told ended
      · exact ⟨s', upkeep, Or.inl rfl⟩

theorem Performs.coherent {tx : TxId} {y : Plain.Act Plain.Outcome} {answer : Except Stop Answer}
    (performs : Performs may tx s y answer s') (ended : answer ≠ .error .crashed) : s'.Coherent := by
  obtain ⟨t, upkeep, rfl | ⟨id, bytes, rewritten⟩⟩ := performs.parts ended
  · exact upkeep.coherent
  · exact rewritten.coherent

theorem Performs.settings {tx : TxId} {y : Plain.Act Plain.Outcome} {answer : Except Stop Answer}
    (performs : Performs may tx s y answer s') (ended : answer ≠ .error .crashed) :
    s'.settings = s.settings := by
  obtain ⟨t, upkeep, rfl | ⟨id, bytes, rewritten⟩⟩ := performs.parts ended
  · exact upkeep.settings
  · rw [rewritten.rest]
    exact upkeep.settings

/-- Nobody but a transaction itself gets it an exclusive lock. -/
theorem Performs.exclusive {tx : TxId} {y : Plain.Act Plain.Outcome} {answer : Except Stop Answer}
    (performs : Performs may tx s y answer s') (ended : answer ≠ .error .crashed) (u : TxId) (id : PageId)
    (held : s'.locks.Held u id .exclusive) : s.locks.Held u id .exclusive ∨ u = tx := by
  obtain ⟨t, upkeep, rfl | ⟨other, bytes, rewritten⟩⟩ := performs.parts ended
  · exact upkeep.exclusive u id held
  · rw [rewritten.rest] at held
    exact upkeep.exclusive u id held

end Store

namespace Session
open Store

variable {S S' : Session} {es : List Event} {e : Event} {reply : Reply} {s : Store}
  {settings : Settings}

/-- What a step of a transaction has done follows the store without a pool. -/
theorem op_performs (h : S.store.Coherent) {tx : TxId} {o : Op} {x : Action Answer}
    (found : S.action? (.op tx o) = some x) (settled : settle x S.store = some (reply, s)) :
    ∃ c y, S.clients.get? tx = some c ∧ (c.running || o.iterates) = true ∧
      Plain.perform? tx c.scans o = some y ∧
      Performs (o.iterates = true) tx S.store y (reply.mapError .failed) s := by
  obtain ⟨c, client, allowed, found⟩ := action?_op_eq_some_iff.mp found
  obtain ⟨y, plain, ends⟩ := perform_follows h found
  exact ⟨c, y, client, allowed, plain, settle_eq_some ends settled⟩

/-- Files, tables and cached pages go together, only transactions that have not ended hold exclusive
locks, and the settings are those at the start. -/
structure Sane (settings : Settings) (S : Session) : Prop where
  coherent : S.store.Coherent
  settings : S.store.settings = settings
  locked : ∀ u id, S.store.locks.Held u id .exclusive → S.running u = true

theorem Sane.landed (h : Sane settings S) {p : PageId → Prop} {b : PageId → Bytes}
    (landed : Landed p b S.store s)
    (same : ∀ tx, (S.after e reply s).running tx = S.running tx) : Sane settings (S.after e reply s) := by
  have settings' : s.settings = S.store.settings := by rw [landed.rest]
  refine ⟨landed.coherent, settings'.trans h.settings, fun u id held => ?_⟩
  rw [same]
  apply h.locked u id
  have locks : s.locks = S.store.locks := by rw [landed.rest]
  rw [← locks]
  exact held

theorem Sane.completed (h : Sane settings S) {tx : TxId} {b : PageId → Bytes}
    (completed : S.store.Completed tx b s)
    (rest : ∀ u, (S.after e reply s).running u = (u ≠ tx && S.running u)) :
    Sane settings (S.after e reply s) := by
  have settings' : s.settings = S.store.settings := by rw [completed.rest]
  refine ⟨completed.coherent, settings'.trans h.settings, fun u id held => ?_⟩
  have locks : s.locks = S.store.locks.releaseAll tx := by rw [completed.rest]
  have released := Locks.held_releaseAll.mp (locks ▸ held)
  rw [rest, Bool.and_eq_true, decide_eq_true_eq]
  exact ⟨released.2, h.locked u id released.1⟩

theorem Sane.op (h : Sane settings S) {tx : TxId} {o : Op} {x : Action Answer}
    (found : S.action? (.op tx o) = some x) (settled : settle x S.store = some (reply, s)) :
    Sane settings (S.after (.op tx o) reply s) := by
  obtain ⟨c, y, client, allowed, -, performs⟩ := op_performs h.coherent found settled
  have ended := mapError_ne_crashed reply
  refine ⟨performs.coherent ended, (performs.settings ended).trans h.settings, fun u id held => ?_⟩
  rw [running_after_op]
  cases iterates : o.iterates with
  | false =>
    rcases performs.exclusive ended u id held with before | rfl
    · exact h.locked u id before
    · rw [iterates, Bool.or_false] at allowed
      exact running_iff.mpr ⟨c, client, allowed⟩
  | true =>
    -- a scan takes no exclusive locks, whoever it is that goes on with it
    cases o with
    | iterate k step =>
      obtain ⟨_, _, _, found⟩ := action?_op_eq_some_iff.mp found
      obtain ⟨r, -, rfl⟩ := Option.map_eq_some_iff.mp found
      have performs := settle_eq_some (performScan_follows h.coherent trivial (u + 1) r step) settled
      rcases performs.exclusive ended u id held with before | never
      · exact h.locked u id before
      · exact absurd never (Nat.ne_of_lt (Nat.lt_succ_self u))
    | insert _ _ => cases iterates
    | delete _ => cases iterates
    | scan _ => cases iterates

theorem Sane.step (h : Sane settings S) (stepped : S.step e = some S')
    (distinct : (∃ t, e = .addTable t) → S'.store.catalog.Distinct) : Sane settings S' := by
  obtain ⟨x, reply, s, found, settled, rfl⟩ := step_eq_some_iff.mp stepped
  cases e with
  | begin =>
    cases found
    cases settled
    refine ⟨h.coherent.withNextTx _, h.settings, fun u id held => ?_⟩
    rw [running_after_begin, h.locked u id held, Bool.or_true]
  | op tx o => exact h.op found settled
  | commit tx =>
    obtain ⟨-, rfl⟩ := action?_commit_eq_some_iff.mp found
    obtain ⟨answer, rfl, -, completed⟩ := settle_done (commit_completes h.coherent tx) settled
    exact h.completed completed (running_finish S tx)
  | abort tx =>
    obtain ⟨-, rfl⟩ := action?_abort_eq_some_iff.mp found
    obtain ⟨answer, rfl, -, completed, -⟩ := settle_done (abort_completes h.coherent tx) settled
    exact h.completed completed (running_finish S tx)
  | drop tx =>
    obtain ⟨-, rfl⟩ := action?_drop_eq_some_iff.mp found
    obtain ⟨answer, rfl, -, completed, -⟩ := settle_done (drop_completes h.coherent tx) settled
    exact h.completed completed (running_finish S tx)
  | flushPage id =>
    cases found
    obtain ⟨answer, rfl, -, p, -, landed⟩ := settle_done (flushPage_lands h.coherent id) settled
    exact h.landed landed fun _ => rfl
  | flushAll =>
    cases found
    obtain ⟨answer, rfl, -, landed⟩ := settle_done (flushAll_lands h.coherent) settled
    exact h.landed landed fun _ => rfl
  | discard id =>
    cases found
    cases settled
    exact h.landed (discard_lands h.coherent id) fun _ => rfl
  | addTable t =>
    cases found
    have opened := settle_eq_some (newTable_opens h.coherent t) settled
    have settings' : s.settings = S.store.settings := by rw [opened.rest]
    refine ⟨opened.coherent (distinct ⟨t, rfl⟩), settings'.trans h.settings,
      fun u id held => h.locked u id ?_⟩
    have locks : s.locks = S.store.locks := by rw [opened.rest]
    rw [← locks]
    exact held

theorem sane_start (settings : Settings) (disk : Disk) :
    Sane settings (start (Store.new settings disk)) :=
  ⟨coherent_new settings disk, rfl, fun _ _ held => absurd held (Locks.not_held_empty _)⟩

/-- Whatever happens in a session that keeps its tables apart, files, tables and cached pages go
together. -/
theorem sane_run {disk : Disk}
    (ran : (start (Store.new settings disk)).run es = some S)
    (distinct : S.store.catalog.Distinct) : Sane settings S := by
  refine (run_invariant (I := fun es S => Isolated es S ∧ (S.store.catalog.Distinct → Sane settings S)) ?_
    ⟨isolated_start settings disk, fun _ => sane_start settings disk⟩ ran).2 distinct
  rintro es S e S' ⟨isolated, sane⟩ stepped
  refine ⟨isolated.step stepped, fun distinct => ?_⟩
  exact (sane ((isolated.extends stepped).distinct distinct)).step stepped fun _ => distinct

/-- A session in which tables were opened and nothing else was done. -/
theorem opened_run {disk : Disk} {opening : List NewTable}
    (ran : (start (Store.new settings disk)).run (opening.map .addTable) = some S) :
    S.clients = {} ∧ S.committed = [] ∧ Fresh settings disk S.store := by
  refine run_invariant (I := fun es S => (∀ e ∈ es, ∃ t, e = .addTable t) →
    S.clients = {} ∧ S.committed = [] ∧ Fresh settings disk S.store) ?_
    (fun _ => ⟨rfl, rfl, fresh_new settings disk⟩) ran (fun e listed => ?_)
  · rintro es S e S' opened stepped only
    obtain ⟨clients, committed, fresh⟩ := opened fun e listed =>
      only e (List.mem_append_left _ listed)
    obtain ⟨t, rfl⟩ := only e (List.mem_append_right _ (List.mem_singleton.mpr rfl))
    obtain ⟨x, reply, s, found, settled, rfl⟩ := step_eq_some_iff.mp stepped
    cases found
    exact ⟨clients, committed, settle_eq_some (newTable_fresh fresh t) settled⟩
  · obtain ⟨t, -, rfl⟩ := List.mem_map.mp listed
    exact ⟨t, rfl⟩

end Session
end HeapStore
