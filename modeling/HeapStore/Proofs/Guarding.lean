import HeapStore.Proofs.Fetching
import HeapStore.Proofs.Filing
import HeapStore.Proofs.Locking
import HeapStore.Proofs.Slots
import HeapStore.Store.Rows
import HeapStore.Store.Scanning
import HeapStore.Store.Tables
import HeapStore.Store.Transactions

/-! Changed pages are guarded: whoever has a page cached as dirty holds it exclusively. Every action
keeps it so, at any capacity of the pool and whatever the files and tables are. -/
namespace HeapStore

/-- The transaction whose change of the page is cached and not yet on disk. -/
def Store.owner (s : Store) (id : PageId) : Option TxId :=
  (s.pool.image? id).bind Page.dirtiedBy

namespace Store

variable {s s' t : Store} {id : PageId} {tx : TxId} {r : PageRef}

structure Guarded (s : Store) : Prop where
  pool : s.pool.Sound
  locks : s.locks.Sound
  keyed : s.catalog.Keyed
  owned : ∀ id tx, s.owner id = some tx → s.locks.Held tx id .exclusive
  known : ∀ id page, s.pool.image? id = some page → ∃ ref, s.catalog.ref id.table = .ok ref

theorem guarded_new (settings : Settings) (disk : Disk) : (Store.new settings disk).Guarded where
  pool := Pool.sound_new _
  locks := Locks.sound_empty _
  keyed := Catalog.keyed_empty
  owned id tx owner := by simp [Store.owner, Store.new] at owner
  known id page cached := by simp [Store.new] at cached

/-- What happens between two states of a guarded store while nobody changes a page. -/
structure Keeps (s s' : Store) : Prop where
  guarded : s'.Guarded
  locks : ∀ tx id mode, s.locks.Held tx id mode → s'.locks.Held tx id mode
  owner : ∀ id tx, s'.owner id = some tx → s.owner id = some tx
  nextTx : s'.nextTx = s.nextTx
  catalog : s.catalog.Extends s'.catalog

theorem Keeps.refl (h : s.Guarded) : s.Keeps s :=
  ⟨h, fun _ _ _ held => held, fun _ _ owner => owner, rfl, .refl _⟩

theorem Keeps.trans (first : s.Keeps s') (second : s'.Keeps t) : s.Keeps t where
  guarded := second.guarded
  locks tx id mode held := second.locks tx id mode (first.locks tx id mode held)
  owner id tx owner := first.owner id tx (second.owner id tx owner)
  nextTx := second.nextTx.trans first.nextTx
  catalog := first.catalog.trans second.catalog

def Calm (s s' : Store) : Prop := s.Guarded → s.Keeps s'

theorem Calm.refl (s : Store) : s.Calm s := Keeps.refl

theorem Calm.trans {s t u : Store} (first : s.Calm t) (second : t.Calm u) : s.Calm u :=
  fun h => (first h).trans (second (first h).guarded)

abbrev Quiet {α : Type} (x : Action α) : Prop := Action.Respects Calm x

theorem quiet_bind {α β : Type} {x : Action α} {f : α → Action β} (first : Quiet x)
    (later : ∀ a, Quiet (f a)) : Quiet (x >>= f) :=
  Action.respects_bind (R := Calm) Calm.trans first later

theorem quiet_pure {α : Type} (a : α) : Quiet (pure a : Action α) :=
  Action.respects_pure Calm.refl a

theorem quiet_get : Quiet (get : Action Store) := Action.respects_get Calm.refl

/-- Besides, no table has changed, and a page that reads the same for good does so still. -/
structure Leaves (s s' : Store) : Prop extends Keeps s s' where
  same : s'.catalog = s.catalog
  firm : ∀ id bytes, s.Firm id bytes → s'.Firm id bytes

def Looks (s s' : Store) : Prop := s.Guarded → s.Leaves s'

theorem Looks.refl (s : Store) : s.Looks s := fun h => ⟨.refl h, rfl, fun _ _ firm => firm⟩

theorem Looks.trans {s t u : Store} (first : s.Looks t) (second : t.Looks u) : s.Looks u := by
  intro h
  have leaves := first h
  have leaves' := second leaves.guarded
  exact ⟨leaves.toKeeps.trans leaves'.toKeeps, leaves'.same.trans leaves.same,
    fun id bytes firm => leaves'.firm id bytes (leaves.firm id bytes firm)⟩

abbrev Looking {α : Type} (x : Action α) : Prop := Action.Respects Looks x

theorem Looking.quiet {α : Type} {x : Action α} (looking : Looking x) : Quiet x :=
  fun s => (looking s).mono fun _ _ looks => looks.imp_right fun looks h => (looks h).toKeeps

theorem looking_bind {α β : Type} {x : Action α} {f : α → Action β} (first : Looking x)
    (later : ∀ a, Looking (f a)) : Looking (x >>= f) :=
  Action.respects_bind (R := Looks) Looks.trans first later

theorem looking_pure {α : Type} (a : α) : Looking (pure a : Action α) :=
  Action.respects_pure Looks.refl a

theorem looking_get : Looking (get : Action Store) := Action.respects_get Looks.refl

theorem looking_fail {α : Type} (c : Cause) : Looking (Action.fail c : Action α) :=
  Action.respects_stop Looks.refl _

theorem looking_ofCause {α : Type} (r : Except Cause α) : Looking (Action.ofCause r) :=
  Action.respects_ofCause Looks.refl r

theorem looking_ofOption {α : Type} (r : Option α) : Looking (Action.ofOption r) :=
  Action.respects_ofOption Looks.refl r

theorem looks_of_scans (s : Store) (scans : Array Scan) : s.Looks { s with scans } :=
  fun h => ⟨⟨⟨h.pool, h.locks, h.keyed, h.owned, h.known⟩, fun _ _ _ held => held,
    fun _ _ owner => owner, rfl, .refl _⟩, rfl, fun _ _ firm => ⟨firm.reads, firm.clean⟩⟩

/-! Pages -/

theorem loadable_eq_ok_iff {bytes : Bytes} : s.loadable id = .ok bytes ↔
    ∃ ref, s.catalog.ref id.table = .ok ref ∧ (s.catalog.table ref).read s.disk id = .ok bytes := by
  unfold loadable Catalog.byId
  cases s.catalog.ref id.table with
  | error c => simp [Except.map]
  | ok ref => simp [Except.map, Action.inside_eq_ok_iff]

theorem Recached.owner (h : Recached s s') (id : PageId) : s'.owner id = s.owner id := by
  unfold Store.owner
  rcases h.image? id with same | ⟨gone, page, was, clean⟩ | ⟨was, bytes, _, now⟩
  · rw [same]
  · rw [gone, was]
    exact (Option.not_isSome_iff_eq_none.mp (by simpa [Page.isDirty] using clean)).symm
  · rw [was, now]
    rfl

theorem Recached.calm (h : Recached s s') : s.Calm s' := by
  intro guarded
  have locks : s'.locks = s.locks := by rw [h.rest]
  have catalog : s'.catalog = s.catalog := by rw [h.rest]
  refine ⟨⟨h.sound, locks ▸ guarded.locks, catalog ▸ guarded.keyed, ?_, ?_⟩, ?_, ?_,
    by rw [h.rest], catalog ▸ .refl _⟩
  · intro id tx owner
    rw [h.owner] at owner
    rw [locks]
    exact guarded.owned id tx owner
  · intro id page cached
    rw [catalog]
    rcases h.image? id with same | ⟨gone, _⟩ | ⟨_, bytes, read, _⟩
    · exact guarded.known id page (same ▸ cached)
    · rw [gone] at cached
      cases cached
    · obtain ⟨ref, known, -⟩ := loadable_eq_ok_iff.mp read
      exact ⟨ref, known⟩
  · intro tx id mode held
    rwa [locks]
  · intro id tx owner
    rwa [h.owner] at owner

theorem looking_lock (tx : TxId) (id : PageId) (mode : LockMode) : Looking (lock tx id mode) := by
  intro s
  rw [ends_lock]
  split
  · split
    · rename_i locks granted
      have grows := Locks.grows_of_acquire? granted
      refine Or.inr fun h => ⟨⟨⟨h.pool, h.locks.acquire? granted, h.keyed, ?_, h.known⟩,
        grows.kept, fun _ _ owner => owner, rfl, .refl _⟩, rfl, fun _ _ firm => ⟨firm.reads, firm.clean⟩⟩
      intro id tx owner
      exact grows.kept _ _ _ (h.owned id tx owner)
    · exact Or.inr (Looks.refl s)
  · exact Or.inl rfl

/-- As for an action that only needs its store to be guarded. -/
theorem respects_of_guarded {P : Store → Store → Prop} {α : Type} {x : Action α}
    (h : ∀ s, s.Guarded → x.Ends s fun r s' => r = .error .crashed ∨ P s s') :
    Action.Respects (fun s s' => s.Guarded → P s s') x := fun s => .assuming (h s)

theorem looking_fetch (id : PageId) (must : Bool) : Looking (fetch id must) :=
  respects_of_guarded fun _ h => (fetch_ends h.pool id must).mono fun _ _ fetched => by
    have recached := fetched.recached h.pool
    exact Or.inr ⟨recached.calm h, by rw [recached.rest], fun _ _ => recached.firm⟩

theorem looking_getPage (tx : TxId) (id : PageId) (mode : LockMode) : Looking (getPage tx id mode) :=
  looking_bind (looking_lock tx id mode) fun _ =>
    looking_bind (looking_fetch id true) fun _ => looking_pure _

/-! Scans -/

theorem looking_setScan (r : ScanRef) (sc : Scan) : Looking (setScan r sc) :=
  Action.respects_modify fun s => looks_of_scans s _

theorem looking_scan (r : ScanRef) : Looking (scan r) := looking_bind looking_get fun _ => looking_pure _

theorem looking_page (r : PageRef) : Looking (page r) := looking_bind looking_get fun _ => looking_pure _

theorem looking_newScan (tx : TxId) (table : TableId) : Looking (newScan tx table) :=
  looking_bind looking_get fun _ => looking_bind (looking_ofCause _) fun _ s =>
    Or.inr (looks_of_scans s _)

theorem looking_fetchRows (sc : Scan) (number : Nat) : Looking (fetchRows sc number) :=
  looking_bind looking_get fun _ => looking_bind (looking_getPage _ _ _) fun _ =>
    looking_bind (looking_page _) fun _ => looking_ofOption _

theorem looking_pageCount (sc : Scan) : Looking (pageCount sc) :=
  looking_bind looking_get fun _ => looking_ofOption _

theorem looking_openScan (r : ScanRef) : Looking (openScan r) := by
  refine looking_bind (looking_scan r) fun sc => looking_bind (looking_setScan r _) fun _ =>
    looking_bind (looking_pageCount _) fun n => ?_
  split
  · exact looking_setScan r _
  · exact looking_bind (looking_fetchRows _ _) fun _ => looking_setScan r _

theorem looking_seek (r : ScanRef) (fuel : Nat) : Looking (seek r fuel) := by
  induction fuel with
  | zero => exact looking_pure _
  | succ fuel ih =>
    refine looking_bind (looking_scan r) fun sc => ?_
    split
    · exact looking_pure _
    · exact looking_pure _
    · refine looking_bind (looking_pageCount _) fun n => ?_
      split
      · exact looking_pure _
      · exact looking_bind (looking_setScan r _) fun _ => looking_bind (looking_fetchRows _ _) fun _ =>
          looking_bind (looking_setScan r _) fun _ => ih

theorem looking_hasNext (r : ScanRef) : Looking (hasNext r) :=
  looking_bind (looking_scan r) fun _ => looking_bind looking_get fun _ => looking_seek r _

theorem looking_nextRow (r : ScanRef) : Looking (nextRow r) := by
  refine looking_bind (looking_hasNext r) fun more => ?_
  split
  · refine looking_bind (looking_scan r) fun sc => ?_
    split
    · exact looking_bind (looking_setScan r _) fun _ => looking_pure _
    · exact looking_fail _
  · exact looking_fail _

theorem looking_closeScan (r : ScanRef) : Looking (closeScan r) :=
  looking_bind (looking_scan r) fun _ => looking_setScan r _

theorem looking_rewind (r : ScanRef) : Looking (rewind r) :=
  looking_bind (looking_closeScan r) fun _ => looking_openScan r

/-! Looking for the page to change -/

/-- Tables may have got pages, but every id leads to the table that it led to. -/
structure Scouts (s s' : Store) : Prop extends Keeps s s' where
  ref : ∀ id, s'.catalog.ref id = s.catalog.ref id

theorem Scouts.refl (h : s.Guarded) : s.Scouts s := ⟨.refl h, fun _ => rfl⟩

theorem Scouts.trans {u : Store} (first : s.Scouts t) (second : t.Scouts u) : s.Scouts u :=
  ⟨first.toKeeps.trans second.toKeeps, fun id => (second.ref id).trans (first.ref id)⟩

/-- What getting a page for a change of it can come to: whatever else, nobody has changed a page. -/
def Reached (tx : TxId) (id : PageId) (s : Store) : Except Stop PageRef → Store → Prop
  | .ok r, t => s.Keeps t ∧ t.catalog = s.catalog ∧ t.Stands id r ∧ t.locks.Held tx id .exclusive ∧
      s.Reads id (t.pool.page r).bytes
  | .error e, t => e = .crashed ∨ s.Keeps t

theorem getPageForUpdate_ends (h : s.Guarded) (tx : TxId) (id : PageId) :
    (getPageForUpdate tx id).Ends s (Reached tx id s) := by
  unfold getPageForUpdate
  rw [Action.ends_bind, ends_lock]
  split
  · split
    · rename_i locks granted
      have grows := Locks.grows_of_acquire? granted
      have locked : s.Keeps { s with locks } :=
        ⟨⟨h.pool, h.locks.acquire? granted, h.keyed,
          fun id tx owner => grows.kept _ _ _ (h.owned id tx owner), h.known⟩,
          grows.kept, fun _ _ owner => owner, rfl, .refl _⟩
      have held : locks.Held tx id .exclusive :=
        (Locks.held_of_acquire? granted).mpr (Or.inr ⟨rfl, rfl, rfl⟩)
      refine (fetch_ends (s := { s with locks }) h.pool id false).mono ?_
      intro answer t fetched
      have recached := fetched.recached (s := { s with locks }) h.pool
      have keeps := locked.trans (recached.calm locked.guarded)
      cases answer with
      | error e => exact Or.inr keeps
      | ok r =>
        refine ⟨keeps, ?_, fetched.stands (s := { s with locks }) h.pool, ?_, fetched.reads⟩
        · rw [recached.rest]
        · rw [recached.rest]
          exact held
    · exact Or.inr (.refl h)
  · exact Or.inl rfl

/-- The page to change was found. Its image was written to, but is not yet known to be changed. -/
def Found (tx : TxId) (edit : Store → Bytes → Bytes → Prop) (s : Store) (id : PageId) (r : PageRef)
    (s' : Store) : Prop :=
  ∃ t bytes, s.Scouts t ∧ t.Stands id r ∧ t.locks.Held tx id .exclusive ∧
    edit t (t.pool.page r).bytes bytes ∧ bytes.size = (t.pool.page r).bytes.size ∧
    s' = { t with pool := t.pool.update r fun p => { p with bytes } }

theorem Found.after {u : Store} {edit : Store → Bytes → Bytes → Prop} (first : s.Scouts t)
    (found : Found tx edit t id r u) : Found tx edit s id r u := by
  obtain ⟨v, bytes, scouts, rest⟩ := found
  exact ⟨v, bytes, first.trans scouts, rest⟩

/-- Values are put on a page of a table. -/
def Inserts (ref : TableRef) (values : List Value) (record : RecordId) (s : Store) (old new : Bytes) :
    Prop :=
  record.page.table = (s.catalog.table ref).id ∧ record.page.number < (s.catalog.table ref).pages ∧
    (s.catalog.table ref).layout.insert? old values = some (some record.slot, new)

/-- What a search for a place can come to. If it does not find one, nobody has changed a page. -/
def Placed (tx : TxId) (ref : TableRef) (row : Row) (s : Store) :
    Except Stop (Option (PageRef × RecordId)) → Store → Prop
  | .ok (some (r, record)), s' => Found tx (Inserts ref row.values record) s record.page r s'
  | .ok none, s' => s.Scouts s'
  | .error e, s' => e = .crashed ∨ s.Keeps s'

theorem Placed.after {u : Store} {ref : TableRef} {row : Row} (first : s.Scouts t)
    {answer : Except Stop (Option (PageRef × RecordId))} (placed : Placed tx ref row t answer u) :
    Placed tx ref row s answer u := by
  match answer, placed with
  | .ok (some (r, record)), found => exact Found.after first found
  | .ok none, scouts => exact first.trans scouts
  | .error e, stopped => exact stopped.imp_right first.toKeeps.trans

theorem insertInto_ends (h : s.Guarded) (ref : TableRef) (tx : TxId) (row : Row) {number : Nat}
    (inside : number < (s.catalog.table ref).pages) :
    (insertInto (s.catalog.table ref) tx row number).Ends s fun answer u =>
      Placed tx ref row s answer u ∧ (answer = .ok none → u.catalog = s.catalog) := by
  unfold insertInto
  rw [Action.ends_bind]
  refine (getPageForUpdate_ends h tx _).mono ?_
  rintro (e | r) u reached
  · exact ⟨reached, fun never => by cases never⟩
  · obtain ⟨keeps, catalog, stands, held, -⟩ := reached
    have scouts : s.Scouts u := ⟨keeps, fun _ => by rw [catalog]⟩
    simp only [Action.andThen, Action.ends_bind, ends_page, Action.ends_ofOption]
    cases inserted : (s.catalog.table ref).layout.insert? (u.pool.page r).bytes row.values with
    | none => exact ⟨Or.inl rfl, fun never => by cases never⟩
    | some result =>
      obtain ⟨slot? | slot, bytes⟩ := result
      · exact ⟨scouts, fun _ => catalog⟩
      · refine ⟨⟨u, bytes, scouts, stands, held, ?_, Layout.size_insert? inserted, rfl⟩,
          fun never => by cases never⟩
        rw [Inserts, catalog]
        exact ⟨rfl, inside, inserted⟩

theorem insertFrom_ends (h : s.Guarded) (ref : TableRef) (tx : TxId) (row : Row) (count number : Nat)
    (inside : ∀ m, number ≤ m → m < number + count → m < (s.catalog.table ref).pages) :
    (insertFrom (s.catalog.table ref) tx row count number).Ends s (Placed tx ref row s) := by
  induction count generalizing s number with
  | zero => exact .refl h
  | succ count ih =>
    unfold insertFrom
    rw [Action.ends_bind]
    refine (insertInto_ends h ref tx row (inside number (Nat.le_refl _) (by omega))).mono ?_
    rintro (e | place | place) u ⟨placed, catalog⟩
    · exact placed
    · have later := ih placed.guarded (number + 1) fun m above below => by
        rw [catalog rfl]
        exact inside m (by omega) (by omega)
      rw [catalog rfl] at later
      exact later.mono fun _ _ later => later.after placed
    · exact placed

theorem calm_of_file (s : Store) (ref : TableRef) (t : Table) (disk : Disk)
    (same : t = { s.catalog.table ref with length := t.length }) :
    s.Calm { s with catalog := s.catalog.update ref t, disk } :=
  fun h => ⟨⟨h.pool, h.locks, h.keyed.update ref (by rw [same]), h.owned, h.known⟩,
    fun _ _ _ held => held, fun _ _ owner => owner, rfl, Catalog.extends_update ref same⟩

theorem insertGrowing_ends (h : s.Guarded) (ref : TableRef) (tx : TxId) (row : Row)
    (appends number : Nat) :
    (insertGrowing ref tx row appends number).Ends s fun answer =>
      Placed tx ref row s (answer.map some) := by
  induction appends generalizing s number with
  | zero =>
    unfold insertGrowing
    rw [Action.ends_bind, Action.ends_get, Action.andThen, Action.ends_bind]
    refine (insertFrom_ends h ref tx row _ number fun m _ _ => by omega).mono ?_
    rintro (e | place | place) u placed
    · exact placed
    · exact Or.inl rfl
    · exact placed
  | succ appends ih =>
    unfold insertGrowing
    rw [Action.ends_bind, Action.ends_get, Action.andThen, Action.ends_bind]
    refine (insertFrom_ends h ref tx row _ number fun m _ _ => by omega).mono ?_
    rintro (e | place | place) u placed
    · exact placed
    · rw [Action.andThen, Action.ends_bind, ends_appendPage]
      split
      · have grown := calm_of_file u ref ((u.catalog.table ref).appendEmpty u.disk).1
          ((u.catalog.table ref).appendEmpty u.disk).2 rfl placed.guarded
        exact (ih grown.guarded _).mono fun _ _ later => later.after (placed.trans ⟨grown, fun _ => rfl⟩)
      · exact Or.inl rfl
    · exact placed

theorem placeRow_ends (h : s.Guarded) (ref : TableRef) (tx : TxId) (row : Row) :
    (placeRow ref tx row).Ends s fun answer t => Placed tx ref row s (answer.map some) t ∧
      ∀ place, answer = .ok place → (s.catalog.table ref).checkSchema row = .ok () := by
  unfold placeRow
  rw [Action.ends_bind, Action.ends_get, Action.andThen, Action.ends_bind, Action.ends_ofCause]
  cases (s.catalog.table ref).checkSchema row with
  | error c => exact ⟨Or.inr (.refl h), fun _ never => by cases never⟩
  | ok fits =>
    simp only [Action.mapError_ok, Action.andThen]
    split
    · exact ⟨Or.inr (.refl h), fun _ _ => trivial⟩
    · exact (insertGrowing_ends h ref tx row _ 0).mono fun _ _ placed => ⟨placed, fun _ _ => trivial⟩

/-- A row is taken from its page. -/
def Removes (ref : TableRef) (record : RecordId) (s t : Store) (old new : Bytes) : Prop :=
  t.catalog = s.catalog ∧ s.Reads record.page old ∧
    (s.catalog.table ref).layout.remove? old record.slot = some (true, new)

theorem clearSlot_ends (h : s.Guarded) (ref : TableRef) (tx : TxId) (record : RecordId) :
    (clearSlot ref tx (some record)).Ends s fun
      | .ok r => Found tx (Removes ref record s) s record.page r
      | .error e => fun s' => e = .crashed ∨ s.Keeps s' := by
  unfold clearSlot
  rw [Action.ends_bind, Action.ends_get]
  simp only [Action.andThen]
  split
  · exact Or.inr (.refl h)
  · rw [Action.ends_bind]
    refine (getPageForUpdate_ends h tx _).mono ?_
    rintro (e | r) u reached
    · exact reached
    · obtain ⟨keeps, catalog, stands, held, reads⟩ := reached
      simp only [Action.andThen, Action.ends_bind, ends_page, Action.ends_ofOption]
      cases removed : (s.catalog.table ref).layout.remove? (u.pool.page r).bytes record.slot with
      | none => exact Or.inl rfl
      | some result =>
        obtain ⟨_ | _, bytes⟩ := result
        · exact Or.inr keeps
        · exact ⟨u, bytes, ⟨keeps, fun _ => by rw [catalog]⟩, stands, held, ⟨catalog, reads, removed⟩,
            Layout.size_remove? removed, rfl⟩

/-! Changing a page -/

theorem writable_of_known (h : s.catalog.Keyed) {p : Page} {ref : TableRef}
    (known : s.catalog.ref p.id.table = .ok ref) :
    s.writable p = .ok
      (s.catalog.update ref ((s.catalog.table ref).writeAt s.disk p.id.number p.bytes).1,
        ((s.catalog.table ref).writeAt s.disk p.id.number p.bytes).2) := by
  obtain ⟨-, key⟩ := h _ _ known
  have mine : ¬p.id.table ≠ (s.catalog.table ref).id := fun ne => ne key.symm
  simp only [writable, known, Table.write, if_neg mine]

theorem Stands.known (stands : s.Stands id r) (h : s.Guarded) :
    ∃ ref, s.catalog.ref id.table = .ok ref := by
  rcases stands.place with cached | ⟨-, bytes, read, -⟩
  · exact h.known id _ (Pool.image?_eq_some_iff.mpr ⟨r, cached, rfl⟩)
  · obtain ⟨ref, known, -⟩ := loadable_eq_ok_iff.mp read
    exact ⟨ref, known⟩

/-- A transaction has changed one page, which it holds exclusively. -/
structure Alters (tx : TxId) (id : PageId) (s s' : Store) : Prop where
  guarded : s'.Guarded
  locks : ∀ u other mode, s.locks.Held u other mode → s'.locks.Held u other mode
  owner : ∀ other u, s'.owner other = some u → s.owner other = some u ∨ u = tx ∧ other = id
  held : s'.locks.Held tx id .exclusive
  nextTx : s'.nextTx = s.nextTx
  catalog : s.catalog.Extends s'.catalog

theorem owner_of_clean {page : Page} (cached : s.pool.image? id = some page)
    (clean : page.isDirty = false) : s.owner id = none := by
  rw [owner, cached]
  exact Option.not_isSome_iff_eq_none.mp (by simpa [Page.isDirty] using clean)

theorem alters_of_changed {bytes : Bytes} (h : s.Guarded) (stands : s.Stands id r)
    (held : s.locks.Held tx id .exclusive) {answer : Except Stop Unit}
    (changed : Changed s id tx bytes answer s') : answer = .ok () ∧ s.Alters tx id s' := by
  obtain ⟨ref, known⟩ := stands.known h
  cases changed with
  | @cached q sound capacity mine others =>
    have owner : ∀ other u, Store.owner { s with pool := q } other = some u →
        s.owner other = some u ∨ u = tx ∧ other = id := by
      intro other u owner
      by_cases here : other = id
      · subst here
        rw [Store.owner, mine] at owner
        cases owner
        exact Or.inr ⟨rfl, rfl⟩
      · rcases others other here with same | ⟨gone, -⟩
        · rw [Store.owner, same] at owner
          exact Or.inl owner
        · rw [Store.owner, gone] at owner
          cases owner
    refine ⟨rfl, ⟨sound, h.locks, h.keyed, ?_, ?_⟩, fun _ _ _ held => held, owner, held, rfl,
      .refl _⟩
    · intro other u now
      rcases owner other u now with before | ⟨rfl, rfl⟩
      · exact h.owned other u before
      · exact held
    · intro other page there
      by_cases here : other = id
      · rw [here]
        exact ⟨ref, known⟩
      · rcases others other here with same | ⟨gone, -⟩
        · exact h.known other page (same ▸ there)
        · rw [gone] at there
          cases there
  | @through q catalog disk uncached full sound capacity gone others written =>
    rw [writable_of_known h.keyed known] at written
    cases written
    have owner : ∀ other u, (q.image? other).bind Page.dirtiedBy = some u →
        s.owner other = some u := by
      intro other u owner
      by_cases here : other = id
      · rw [here, gone] at owner
        cases owner
      · rcases others other here with same | ⟨gone, -⟩
        · rwa [same] at owner
        · rw [gone] at owner
          cases owner
    refine ⟨rfl, ⟨sound, h.locks, h.keyed.update ref rfl, fun other u now =>
      h.owned other u (owner other u now), ?_⟩, fun _ _ _ held => held,
      fun other u now => Or.inl (owner other u now), held, rfl,
      Catalog.extends_update ref rfl⟩
    intro other page there
    by_cases here : other = id
    · rw [here] at there
      rw [gone] at there
      cases there
    · rcases others other here with same | ⟨gone, -⟩
      · exact h.known other page (same ▸ there)
      · rw [gone] at there
        cases there
  | refused unwritable =>
    rw [writable_of_known h.keyed known] at unwritable
    cases unwritable

/-- The page that was changed keeps its new bytes. -/
theorem firm_of_changed {bytes : Bytes} (h : s.Guarded) (stands : s.Stands id r)
    (size : bytes.size = (s.pool.page r).bytes.size) (changed : Changed s id tx bytes (.ok ()) s') :
    s'.catalog = s.catalog ∧ s'.Firm id bytes := by
  cases changed with
  | @cached q sound capacity mine others =>
    refine ⟨rfl, ?_, fun page cached idle => ?_⟩
    · unfold Reads
      rw [mine]
    · rw [mine] at cached
      cases cached
      cases idle
  | @through q catalog disk uncached full sound capacity gone others written =>
    -- the image was a copy of the page on disk, which is written over within the file
    obtain ⟨-, old, loads, image⟩ := stands.place.resolve_left fun cached => by
      rw [Pool.image?_eq_none_iff, cached] at uncached
      cases uncached
    obtain ⟨ref, known, read⟩ := loadable_eq_ok_iff.mp loads
    rw [writable_of_known h.keyed known] at written
    cases written
    rw [image, Table.size_of_read read] at size
    obtain ⟨same, back⟩ := Table.read_writeAt read size
    have catalog : s.catalog.update ref ((s.catalog.table ref).writeAt s.disk id.number bytes).1 =
        s.catalog := by rw [same, Catalog.update_table]
    refine ⟨catalog, ?_, fun page cached _ => ?_⟩
    · unfold Reads
      rw [gone]
      refine loadable_eq_ok_iff.mpr ⟨ref, known, ?_⟩
      rw [catalog]
      exact back
    · rw [gone] at cached
      cases cached

theorem Keeps.alters {u : Store} (first : s.Keeps t) (second : t.Alters tx id u) : s.Alters tx id u where
  guarded := second.guarded
  locks v other mode held := second.locks v other mode (first.locks v other mode held)
  owner other v now := (second.owner other v now).imp_left (first.owner other v)
  held := second.held
  nextTx := second.nextTx.trans first.nextTx
  catalog := first.catalog.trans second.catalog

/-- A page has been given new bytes, which it keeps. -/
def Edited (edit : Store → Bytes → Bytes → Prop) (id : PageId) (s s' : Store) : Prop :=
  ∃ t old new, s.Scouts t ∧ edit t old new ∧ s'.catalog = t.catalog ∧ s'.Firm id new

theorem Found.alters {edit : Store → Bytes → Bytes → Prop} (found : Found tx edit s id r s') :
    (keepDirty tx r).Ends s' fun answer t =>
      answer = .ok () ∧ s.Alters tx id t ∧ Edited edit id s t := by
  obtain ⟨t, bytes, scouts, stands, held, edited, size, rfl⟩ := found
  refine (change_ends scouts.guarded.pool stands tx bytes).mono fun answer u changed => ?_
  obtain ⟨rfl, alters⟩ := alters_of_changed scouts.guarded stands held changed
  obtain ⟨catalog, firm⟩ := firm_of_changed scouts.guarded stands size changed
  exact ⟨rfl, scouts.toKeeps.alters alters, t, _, bytes, scouts, edited, catalog, firm⟩

theorem insertRow_ends (h : s.Guarded) (tx : TxId) (table : TableId) (row : Row) :
    (insertRow tx table row).Ends s fun
      | .ok record => fun s' => s.Alters tx record.page s' ∧ ∃ ref, s.catalog.ref table = .ok ref ∧
          (s.catalog.table ref).checkSchema row = .ok () ∧
            Edited (Inserts ref row.values record) record.page s s'
      | .error e => fun s' => e = .crashed ∨ s.Keeps s' := by
  unfold insertRow
  rw [Action.ends_bind, Action.ends_get, Action.andThen, Action.ends_bind, Action.ends_ofCause]
  cases known : s.catalog.ref table with
  | error c => exact Or.inr (.refl h)
  | ok ref =>
    simp only [Action.mapError_ok, Action.andThen, Action.ends_bind]
    refine (placeRow_ends h ref tx row).mono ?_
    rintro (e | ⟨r, record⟩) u ⟨placed, checked⟩
    · exact placed
    · rw [Action.andThen, Action.ends_bind]
      refine (Found.alters placed).mono ?_
      rintro answer v ⟨rfl, alters, edited⟩
      exact ⟨alters, ref, rfl, checked _ rfl, edited⟩

theorem deleteRow_ends (h : s.Guarded) (tx : TxId) (record? : Option RecordId) :
    (deleteRow tx record?).Ends s fun
      | .ok _ => fun s' => ∃ record, record? = some record ∧ s.Alters tx record.page s' ∧
          ∃ ref, s.catalog.ref record.page.table = .ok ref ∧
            Edited (Removes ref record s) record.page s s'
      | .error e => fun s' => e = .crashed ∨ s.Keeps s' := by
  cases record? with
  | none => exact Or.inr (.refl h)
  | some record =>
    unfold deleteRow
    simp only
    rw [Action.ends_bind, Action.ends_get, Action.andThen, Action.ends_bind, Action.ends_ofCause]
    cases known : s.catalog.ref record.page.table with
    | error c => exact Or.inr (.refl h)
    | ok ref =>
      simp only [Action.mapError_ok, Action.andThen, Action.ends_bind]
      refine (clearSlot_ends h ref tx record).mono ?_
      rintro (e | r) u found
      · exact found
      · rw [Action.andThen]
        refine (Found.alters found).mono ?_
        rintro answer v ⟨rfl, alters, edited⟩
        exact ⟨record, rfl, alters, ref, known, edited⟩

end Store
end HeapStore
