import HeapStore.Proofs.Pooling

/-! What looking for a page or for a place comes to, under whatever locks there are: until bytes of a page
are changed, the locks that the transaction gets are all that others could notice, and an empty page if
there was no room on any other. -/
namespace HeapStore

namespace Locks

variable {l m n : Locks} {tx : TxId} {p : PageId} {mode : LockMode} {may may' : TxId → PageId → Prop}

/-- No lock was given back, and locks were granted only to such transactions on such pages. -/
structure Gains (may : TxId → PageId → Prop) (l m : Locks) : Prop where
  kept : ∀ u p k, l.Held u p k → m.Held u p k
  granted : ∀ u p k, m.Held u p k → l.Held u p k ∨ may u p
  sound : l.Sound → m.Sound

theorem Gains.refl (may : TxId → PageId → Prop) (l : Locks) : Gains may l l :=
  ⟨fun _ _ _ held => held, fun _ _ _ => Or.inl, fun sound => sound⟩

theorem Gains.trans (first : Gains may l m) (second : Gains may m n) : Gains may l n where
  kept u p k held := second.kept u p k (first.kept u p k held)
  granted u p k held := (second.granted u p k held).elim (first.granted u p k) Or.inr
  sound sound := second.sound (first.sound sound)

theorem Gains.mono (h : Gains may l m) (wider : ∀ u p, may u p → may' u p) : Gains may' l m :=
  ⟨h.kept, fun u p k held => (h.granted u p k held).imp_right (wider u p), h.sound⟩

theorem Gains.grows (h : Gains may l m) (own : ∀ u p, may u p → u = tx) : Grows tx l m :=
  ⟨h.kept, fun u p k held => (h.granted u p k held).imp_right (own u p)⟩

/-- One transaction and one page. -/
def Only (tx : TxId) (p : PageId) (u : TxId) (q : PageId) : Prop := u = tx ∧ q = p

theorem gains_of_acquire? (granted : l.acquire? p tx mode = some m) : Gains (Only tx p) l m where
  kept _ _ _ held := (held_of_acquire? granted).mpr (Or.inl held)
  granted _ _ _ held := ((held_of_acquire? granted).mp held).imp_right fun here => ⟨here.1, here.2.1⟩
  sound sound := sound.acquire? granted

end Locks

/-- A page is missing because its table is, or because it is not among the pages of its table. -/
theorem Catalog.cause_of_missing? {c : Catalog} {id : PageId} {e : Stop} (missing : c.missing? id = some e) :
    e = .crashed ∨ ∃ f, e = .failed f ∧
      (f.cause? = some (.unknownTable id.table) ∨ f.cause? = some (.noSuchPage id)) := by
  unfold missing? at missing
  split at missing
  · rename_i cause unknown
    cases missing
    cases eq_unknownTable_of_byId unknown
    exact Or.inr ⟨_, rfl, Or.inl rfl⟩
  · split at missing
    · cases missing
      exact Or.inl rfl
    · split at missing
      · cases missing
        exact Or.inr ⟨_, rfl, Or.inr rfl⟩
      · cases missing

namespace Store
open HeapStore.Action

variable {s t u : Store} {id : PageId} {tx : TxId} {r : PageRef} {ref : TableRef} {row : Row}
  {may may' : TxId → PageId → Prop}

theorem content_congr (catalog : t.catalog = s.catalog) (disk : t.disk = s.disk)
    (image : t.pool.image? id = s.pool.image? id) : t.content id = s.content id := by
  unfold content saved
  rw [catalog, disk, image]

/-- Pages were looked at, for which they may have come into the pool and clean ones may have left it. -/
structure Looked (may : TxId → PageId → Prop) (s t : Store) : Prop where
  pooled : t.Pooled
  rest : t = { s with pool := t.pool, locks := t.locks }
  owner : ∀ id, t.owner id = s.owner id
  content : ∀ id, t.content id = s.content id
  locks : s.locks.Gains may t.locks
  retains : s.pool.Retains t.pool
  pins : ∀ id r, s.pool.Pins id r → t.pool.Pins id r

theorem Looked.refl (h : s.Pooled) : s.Looked may s :=
  ⟨h, rfl, fun _ => rfl, fun _ => rfl, .refl may s.locks, .refl s.pool, fun _ _ pins => pins⟩

theorem Looked.trans (first : s.Looked may t) (second : t.Looked may u) : s.Looked may u where
  pooled := second.pooled
  rest := by rw [second.rest, first.rest]
  owner id := (second.owner id).trans (first.owner id)
  content id := (second.content id).trans (first.content id)
  locks := first.locks.trans second.locks
  retains := first.retains.trans second.retains
  pins id r pins := second.pins id r (first.pins id r pins)

theorem Looked.mono (h : s.Looked may t) (wider : ∀ u p, may u p → may' u p) : s.Looked may' t :=
  ⟨h.pooled, h.rest, h.owner, h.content, h.locks.mono wider, h.retains, h.pins⟩

theorem Looked.catalog (h : s.Looked may t) : t.catalog = s.catalog := by rw [h.rest]

theorem Looked.disk (h : s.Looked may t) : t.disk = s.disk := by rw [h.rest]

theorem Looked.settings (h : s.Looked may t) : t.settings = s.settings := by rw [h.rest]

/-- What a lock request comes to. -/
def Locked (tx : TxId) (id : PageId) (mode : LockMode) (s : Store) : Except Stop Unit → Store → Prop
  | .ok _, t => s.Looked (Locks.Only tx id) t ∧ t.locks.Held tx id mode
  | .error e, t => e = .crashed ∧ s.settings.hasDeadline = false ∨
      t = s ∧ e = .ofCause (.aborted tx) ∧ s.locks.acquire? id tx mode = none

theorem lock_ends (h : s.Pooled) (tx : TxId) (id : PageId) (mode : LockMode) :
    (lock tx id mode).Ends s (Locked tx id mode s) := by
  rw [ends_lock]
  split
  · split
    · rename_i locks granted
      have held : locks.Held tx id mode :=
        (Locks.held_of_acquire? granted).mpr (Or.inr ⟨rfl, rfl, rfl⟩)
      exact ⟨⟨h.withLocks locks, rfl, fun _ => rfl, fun _ => rfl, Locks.gains_of_acquire? granted,
        .refl s.pool, fun _ _ pins => pins⟩, held⟩
    · rename_i denied
      exact Or.inr ⟨rfl, rfl, denied⟩
  · rename_i endless
    exact Or.inl ⟨rfl, Bool.eq_false_iff.mpr endless⟩

/-- What fetching a page comes to. A failure is due to the page or to the pool. -/
def Fetches (id : PageId) (must : Bool) (s : Store) : Except Stop PageRef → Store → Prop
  | .ok r, t => t.Stands id r ∧ (must = true → t.pool.resident? id = some r)
  | .error e, _ => s.catalog.missing? id = some e ∨
      must = true ∧ e = .ofCause (.poolExhausted s.settings.poolPages)

theorem fetch_looks (h : s.Pooled) (id : PageId) (must : Bool) (may : TxId → PageId → Prop) :
    (fetch id must).Ends s fun answer t => s.Looked may t ∧ s.Fetches id must answer t := by
  refine ((fetch_ends h.sound id must).and (fetch_marks h.sound h.marked id must)).mono ?_
  rintro answer t ⟨fetched, marked⟩
  have recached := fetched.recached h.sound
  obtain ⟨locks, coherent⟩ := h.coherent
  have relocked := recached.withLocks locks
  have content := relocked.content coherent
  have kept : t.locks = s.locks := by rw [recached.rest]
  have looked : s.Looked may t := by
    refine ⟨⟨⟨locks, relocked.coherent coherent⟩, marked⟩, ?_, recached.owner, content,
      kept ▸ .refl may s.locks, fetched.retains, fun _ _ => fetched.pins⟩
    rw [recached.rest]
  refine ⟨looked, ?_⟩
  cases answer with
  | ok r =>
    refine ⟨fetched.stands h.sound, ?_⟩
    rintro rfl
    exact fetched.resident
  | error e =>
    cases fetched with
    | exhausted uncached needed full sheds sound => exact Or.inr ⟨needed, rfl⟩
    | missing uncached sheds sound unreadable =>
      rw [h.loadable_eq] at unreadable
      split at unreadable
      · rename_i missing
        cases unreadable
        exact Or.inl missing
      · cases unreadable

/-- What getting a page under a lock comes to. A lock that was granted is kept even if there is no such page. -/
def Obtains (tx : TxId) (id : PageId) (mode : LockMode) (must : Bool) (s : Store) :
    Except Stop PageRef → Store → Prop
  | .ok r, t => s.Looked (Locks.Only tx id) t ∧ t.locks.Held tx id mode ∧ t.Stands id r ∧
      (must = true → t.pool.resident? id = some r)
  | .error e, t => e = .crashed ∧ s.settings.hasDeadline = false ∨
      (t = s ∧ e = .ofCause (.aborted tx) ∧ s.locks.acquire? id tx mode = none) ∨
      s.Looked (Locks.Only tx id) t ∧ (s.catalog.missing? id = some e ∨
        must = true ∧ e = .ofCause (.poolExhausted s.settings.poolPages))

theorem lockedFetch_obtains (h : s.Pooled) (tx : TxId) (id : PageId) (mode : LockMode) (must : Bool) :
    Ends (do lock tx id mode; fetch id must) s (Obtains tx id mode must s) := by
  rw [ends_bind]
  refine (lock_ends h tx id mode).mono ?_
  rintro (e | _) t locked
  · exact locked.imp_right Or.inl
  · obtain ⟨locked, held⟩ := locked
    rw [andThen]
    refine (fetch_looks locked.pooled id must (Locks.Only tx id)).mono ?_
    rintro (e | r) u ⟨looked, fetches⟩
    · unfold Fetches at fetches
      rw [locked.catalog, locked.settings] at fetches
      exact Or.inr (Or.inr ⟨locked.trans looked, fetches⟩)
    · exact ⟨locked.trans looked, looked.locks.kept tx id mode held, fetches⟩

theorem getPageForUpdate_obtains (h : s.Pooled) (tx : TxId) (id : PageId) :
    (getPageForUpdate tx id).Ends s (Obtains tx id .exclusive false s) :=
  lockedFetch_obtains h tx id .exclusive false

theorem getPage_obtains (h : s.Pooled) (tx : TxId) (id : PageId) (mode : LockMode) :
    (getPage tx id mode).Ends s fun answer t =>
      (∀ handle, answer = .ok handle → handle.mode = mode) ∧
        Obtains tx id mode true s (answer.map Handle.ref) t := by
  have split : getPage tx id mode = do
      let r ← (do lock tx id mode; fetch id true)
      return ⟨r, mode⟩ := by
    simp only [getPage, bind_assoc]
  rw [split, ends_bind]
  refine (lockedFetch_obtains h tx id mode true).mono ?_
  rintro (e | r) t gets
  · exact ⟨fun _ never => (by cases never), gets⟩
  · refine ⟨?_, gets⟩
    rintro handle same
    cases same
    rfl

/-! Looking for a free slot -/

/-- The locks that a search for a place may come to: those of its transaction on pages that tables have. -/
def Within (tx : TxId) (s : Store) (u : TxId) (p : PageId) : Prop := u = tx ∧ s.catalog.Has p

theorem Looked.within (first : s.Looked (s.Within tx) t) (second : t.Looked (t.Within tx) u) :
    s.Looked (s.Within tx) u :=
  first.trans (second.mono fun _ _ own => ⟨own.1, first.catalog ▸ own.2⟩)

/-- The row was put on a page that has room for it. The image is not yet known to be changed. -/
def Seated (tx : TxId) (t : Table) (row : Row) (r : PageRef) (record : RecordId) (s s' : Store) : Prop :=
  ∃ v bytes, s.Looked (s.Within tx) v ∧ v.Stands record.page r ∧ v.locks.Held tx record.page .exclusive ∧
    record.page.table = t.id ∧
    t.layout.insert? (s.content record.page) row.values = some (some record.slot, bytes) ∧
    s' = { v with pool := v.pool.update r fun p => { p with bytes } }

theorem Seated.after {table : Table} {record : RecordId} (first : s.Looked (s.Within tx) t)
    (seated : Seated tx table row r record t u) : Seated tx table row r record s u := by
  obtain ⟨v, bytes, looked, stands, held, mine, inserted, rfl⟩ := seated
  rw [first.content] at inserted
  exact ⟨v, bytes, first.within looked, stands, held, mine, inserted, rfl⟩

/-- Pages without room that the transaction has come to hold. -/
def Crowded (tx : TxId) (t : Table) (first last : Nat) (s s' : Store) : Prop :=
  ∀ n, first ≤ n → n < last → t.layout.firstFree? (s.content ⟨t.id, n⟩) = none ∧
    s'.locks.Held tx ⟨t.id, n⟩ .exclusive

theorem Crowded.kept {table : Table} {first last : Nat} (crowded : Crowded tx table first last s t)
    (gains : t.locks.Gains may u.locks) : Crowded tx table first last s u := fun n above below =>
  ⟨(crowded n above below).1, gains.kept _ _ _ (crowded n above below).2⟩

/-- What a search among these pages of a table comes to. -/
def Tries (tx : TxId) (t : Table) (row : Row) (first last : Nat) (s : Store) :
    Except Stop (Option (PageRef × RecordId)) → Store → Prop
  | .ok (some (r, record)), s' => Seated tx t row r record s s' ∧ first ≤ record.page.number ∧
      record.page.number < last
  | .ok none, s' => s.Looked (s.Within tx) s' ∧ Crowded tx t first last s s'
  | .error e, s' => e = .crashed ∧ (s.settings.hasDeadline = false ∨
        ∃ n, first ≤ n ∧ n < last ∧ t.layout.insert? (s.content ⟨t.id, n⟩) row.values = none) ∨
      e = .ofCause (.aborted tx) ∧ s.Looked (s.Within tx) s' ∧
        ∃ n, first ≤ n ∧ n < last ∧ s'.locks.acquire? ⟨t.id, n⟩ tx .exclusive = none

theorem insertInto_tries (h : s.Pooled) (t : Table) (tx : TxId) (row : Row) {number : Nat}
    (has : s.catalog.Has ⟨t.id, number⟩) :
    (insertInto t tx row number).Ends s (Tries tx t row number (number + 1) s) := by
  have own : ∀ u p, Locks.Only tx ⟨t.id, number⟩ u p → s.Within tx u p := by
    rintro u p ⟨rfl, rfl⟩
    exact ⟨rfl, has⟩
  unfold insertInto
  rw [ends_bind]
  refine (getPageForUpdate_obtains h tx ⟨t.id, number⟩).mono ?_
  rintro (e | r) v gets
  · obtain ⟨crashed, endless⟩ | ⟨rfl, aborted, denied⟩ | ⟨looked, missing | ⟨never, -⟩⟩ := gets
    · exact Or.inl ⟨crashed, Or.inl endless⟩
    · exact Or.inr ⟨aborted, .refl h, number, Nat.le_refl _, Nat.lt_succ_self _, denied⟩
    · rw [Catalog.missing?_eq_none_iff.mpr has] at missing
      cases missing
    · cases never
  · obtain ⟨looked, held, stands, -⟩ := gets
    have bytes := looked.pooled.bytes_of_stands stands
    rw [looked.content] at bytes
    simp only [andThen, ends_bind, ends_page, ends_ofOption]
    cases inserted : t.layout.insert? (v.pool.page r).bytes row.values with
    | none =>
      rw [bytes] at inserted
      exact Or.inl ⟨rfl, Or.inr ⟨number, Nat.le_refl _, Nat.lt_succ_self _, inserted⟩⟩
    | some result =>
      rw [bytes] at inserted
      obtain ⟨_ | slot, new⟩ := result
      · refine ⟨looked.mono own, fun n above below => ?_⟩
        obtain rfl : n = number := by omega
        exact ⟨Layout.insert?_eq_none inserted, held⟩
      · exact ⟨⟨v, new, looked.mono own, stands, held, rfl, inserted, rfl⟩, Nat.le_refl _,
          Nat.lt_succ_self _⟩

theorem insertFrom_tries (h : s.Pooled) (t : Table) (tx : TxId) (row : Row) (count number : Nat)
    (has : ∀ n, number ≤ n → n < number + count → s.catalog.Has ⟨t.id, n⟩) :
    (insertFrom t tx row count number).Ends s (Tries tx t row number (number + count) s) := by
  induction count generalizing s number with
  | zero => exact ⟨.refl h, fun n above below => absurd above (Nat.not_le_of_lt below)⟩
  | succ count ih =>
    unfold insertFrom
    rw [ends_bind]
    refine (insertInto_tries h t tx row (has number (Nat.le_refl _) (by omega))).mono ?_
    rintro (e | place | ⟨r, record⟩) v tries
    · obtain ⟨crashed, endless | ⟨n, above, below, unfit⟩⟩ | ⟨aborted, looked, n, above, below, denied⟩ := tries
      · exact Or.inl ⟨crashed, Or.inl endless⟩
      · exact Or.inl ⟨crashed, Or.inr ⟨n, above, by omega, unfit⟩⟩
      · exact Or.inr ⟨aborted, looked, n, above, by omega, denied⟩
    · obtain ⟨looked, crowded⟩ := tries
      rw [andThen]
      refine (ih looked.pooled (number + 1) fun n above below => ?_).mono ?_
      · rw [looked.catalog]
        exact has n (by omega) (by omega)
      · rintro (e | place | ⟨r, record⟩) u later
        · obtain ⟨crashed, endless | ⟨n, above, below, unfit⟩⟩ | ⟨aborted, looked', n, above, below, denied⟩ :=
            later
          · exact Or.inl ⟨crashed, Or.inl (looked.settings ▸ endless)⟩
          · rw [looked.content] at unfit
            exact Or.inl ⟨crashed, Or.inr ⟨n, by omega, by omega, unfit⟩⟩
          · exact Or.inr ⟨aborted, looked.within looked', n, by omega, by omega, denied⟩
        · obtain ⟨looked', crowded'⟩ := later
          refine ⟨looked.within looked', fun n above below => ?_⟩
          by_cases here : n = number
          · obtain ⟨full, held⟩ := crowded n (by omega) (by omega)
            exact ⟨full, looked'.locks.kept _ _ _ held⟩
          · obtain ⟨full, held⟩ := crowded' n (by omega) (by omega)
            rw [looked.content] at full
            exact ⟨full, held⟩
        · obtain ⟨seated, above, below⟩ := later
          exact ⟨seated.after looked, by omega, by omega⟩
    · obtain ⟨seated, above, below⟩ := tries
      exact ⟨seated, above, by omega⟩

/-! Looking for a place -/

/-- A page that would be the next one of the table. -/
def nextPage (s : Store) (ref : TableRef) : PageId :=
  ⟨(s.catalog.table ref).id, (s.catalog.table ref).pages⟩

theorem Pooled.content_appended (h : s.Pooled) {i : TableId} (known : s.catalog.ref i = .ok ref)
    (id : PageId) : (s.appended ref).content id =
      if id = s.nextPage ref then .zeros (s.catalog.table ref).pageSize else s.content id := by
  obtain ⟨locks, coherent⟩ := h.coherent
  have content := content_append coherent known id
  exact content

theorem Pooled.has_appended (h : s.Pooled) {i : TableId} (known : s.catalog.ref i = .ok ref)
    (room : (s.catalog.table ref).Growable) :
    (s.appended ref).catalog.Has id ↔ s.catalog.Has id ∨ id = s.nextPage ref := by
  rw [catalog_appended]
  exact Catalog.has_extended h.keyed known room

theorem Pooled.has_of_lt (h : s.Pooled) {i : TableId} (known : s.catalog.ref i = .ok ref) {n : Nat}
    (below : n < (s.catalog.table ref).pages) : s.catalog.Has ⟨(s.catalog.table ref).id, n⟩ := by
  obtain ⟨-, key⟩ := h.keyed i ref known
  exact ⟨ref, by rw [key]; exact known, below⟩

/-- The pages of a table, and those that it does not have yet, are all of one size. -/
theorem Pooled.size_content_of_ref (h : s.Pooled) {i : TableId} (known : s.catalog.ref i = .ok ref) (n : Nat) :
    (s.content ⟨(s.catalog.table ref).id, n⟩).size = (s.catalog.table ref).pageSize := by
  obtain ⟨-, key⟩ := h.keyed i ref known
  obtain ⟨locks, coherent⟩ := h.coherent
  rw [key]
  let id : PageId := ⟨i, n⟩
  have own : s.catalog.ref id.table = .ok ref := known
  exact (coherent.size_content id).trans (size_saved own)

/-- An empty page is added in the same way whatever was looked at before. -/
theorem Looked.appended (looked : s.Looked (s.Within tx) t) (h : s.Pooled) {i : TableId}
    (known : s.catalog.ref i = .ok ref) (room : (s.catalog.table ref).Growable) :
    (s.appended ref).Looked ((s.appended ref).Within tx) (t.appended ref) := by
  have catalog := looked.catalog
  refine ⟨looked.pooled.append (catalog ▸ known) (catalog ▸ room), ?_, looked.owner, fun id => ?_, ?_,
    looked.retains, looked.pins⟩
  · rw [looked.rest]
    rfl
  · rw [h.content_appended known, looked.pooled.content_appended (catalog ▸ known), nextPage, nextPage,
      catalog, looked.content]
  · exact looked.locks.mono fun _ _ own => ⟨own.1, (h.has_appended known room).mpr (Or.inl own.2)⟩

/-- What the search for a place in a table comes to. A page that is added has room, so the search then ends
there. -/
inductive Places (tx : TxId) (ref : TableRef) (row : Row) (s : Store) :
    Except Stop (PageRef × RecordId) → Store → Prop where
  | crashed (t : Store) (why : s.settings.hasDeadline = false ∨ ¬(s.catalog.table ref).Growable ∨
        ∃ page : Bytes, page.size = (s.catalog.table ref).pageSize ∧
          (s.catalog.table ref).layout.insert? page row.values = none) :
      Places tx ref row s (.error .crashed) t
  | unfit {c : Cause} (unfit : c = .noFreeSlot (s.catalog.table ref).id ∨ ∃ detail, c = .schemaMismatch detail) :
      Places tx ref row s (.error (.ofCause c)) s
  | denied {t : Store} {n : Nat} (inside : n < (s.catalog.table ref).pages)
      (looked : s.Looked (s.Within tx) t)
      (denied : t.locks.acquire? ⟨(s.catalog.table ref).id, n⟩ tx .exclusive = none) :
      Places tx ref row s (.error (.ofCause (.aborted tx))) t
  | found {r : PageRef} {record : RecordId} {t : Store} (has : s.catalog.Has record.page)
      (seated : Seated tx (s.catalog.table ref) row r record s t) : Places tx ref row s (.ok (r, record)) t
  | deniedBeyond {t : Store} (room : (s.catalog.table ref).Growable)
      (crowded : Crowded tx (s.catalog.table ref) 0 (s.catalog.table ref).pages s t)
      (looked : (s.appended ref).Looked ((s.appended ref).Within tx) t)
      (denied : t.locks.acquire? (s.nextPage ref) tx .exclusive = none) :
      Places tx ref row s (.error (.ofCause (.aborted tx))) t
  | foundBeyond {r : PageRef} {record : RecordId} {t : Store} (room : (s.catalog.table ref).Growable)
      (crowded : Crowded tx (s.catalog.table ref) 0 (s.catalog.table ref).pages s t)
      (there : record.page = s.nextPage ref)
      (seated : Seated tx (s.catalog.table ref) row r record (s.appended ref) t) :
      Places tx ref row s (.ok (r, record)) t

/-- An empty page has room for the row, unless the transaction is kept from it. -/
theorem insertGrowing_appended (h : s.Pooled) {i : TableId} (known : s.catalog.ref i = .ok ref)
    (slots : (s.catalog.table ref).layout.slots ≠ 0) (room : (s.catalog.table ref).Growable)
    (crowded : Crowded tx (s.catalog.table ref) 0 (s.catalog.table ref).pages s t)
    (looked : s.Looked (s.Within tx) t) (appends : Nat) :
    (insertGrowing ref tx row appends (s.catalog.table ref).pages).Ends (t.appended ref)
      (Places tx ref row s) := by
  have catalog := looked.catalog
  have valid := (h.keyed i ref known).1
  have looked := looked.appended h known room
  have known' : (t.appended ref).catalog.ref i = .ok ref := by
    rw [catalog_appended, catalog]
    exact known
  have table : (t.appended ref).catalog.table ref = (s.catalog.table ref).extended := by
    rw [← catalog]
    exact table_appended (catalog ▸ valid)
  unfold insertGrowing
  rw [ends_bind, ends_get, andThen, table, ends_bind, Table.pages_extended room, Nat.add_sub_cancel_left]
  refine (insertFrom_tries looked.pooled _ tx row 1 _ fun n above below => ?_).mono ?_
  · rw [← table]
    exact looked.pooled.has_of_lt known' (by rw [table, Table.pages_extended room]; omega)
  · -- the one page that is tried is the new one
    have only : ∀ n, (s.catalog.table ref).pages ≤ n → n < (s.catalog.table ref).pages + 1 →
        (⟨(s.catalog.table ref).extended.id, n⟩ : PageId) = s.nextPage ref := by
      intro n above below
      obtain rfl : n = (s.catalog.table ref).pages := by omega
      rfl
    rintro (e | place | ⟨r, record⟩) u tries
    · obtain ⟨rfl, endless | ⟨n, above, below, unfit⟩⟩ | ⟨rfl, looked', n, above, below, denied⟩ := tries
      · exact .crashed u (Or.inl (looked.settings ▸ endless))
      · rw [only n above below, looked.content, h.content_appended known, if_pos rfl] at unfit
        exact .crashed u (Or.inr (Or.inr ⟨_, Bytes.size_zeros _, unfit⟩))
      · rw [only n above below] at denied
        exact .deniedBeyond room (crowded.kept looked'.locks) (looked.within looked') denied
    · obtain ⟨-, full⟩ := tries
      obtain ⟨full, -⟩ := full (s.catalog.table ref).pages (Nat.le_refl _) (Nat.lt_succ_self _)
      rw [only _ (Nat.le_refl _) (Nat.lt_succ_self _), looked.content, h.content_appended known,
        if_pos rfl] at full
      exact absurd full (Layout.firstFree?_zeros slots _)
    · obtain ⟨⟨v, bytes, looked', stands, held, mine, inserted, rfl⟩, above, below⟩ := tries
      have there : record.page = s.nextPage ref := by
        rw [← only _ above below, ← mine]
      refine .foundBeyond room (crowded.kept looked'.locks) there
        (Seated.after looked ⟨v, bytes, looked', stands, held, mine, inserted, rfl⟩)

theorem insertGrowing_places (h : s.Pooled) {i : TableId} (known : s.catalog.ref i = .ok ref)
    (slots : (s.catalog.table ref).layout.slots ≠ 0) (tx : TxId) (row : Row) (appends : Nat) :
    (insertGrowing ref tx row (appends + 1) 0).Ends s (Places tx ref row s) := by
  have has : ∀ n, 0 ≤ n → n < 0 + (s.catalog.table ref).pages →
      s.catalog.Has ⟨(s.catalog.table ref).id, n⟩ := by
    intro n _ below
    exact h.has_of_lt known (by omega)
  unfold insertGrowing
  rw [ends_bind, ends_get, andThen, ends_bind, Nat.sub_zero]
  refine (insertFrom_tries h _ tx row _ 0 has).mono ?_
  rw [Nat.zero_add] at has ⊢
  rintro (e | place | ⟨r, record⟩) t tries
  · obtain ⟨rfl, endless | ⟨n, -, inside, unfit⟩⟩ | ⟨rfl, looked, n, -, inside, denied⟩ := tries
    · exact .crashed t (Or.inl endless)
    · exact .crashed t (Or.inr (Or.inr ⟨_, h.size_content_of_ref known n, unfit⟩))
    · exact .denied inside looked denied
  · obtain ⟨looked, crowded⟩ := tries
    rw [andThen, Nat.zero_max]
    by_cases room : (s.catalog.table ref).Growable
    · have short : (t.catalog.table ref).pageSize < Bytes.limit := looked.catalog ▸ room.2.1
      rw [ends_bind, ends_appendPage, if_pos short]
      exact insertGrowing_appended h known slots room crowded looked appends
    · have catalog := looked.catalog
      have valid := (h.keyed i ref known).1
      have size := Table.pageSize_pos_of_slots slots
      rw [← catalog] at room valid size ⊢
      refine (appendGrowing_stuck valid size room (Nat.le_refl _)).mono ?_
      rintro answer u rfl
      exact .crashed u (Or.inr (Or.inl (catalog ▸ room)))
  · obtain ⟨seated, above, below⟩ := tries
    refine .found ?_ seated
    obtain ⟨v, bytes, looked, stands, held, mine, inserted, rfl⟩ := seated
    have page : record.page = ⟨(s.catalog.table ref).id, record.page.number⟩ := by rw [← mine]
    rw [page]
    exact has _ above below

theorem placeRow_places (h : s.Pooled) {i : TableId} (known : s.catalog.ref i = .ok ref) (tx : TxId)
    (row : Row) : (placeRow ref tx row).Ends s (Places tx ref row s) := by
  unfold placeRow
  rw [ends_bind, ends_get, andThen, ends_bind, ends_ofCause]
  cases checked : (s.catalog.table ref).checkSchema row with
  | error c =>
    unfold Table.checkSchema at checked
    split at checked
    · cases checked
    · cases checked
      exact .unfit (Or.inr ⟨_, rfl⟩)
  | ok fits =>
    simp only [mapError_ok, andThen]
    split
    · exact .unfit (Or.inl rfl)
    · rename_i slots
      exact insertGrowing_places h known slots tx row s.pool.capacity

/-- New bytes of a page are kept once they are known to be a change. -/
theorem Pooled.keeps (h : s.Pooled) (stands : s.Stands id r) {bytes : Bytes}
    (size : bytes.size = (s.pool.page r).bytes.size) (tx : TxId) :
    (keepDirty tx r).Ends { s with pool := s.pool.update r fun p => { p with bytes } } fun answer t =>
      answer = .ok () ∧ s.Adjusts tx t ∧ Changed s id tx bytes (.ok ()) t := by
  have marked : (s.pool.update r fun p => { p with bytes }).Marked := h.marked.update r _
  have sound : (s.pool.update r fun p => { p with bytes }).Sound := h.sound.update r rfl
  have valid : r < (s.pool.update r fun p => { p with bytes }).images.size := by
    rw [Pool.size_update]
    exact stands.valid
  refine ((keepDirty_ends (s := { s with pool := _ }) sound valid tx).and
    (keepDirty_marks (s := { s with pool := _ }) sound marked tx r)).mono ?_
  rintro answer t ⟨kept, marked⟩
  have changed := changed_of_kept h.sound stands kept
  obtain ⟨rfl, -⟩ := h.change_is_blind stands size changed
  have drafted : s.pool.Retains (s.pool.update r fun p => { p with bytes }) := Pool.retains_update _ _ rfl
  have retains := drafted.trans kept.retains
  have adjusts := h.changed stands size changed marked retains fun _ _ => pins_of_kept h.sound stands kept
  exact ⟨rfl, adjusts, changed⟩

theorem Seated.keeps {table : Table} {record : RecordId} (seated : Seated tx table row r record s t) :
    (keepDirty tx r).Ends t fun answer u => answer = .ok () ∧
      ∃ v bytes, s.Looked (s.Within tx) v ∧ v.Adjusts tx u ∧
        table.layout.insert? (s.content record.page) row.values = some (some record.slot, bytes) ∧
        ∀ id, u.content id = if id = record.page then bytes else s.content id := by
  obtain ⟨v, bytes, looked, stands, held, mine, inserted, rfl⟩ := seated
  have size := Layout.size_insert? inserted
  rw [← looked.content, ← looked.pooled.bytes_of_stands stands] at size
  refine (looked.pooled.keeps stands size tx).mono ?_
  rintro answer u ⟨rfl, adjusts, changed⟩
  refine ⟨rfl, v, bytes, looked, adjusts, inserted, fun id => ?_⟩
  rw [looked.pooled.content_of_changed stands size changed, looked.content]

/-! Looking for a row to remove -/

/-- What the search for a row that is to be removed comes to. The transaction may be left with a lock on a
page that does not exist. -/
def Clears (tx : TxId) (ref : TableRef) (record : RecordId) (s : Store) :
    Except Stop PageRef → Store → Prop
  | .ok r, s' => ∃ v bytes, s.Looked (Locks.Only tx record.page) v ∧ v.Stands record.page r ∧
      v.locks.Held tx record.page .exclusive ∧
      (s.catalog.table ref).layout.remove? (s.content record.page) record.slot = some (true, bytes) ∧
      s' = { v with pool := v.pool.update r fun p => { p with bytes } }
  | .error e, s' => e = .crashed ∨
      s' = s ∧ (e = .ofCause (.aborted tx) ∨ e = .ofCause (.noSuchRow record)) ∨
      s.Looked (Locks.Only tx record.page) s' ∧ (s.catalog.missing? record.page = some e ∨
        s.catalog.Has record.page ∧ e = .ofCause (.noSuchRow record))

theorem clearSlot_clears (h : s.Pooled) (ref : TableRef) (tx : TxId) (record : RecordId) :
    (clearSlot ref tx (some record)).Ends s (Clears tx ref record s) := by
  unfold clearSlot
  rw [ends_bind, ends_get]
  simp only [andThen]
  split
  · exact Or.inr (Or.inl ⟨rfl, Or.inr rfl⟩)
  · rw [ends_bind]
    refine (getPageForUpdate_obtains h tx record.page).mono ?_
    rintro (e | r) v gets
    · obtain ⟨crashed, -⟩ | ⟨rfl, aborted, -⟩ | ⟨looked, missing | ⟨never, -⟩⟩ := gets
      · exact Or.inl crashed
      · exact Or.inr (Or.inl ⟨rfl, Or.inl aborted⟩)
      · exact Or.inr (Or.inr ⟨looked, Or.inl missing⟩)
      · cases never
    · obtain ⟨looked, held, stands, -⟩ := gets
      have has := looked.pooled.has_of_stands stands
      rw [looked.catalog] at has
      have bytes := looked.pooled.bytes_of_stands stands
      rw [looked.content] at bytes
      simp only [andThen, ends_bind, ends_page, ends_ofOption]
      cases removed : (s.catalog.table ref).layout.remove? (v.pool.page r).bytes record.slot with
      | none => exact Or.inl rfl
      | some result =>
        rw [bytes] at removed
        obtain ⟨_ | _, new⟩ := result
        · exact Or.inr (Or.inr ⟨looked, Or.inr ⟨has, rfl⟩⟩)
        · exact ⟨v, new, looked, stands, held, removed, rfl⟩

theorem Clears.keeps {record : RecordId} (clears : Clears tx ref record s (.ok r) t) :
    (keepDirty tx r).Ends t fun answer u => answer = .ok () ∧
      ∃ v, s.Looked (Locks.Only tx record.page) v ∧ s.catalog.Has record.page ∧ v.Adjusts tx u := by
  obtain ⟨v, bytes, looked, stands, held, removed, rfl⟩ := clears
  have has := looked.pooled.has_of_stands stands
  have size := Layout.size_remove? removed
  rw [← looked.content, ← looked.pooled.bytes_of_stands stands] at size
  refine (looked.pooled.keeps stands size tx).mono ?_
  rintro answer u ⟨rfl, adjusts, -⟩
  exact ⟨rfl, v, looked, looked.catalog ▸ has, adjusts⟩

end Store
end HeapStore
