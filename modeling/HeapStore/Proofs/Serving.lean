import Mathlib.Data.List.Nodup
import Mathlib.Data.List.Perm.Subperm
import HeapStore.Proofs.Searching

/-! Requests to the pool, from transactions that run or have ended or never began, in any order. Whatever
they come to, the index tells what the frames hold, clean pages are as they are on disk, and a changed page
stays until it is written, taken back or dropped. -/
namespace HeapStore

/-- What can be asked of a store besides a scan. -/
inductive Request where
  | getPage (tx : TxId) (id : PageId) (mode : LockMode)
  | insert (tx : TxId) (table : TableId) (row : Row)
  | delete (tx : TxId) (record? : Option RecordId)
  | flushPage (id : PageId)
  | flushAll
  | flushDirtiedBy (tx : TxId)
  | discard (id : PageId)
  | release (tx : TxId) (id : PageId)
  | complete (tx : TxId) (commit : Bool)
  | addTable (t : NewTable)

namespace Request
open Store

def perform : Request → Action Unit
  | getPage tx id mode => do
    let _ ← Store.getPage tx id mode
    return ()
  | insert tx table row => do
    let _ ← insertRow tx table row
    return ()
  | delete tx record? => deleteRow tx record?
  | flushPage id => Store.flushPage id
  | flushAll => Store.flushAll
  | flushDirtiedBy tx => Store.flushDirtiedBy tx
  | discard id => Store.discard id
  | release tx id => releasePage tx id
  | complete tx commit => Store.complete tx commit
  | addTable t => do
    let _ ← t.perform
    return ()

/-- The transaction that the page it changes belongs to from then on. -/
def writer? : Request → Option TxId
  | insert tx _ _ | delete tx _ => some tx
  | _ => none

/-- The pages that need not stay changed. -/
def Settles (s : Store) : Request → PageId → Prop
  | flushPage id, other | discard id, other => other = id
  | flushAll, _ => True
  | flushDirtiedBy tx, other | complete tx _, other => s.owner other = some tx
  | _, _ => False

end Request

namespace Store
open HeapStore.Action

variable {s t : Store} {q : Request} {qs : List Request}

/-- Changed pages stay changed, but for those that may go. Whoever changes one takes it over. -/
structure Upholds (writer? : Option TxId) (goes : PageId → Prop) (s s' : Store) : Prop where
  pooled : s'.Pooled
  settings : s'.settings = s.settings
  catalog : s.catalog.Extends s'.catalog
  owner : ∀ id u, s.owner id = some u →
    goes id ∨ ∃ v, s'.owner id = some v ∧ (v = u ∨ writer? = some v)

variable {u : Store} {writer? : Option TxId} {goes : PageId → Prop}

theorem Upholds.after (later : t.Upholds writer? goes u) (settings : t.settings = s.settings)
    (catalog : s.catalog.Extends t.catalog) (owner : ∀ id, t.owner id = s.owner id) :
    s.Upholds writer? goes u :=
  ⟨later.pooled, later.settings.trans settings, catalog.trans later.catalog,
    fun id v owned => later.owner id v ((owner id).trans owned)⟩

theorem Upholds.refl (h : s.Pooled) : s.Upholds writer? goes s :=
  ⟨h, rfl, .refl _, fun _ u owned => Or.inr ⟨u, owned, Or.inl rfl⟩⟩

theorem Upholds.withLocks (h : s.Upholds writer? goes t) (locks : Locks) :
    s.Upholds writer? goes { t with locks } :=
  ⟨h.pooled.withLocks locks, h.settings, h.catalog, h.owner⟩

theorem Looked.then_upholds {may : TxId → PageId → Prop} (looked : s.Looked may t)
    (later : t.Upholds writer? goes u) : s.Upholds writer? goes u :=
  later.after looked.settings (looked.catalog ▸ .refl _) looked.owner

theorem Looked.upholds {may : TxId → PageId → Prop} (looked : s.Looked may t) :
    s.Upholds writer? goes t :=
  looked.then_upholds (.refl looked.pooled)

theorem Adjusts.upholds {tx : TxId} (adjusts : s.Adjusts tx t) : s.Upholds (some tx) goes t where
  pooled := adjusts.pooled
  settings := adjusts.settings
  catalog := adjusts.catalog ▸ .refl _
  owner id u owned := by
    obtain ⟨v, mine, whose⟩ := adjusts.owner id u owned
    exact Or.inr ⟨v, mine, whose.imp_right fun same => congrArg some same.symm⟩

theorem Upholds.after_append {ref : TableRef} (later : (s.appended ref).Upholds writer? goes u) :
    s.Upholds writer? goes u :=
  later.after rfl (Catalog.extends_update ref rfl) fun _ => rfl

theorem insertRow_upholds (h : s.Pooled) (tx : TxId) (table : TableId) (row : Row) :
    (insertRow tx table row).Ends s fun answer t =>
      answer = .error .crashed ∨ s.Upholds (some tx) goes t := by
  unfold insertRow
  rw [ends_bind, ends_get, andThen, ends_bind, ends_ofCause]
  cases known : s.catalog.ref table with
  | error c => exact Or.inr (.refl h)
  | ok ref =>
    simp only [mapError_ok, andThen, ends_bind]
    refine (placeRow_places h known tx row).mono ?_
    rintro answer t places
    cases places with
    | crashed => exact Or.inl rfl
    | unfit => exact Or.inr (.refl h)
    | denied inside looked denied => exact Or.inr looked.upholds
    | deniedBeyond room crowded looked denied => exact Or.inr looked.upholds.after_append
    | found has seated =>
      rw [andThen, ends_bind]
      refine seated.keeps.mono ?_
      rintro answer u ⟨rfl, v, -, looked, adjusts, -⟩
      exact Or.inr (looked.then_upholds adjusts.upholds)
    | foundBeyond room crowded there seated =>
      rw [andThen, ends_bind]
      refine seated.keeps.mono ?_
      rintro answer u ⟨rfl, v, -, looked, adjusts, -⟩
      exact Or.inr (looked.then_upholds adjusts.upholds).after_append

theorem deleteRow_upholds (h : s.Pooled) (tx : TxId) (record? : Option RecordId) :
    (deleteRow tx record?).Ends s fun answer t =>
      answer = .error .crashed ∨ s.Upholds (some tx) goes t := by
  cases record? with
  | none => exact Or.inr (.refl h)
  | some record =>
    unfold deleteRow
    dsimp only
    rw [ends_bind, ends_get, andThen, ends_bind, ends_ofCause]
    cases s.catalog.ref record.page.table with
    | error c => exact Or.inr (.refl h)
    | ok ref =>
      simp only [mapError_ok, andThen, ends_bind]
      refine (clearSlot_clears h ref tx record).mono ?_
      rintro (e | r) t clears
      · obtain rfl | ⟨rfl, -⟩ | ⟨looked, -⟩ := clears
        · exact Or.inl rfl
        · exact Or.inr (.refl h)
        · exact Or.inr looked.upholds
      · rw [andThen]
        refine clears.keeps.mono ?_
        rintro answer u ⟨rfl, v, looked, -, adjusts⟩
        exact Or.inr (looked.then_upholds adjusts.upholds)

theorem getPage_upholds (h : s.Pooled) (tx : TxId) (id : PageId) (mode : LockMode) :
    (getPage tx id mode).Ends s fun answer t =>
      answer = .error .crashed ∨ s.Upholds writer? goes t := by
  refine (getPage_obtains h tx id mode).mono ?_
  rintro (e | handle) t ⟨-, gets⟩
  · obtain ⟨rfl, -⟩ | ⟨rfl, -⟩ | ⟨looked, -⟩ := gets
    · exact Or.inl rfl
    · exact Or.inr (.refl h)
    · exact Or.inr looked.upholds
  · exact Or.inr gets.1.upholds

/-- Pages that are on disk now may be clean. The others are as before. -/
theorem Lands.upholds {may : (PageId → Prop) → (PageId → Bytes) → Prop} (lands : s.Lands may t)
    (allowed : ∀ p b, may p b → ∀ id, p id → goes id) : s.Upholds writer? goes t := by
  have settings := lands.settings
  have catalog := lands.catalog
  obtain ⟨-, pooled, -, locks, p, b, why, landed⟩ := lands
  refine ⟨pooled, settings, catalog ▸ .refl _, fun id u owned => ?_⟩
  by_cases taken : p id
  · exact Or.inl (allowed p b why id taken)
  · exact Or.inr ⟨u, (landed.others id taken).1.trans owned, Or.inl rfl⟩

/-- What a request leaves behind, also if it fails. There is nothing behind a crash. -/
def serve (s : Store) (q : Request) : Option Store :=
  match q.perform s with
  | .ok _ t => some t
  | .error (.failed _) t => some t
  | .error .crashed _ => none

theorem serve_eq_some {P : Store → Prop}
    (ends : q.perform.Ends s fun answer t => answer = .error .crashed ∨ P t)
    (served : s.serve q = some t) : P t := by
  unfold serve at served
  cases performed : q.perform s with
  | ok a u =>
    rw [performed] at served
    cases served
    exact (ends.of_ok performed).resolve_left (by simp)
  | error e u =>
    rw [performed] at served
    cases e with
    | failed f =>
      cases served
      exact (ends.of_error performed).resolve_left (by simp)
    | crashed => cases served

theorem ends_forget {α : Type} {x : Action α} {P : Store → Prop}
    (h : x.Ends s fun answer t => answer = .error .crashed ∨ P t) :
    Ends (do let _ ← x; return ()) s fun answer t => answer = .error .crashed ∨ P t := by
  rw [ends_bind]
  refine h.mono ?_
  rintro (e | a) t held
  · exact held.imp_left fun crashed => by cases crashed; rfl
  · exact Or.inr (held.resolve_left (by simp))

theorem complete_upholds (h : s.Pooled) (tx : TxId) (commit : Bool) {writer? : Option TxId} :
    (complete tx commit).Ends s fun _ => s.Upholds writer? fun id => s.owner id = some tx := by
  refine (complete_lands h tx commit).mono ?_
  rintro answer t ⟨-, u, lands, rfl⟩
  refine (lands.upholds ?_).withLocks _
  rintro p b ⟨rfl, -⟩ id owned
  exact owned

theorem addTable_upholds (h : s.Pooled) (table : NewTable) {writer? : Option TxId} {goes : PageId → Prop} :
    table.perform.Ends s fun _ t => t.catalog.Distinct → s.Upholds writer? goes t := by
  obtain ⟨locks, coherent⟩ := h.coherent
  have adding := adding_opened { s with locks }
  refine (newTable_adds (P := fun t => t.pool = s.pool ∧ s.catalog.Extends t.catalog ∧
    Opened { s with locks } { t with locks }) ⟨?_, ?_, ?_⟩ ⟨rfl, .refl _, .refl coherent⟩ table).mono ?_
  · rintro t ⟨pool, catalog, opened⟩
    exact ⟨pool, ⟨catalog.size, catalog.table⟩, adding.allocated _ opened⟩
  · rintro t file ⟨pool, catalog, opened⟩ absent
    exact ⟨pool, catalog, adding.made { t with locks } file opened absent⟩
  · rintro t new name key ⟨pool, catalog, opened⟩ backed nameable
    exact ⟨pool, catalog.trans (Catalog.extends_add _ _ _ _),
      adding.registered { t with locks } new name key opened backed nameable⟩
  · rintro answer t ⟨pool, catalog, opened⟩ distinct
    have settings : t.settings = s.settings := (congrArg Store.settings opened.rest :)
    refine ⟨⟨⟨locks, opened.coherent distinct⟩, pool ▸ h.marked⟩, settings, catalog, fun id u owned => ?_⟩
    exact Or.inr ⟨u, by rw [owner, pool]; exact owned, Or.inl rfl⟩

/-- Whatever is asked, the pool stays as it should be, and changed pages stay changed unless they are
written, taken back or dropped. -/
theorem serve_upholds (h : s.Pooled) (served : s.serve q = some t) (distinct : t.catalog.Distinct) :
    s.Upholds q.writer? (q.Settles s) t := by
  revert distinct
  refine serve_eq_some (P := fun t => t.catalog.Distinct → s.Upholds q.writer? (q.Settles s) t) ?_ served
  have always : ∀ {x : Action Unit}, x.Ends s (fun _ => s.Upholds q.writer? (q.Settles s)) →
      x.Ends s fun answer t => answer = .error .crashed ∨
        (t.catalog.Distinct → s.Upholds q.writer? (q.Settles s) t) :=
    fun ends => ends.mono fun _ _ upholds => Or.inr fun _ => upholds
  cases q with
  | getPage tx id mode =>
    exact ends_forget ((getPage_upholds h tx id mode).mono fun _ _ => Or.imp_right fun upholds _ => upholds)
  | insert tx table row =>
    exact ends_forget ((insertRow_upholds h tx table row).mono fun _ _ => Or.imp_right fun upholds _ =>
      upholds)
  | delete tx record? =>
    exact (deleteRow_upholds h tx record?).mono fun _ _ => Or.imp_right fun upholds _ => upholds
  | flushPage id =>
    refine always ((flushPage_lands_pooled h id).mono fun _ _ done => done.2.upholds ?_)
    exact fun p b why => why.1
  | flushAll =>
    refine always ((flushAll_lands_pooled h).mono fun _ _ done => done.2.upholds ?_)
    exact fun _ _ _ _ _ => trivial
  | flushDirtiedBy tx =>
    refine always ((flushDirtiedBy_lands_pooled h tx).mono fun _ _ done => done.2.upholds ?_)
    rintro p b ⟨rfl, -⟩ id owned
    exact owned
  | discard id =>
    refine Or.inr fun _ => (discard_lands_pooled h id).upholds ?_
    rintro p b ⟨rfl, -⟩ other here
    exact here
  | release tx id => exact Or.inr fun _ => (Upholds.refl h).withLocks _
  | complete tx commit => exact always (complete_upholds h tx commit)
  | addTable table =>
    exact ends_forget ((addTable_upholds h table).mono fun _ _ upholds => Or.inr upholds)

/-- The store after some requests, with no two tables sharing an id or a file at any time. -/
def serveAll (s : Store) (qs : List Request) : Option Store :=
  qs.foldlM (fun s q => (s.serve q).filter fun t => t.catalog.Distinct) s

theorem serveAll_pooled (h : s.Pooled) (served : s.serveAll qs = some t) :
    t.Pooled ∧ t.settings = s.settings := by
  induction qs generalizing s with
  | nil =>
    cases served
    exact ⟨h, rfl⟩
  | cons q qs ih =>
    rw [serveAll, List.foldlM_cons, Option.bind_eq_bind, Option.bind_eq_some_iff] at served
    obtain ⟨u, first, later⟩ := served
    obtain ⟨first, distinct⟩ := Option.filter_eq_some_iff.mp first
    have upholds := serve_upholds h first (of_decide_eq_true distinct)
    obtain ⟨pooled, settings⟩ := ih upholds.pooled later
    exact ⟨pooled, settings.trans upholds.settings⟩

end Store

/-- Different pages have different frames. -/
theorem Pool.Sound.cachedPages_le {p : Pool} (h : p.Sound) : p.cachedPages ≤ p.capacity := by
  have frame : ∀ id ∈ p.frameOf.keys, ∃ f, p.frameOf[id]? = some f := by
    intro id listed
    exact Option.isSome_iff_exists.mp (Std.ExtTreeMap.mem_iff_isSome_getElem?.mp
      (Std.ExtTreeMap.mem_keys.mp listed))
  have once : (p.frameOf.keys.map fun id => p.frameOf[id]?.getD 0).Nodup := by
    refine List.Nodup.map_on (fun id listed id' listed' same => ?_) Std.ExtTreeMap.nodup_keys
    obtain ⟨f, here⟩ := frame id listed
    obtain ⟨f', here'⟩ := frame id' listed'
    rw [here, here'] at same
    cases same
    obtain ⟨r, inside, rfl⟩ := (h.index _ _).mp here
    obtain ⟨r', inside', rfl⟩ := (h.index _ _).mp here'
    rw [inside] at inside'
    cases inside'
    rfl
  have subset : (p.frameOf.keys.map fun id => p.frameOf[id]?.getD 0) ⊆ List.range p.frames.size := by
    intro f listed
    obtain ⟨id, key, rfl⟩ := List.mem_map.mp listed
    obtain ⟨f, here⟩ := frame id key
    obtain ⟨r, inside, -⟩ := (h.index _ _).mp here
    rw [here]
    exact List.mem_range.mpr (lt_of_inFrame? inside)
  have fits := (once.subperm subset).length_le
  rw [List.length_map, Std.ExtTreeMap.length_keys, List.length_range] at fits
  exact Nat.le_trans fits h.room

namespace Store
open HeapStore.Action

variable {s t : Store} {q : Request} {qs : List Request} {settings : Settings} {disk : Disk}

/-- The index and the frames are inverse to each other, so that no page is cached twice, only frames in use
are marked, and clean pages are as they are on disk. -/
structure Tidy (s : Store) : Prop where
  index : ∀ id f, s.pool.frameOf[id]? = some f ↔
    ∃ r, s.pool.inFrame? f = some r ∧ (s.pool.page r).id = id
  once : ∀ f f' r r', s.pool.inFrame? f = some r → s.pool.inFrame? f' = some r' →
    (s.pool.page r).id = (s.pool.page r').id → f = f'
  fits : s.pool.cachedPages ≤ s.settings.poolPages
  marked : ∀ f, s.pool.clock.bit f = true → ∃ r, s.pool.inFrame? f = some r
  clean : ∀ f r, s.pool.inFrame? f = some r → (s.pool.page r).dirtiedBy = none →
    s.onDisk (s.pool.page r).id = .ok (s.pool.page r).bytes

theorem Pooled.tidy (h : s.Pooled) : s.Tidy := by
  obtain ⟨locks, coherent⟩ := h.coherent
  refine ⟨h.sound.index, ?_, coherent.capacity ▸ h.sound.cachedPages_le, h.marked, ?_⟩
  · intro f f' r r' here here' same
    have first := (h.sound.index (s.pool.page r).id f).mpr ⟨r, here, rfl⟩
    rw [same, (h.sound.index (s.pool.page r').id f').mpr ⟨r', here', rfl⟩] at first
    exact (Option.some.inj first).symm
  · intro f r here clean
    have cached := image?_of_resident (h.sound.resident?_of_inFrame? here)
    have same : (s.pool.page r).bytes = _ := coherent.clean _ _ cached clean
    rw [same]
    exact coherent.onDisk_eq (coherent.has _ _ cached)

/-- In whatever order requests are served, and whether they fail or not, the pool stays tidy, and a page that
was changed stays so until it is written, taken back or dropped. -/
theorem pool_tidy_and_changes_stay (served : (Store.new settings disk).serveAll qs = some s) :
    s.Tidy ∧ s.settings = settings ∧
      ∀ q t, s.serve q = some t → t.catalog.Distinct →
        ∀ id u, s.owner id = some u → ¬q.Settles s id →
          ∃ v, t.owner id = some v ∧ (v = u ∨ q.writer? = some v) := by
  obtain ⟨pooled, settings⟩ := serveAll_pooled (pooled_new settings disk) served
  refine ⟨pooled.tidy, settings, fun q t served distinct id u owned stays => ?_⟩
  exact ((serve_upholds pooled served distinct).owner id u owned).resolve_left stays

/-- A page that one transaction has changed and given back is taken over by the next one. -/
theorem changes_stay_taken_over :
    let schema : Schema := ⟨[⟨.integer, some "n"⟩]⟩
    let insert (tx : TxId) (n : Int32) : Request := .insert tx 1 ⟨schema, [.integer n], none⟩
    ∃ s t, (Store.new { pageSize := 16, poolPages := 1 }).serveAll
        [.addTable (.create "odd" "odd" schema "n"), insert 1 7, .getPage 2 ⟨1, 0⟩ .shared,
          .release 1 ⟨1, 0⟩] = some s ∧
      s.Tidy ∧ s.pool.cachedPages = 1 ∧ s.owner ⟨1, 0⟩ = some 1 ∧
      s.serve (insert 2 8) = some t ∧ t.owner ⟨1, 0⟩ = some 2 ∧
      ∃ v, t.owner ⟨1, 0⟩ = some v ∧ (v = 1 ∨ (insert 2 8).writer? = some v) := by
  intro schema insert
  have facts : ((Store.new { pageSize := 16, poolPages := 1 }).serveAll
      [.addTable (.create "odd" "odd" schema "n"), insert 1 7, .getPage 2 ⟨1, 0⟩ .shared,
        .release 1 ⟨1, 0⟩]).any (fun s => s.pool.cachedPages = 1 ∧ s.owner ⟨1, 0⟩ = some 1 ∧
          (s.serve (insert 2 8)).any (fun t => t.catalog.Distinct ∧ t.owner ⟨1, 0⟩ = some 2) = true) =
      true := by
    decide +kernel
  obtain ⟨s, served, facts⟩ := (Option.any_eq_true _ _).mp facts
  obtain ⟨cached, owned, facts⟩ := of_decide_eq_true facts
  obtain ⟨t, later, facts⟩ := (Option.any_eq_true _ _).mp facts
  obtain ⟨distinct, taken⟩ := of_decide_eq_true facts
  obtain ⟨tidy, -, stay⟩ := pool_tidy_and_changes_stay served
  exact ⟨s, t, served, tidy, cached, owned, later, taken, stay _ t later distinct _ 1 owned id⟩

end Store
end HeapStore
