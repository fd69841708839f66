import HeapStore.Proofs.Granting
import HeapStore.Proofs.Searching
import HeapStore.Proofs.Serving

/-! Calls on a store, in any order and by any transactions: requests to the pool, steps of scans, and
writes through page handles that were got at some time before. -/
namespace HeapStore

namespace Store
open HeapStore.Action

variable {s t u : Store} {r : ScanRef} {sc : Scan} {h : Handle} {off : Nat} {new : Bytes} {tx : TxId}

/-- Writes through a handle and says whose change it is. -/
def writeMarked (h : Handle) (off : Nat) (new : Bytes) (tx : TxId) : Action Unit := do
  overwrite h off new
  mark h.ref (some tx)

end Store

/-- The answer is a failure, but not that of a lock that was denied. -/
def Missed {α : Type} (answer : Except Stop α) : Prop :=
  ∃ f, answer = .error (.failed f) ∧ f.isAborted = false

/-- What can be done with a store. -/
inductive Call where
  | serve (q : Request)
  | scan (tx : TxId) (table : TableId)
  | iterate (r : ScanRef) (step : ScanStep)
  | write (h : Handle) (off : Nat) (new : Bytes) (tx : TxId)

namespace Call
open Store

def perform : Call → Action Answer
  | serve q => do
    q.perform
    return .done
  | scan tx table => do
    let _ ← newScan tx table
    return .done
  | iterate r step => step.perform r
  | write h off new tx => do
    writeMarked h off new tx
    return .done

/-- The locks that the call gives back. -/
def Frees : Call → TxId → PageId → Prop
  | serve (.release tx id), u, p => Locks.Only tx id u p
  | serve (.complete tx _), u, _ => u = tx
  | _, _, _ => False

/-- Pages are neither written to disk for the sake of it nor taken back. -/
def Keeps : Call → Prop
  | serve (.flushPage _) | serve .flushAll | serve (.flushDirtiedBy _) => False
  | serve (.discard _) | serve (.complete _ _) => False
  | _ => True

/-- The page that is asked for whether it is there or not, and who asks. -/
def asks? : Call → Option (TxId × PageId)
  | serve (.getPage tx id _) => some (tx, id)
  | serve (.delete tx (some record)) => some (tx, record.page)
  | _ => none

end Call

namespace Store
open HeapStore.Action

variable {s t u : Store} {r : ScanRef} {sc : Scan} {h : Handle} {off : Nat} {new : Bytes} {tx : TxId}
  {c : Call} {reply : Reply} {past since : List (Call × Reply)}

/-- The store after some calls that are answered like this, with no two tables sharing an id or a file at
any time. -/
def follow (s : Store) (past : List (Call × Reply)) : Option Store :=
  past.foldlM (fun s told => match Session.settle told.1.perform s with
    | some (reply, t) => if reply = told.2 ∧ t.catalog.Distinct then some t else none
    | none => none) s

theorem follow_cons_iff : s.follow ((c, reply) :: past) = some u ↔
    ∃ t, Session.settle c.perform s = some (reply, t) ∧ t.catalog.Distinct ∧ t.follow past = some u := by
  unfold follow
  rw [List.foldlM_cons, Option.bind_eq_bind, Option.bind_eq_some_iff]
  constructor
  · rintro ⟨t, called, later⟩
    split at called
    · rename_i told t' settled
      obtain ⟨⟨rfl, distinct⟩, same⟩ := Option.ite_none_right_eq_some.mp called
      cases same
      exact ⟨t, settled, distinct, later⟩
    · cases called
  · rintro ⟨t, settled, distinct, later⟩
    refine ⟨t, ?_, later⟩
    rw [settled]
    exact if_pos ⟨rfl, distinct⟩

/-! Scans -/

theorem ends_scan (r : ScanRef) (Q : Except Stop Scan → Store → Prop) :
    (scan r).Ends s Q ↔ Q (.ok (s.scans.getD r default)) s := Iff.rfl

theorem ends_setScan (r : ScanRef) (sc : Scan) (Q : Except Stop Unit → Store → Prop) :
    (setScan r sc).Ends s Q ↔ Q (.ok ()) { s with scans := s.scans.setIfInBounds r sc } := Iff.rfl

theorem ends_pageCount (sc : Scan) (Q : Except Stop Nat → Store → Prop)
    (crashed : Q (.error .crashed) s) (counted : Q (.ok (s.catalog.table sc.table).pages) s) :
    (pageCount sc).Ends s Q := by
  unfold pageCount
  rw [ends_bind, ends_get, andThen, ends_ofOption, Table.pageCount?]
  split
  · exact crashed
  · exact counted

/-- A relation that scans keep to: it covers getting a page that some table has, and any move of a scan. -/
structure Walks (R : Store → Store → Prop) : Prop where
  refl : ∀ s, R s s
  trans : ∀ {s t u}, R s t → R t u → R s u
  moves : ∀ s scans, R s { s with scans }
  gets : ∀ s tx id, s.catalog.Lists id → (getPage tx id .shared).Ends s fun answer t =>
    answer = .error .crashed ∨ R s t

variable {R : Store → Store → Prop}

theorem Walks.bind {α β : Type} {x : Action α} {f : α → Action β} (walks : Walks R) (first : Respects R x)
    (later : ∀ a, Respects R (f a)) : Respects R (x >>= f) :=
  respects_bind (R := R) walks.trans first later

theorem Walks.scan (walks : Walks R) (r : ScanRef) : Respects R (scan r) :=
  fun s => Or.inr (walks.refl s)

theorem Walks.setScan (walks : Walks R) (r : ScanRef) (sc : Scan) : Respects R (setScan r sc) :=
  fun s => Or.inr (walks.moves s _)

/-- Only pages of the table are fetched. -/
theorem Walks.fetchRows (walks : Walks R) {number : Nat}
    (inside : number < (s.catalog.table sc.table).pages) :
    (fetchRows sc number).Ends s fun answer t => answer = .error .crashed ∨ R s t := by
  unfold Store.fetchRows
  rw [ends_bind, ends_get, andThen, ends_bind]
  refine (walks.gets s sc.tx ⟨(s.catalog.table sc.table).id, number⟩ ⟨sc.table, rfl, inside⟩).mono ?_
  rintro (e | handle) t got
  · exact got.imp_left fun crashed => by cases crashed; rfl
  · simp only [andThen, ends_bind, ends_page, ends_ofOption]
    exact Or.inr (got.resolve_left (by simp))

/-- The scan goes to a page of its table and takes its rows. -/
theorem Walks.turn (walks : Walks R) (sc : Scan) {number : Nat}
    (inside : number < (s.catalog.table sc.table).pages) (r : ScanRef) :
    Ends (do Store.setScan r { sc with rest := some (← Store.fetchRows sc number) }) s fun answer t =>
      answer = .error .crashed ∨ R s t := by
  rw [ends_bind]
  refine (walks.fetchRows inside).mono ?_
  rintro (e | rows) t fetched
  · exact fetched.imp_left fun crashed => by cases crashed; rfl
  · rw [andThen, ends_setScan]
    exact Or.inr (walks.trans (fetched.resolve_left (by simp)) (walks.moves t _))

theorem Walks.openScan (walks : Walks R) (r : ScanRef) : Respects R (openScan r) := by
  refine walks.bind (walks.scan r) fun sc =>
    walks.bind (walks.setScan r _) fun _ s => ?_
  rw [ends_bind]
  refine ends_pageCount _ _ (Or.inl rfl) ?_
  rw [andThen]
  split
  · exact Or.inr (walks.moves s _)
  · rename_i paged
    exact walks.turn { sc with page := 0 } (Nat.pos_of_ne_zero paged) r

theorem Walks.seek (walks : Walks R) (r : ScanRef) (fuel : Nat) : Respects R (seek r fuel) := by
  induction fuel with
  | zero => exact respects_pure walks.refl _
  | succ fuel ih =>
    refine walks.bind (walks.scan r) fun sc s => ?_
    split
    · exact Or.inr (walks.refl s)
    · exact Or.inr (walks.refl s)
    · rw [ends_bind]
      refine ends_pageCount _ _ (Or.inl rfl) ?_
      rw [andThen]
      split
      · exact Or.inr (walks.refl s)
      · rename_i more
        let next : Scan := { sc with page := sc.page + 1 }
        have moved := walks.moves s (s.scans.setIfInBounds r next)
        rw [ends_bind, ends_setScan, andThen, ← bind_assoc, ends_bind]
        refine (walks.turn (s := { s with scans := s.scans.setIfInBounds r next }) next
          (Nat.lt_of_not_le more) r).mono ?_
        rintro (e | _) t turned
        · exact turned.imp (fun crashed => by cases crashed; rfl) (walks.trans moved)
        · have turned := walks.trans moved (turned.resolve_left (by simp))
          exact (ih t).mono fun _ _ => Or.imp_right (walks.trans turned)

theorem Walks.hasNext (walks : Walks R) (r : ScanRef) : Respects R (hasNext r) :=
  walks.bind (walks.scan r) fun _ =>
    walks.bind (respects_get walks.refl) fun _ => walks.seek r _

theorem Walks.nextRow (walks : Walks R) (r : ScanRef) : Respects R (nextRow r) := by
  refine walks.bind (walks.hasNext r) fun more => ?_
  split
  · refine walks.bind (walks.scan r) fun sc => ?_
    split
    · exact walks.bind (walks.setScan r _) fun _ => respects_pure walks.refl _
    · exact respects_stop walks.refl _
  · exact respects_stop walks.refl _

theorem Walks.closeScan (walks : Walks R) (r : ScanRef) : Respects R (closeScan r) :=
  walks.bind (walks.scan r) fun _ => walks.setScan r _

theorem Walks.newScan (walks : Walks R) (tx : TxId) (table : TableId) : Respects R (newScan tx table) :=
  walks.bind (respects_get walks.refl) fun _ => walks.bind (respects_ofCause walks.refl _) fun _ s =>
    Or.inr (walks.moves s _)

theorem Walks.perform (walks : Walks R) (r : ScanRef) (step : ScanStep) : Respects R (step.perform r) := by
  have told {α : Type} {x : Action α} (first : Respects R x) (f : α → Answer) :
      Respects R (do return f (← x)) :=
    walks.bind first fun _ => respects_pure walks.refl _
  cases step with
  | start => exact told (walks.openScan r) fun _ => .done
  | hasNext => exact told (walks.hasNext r) .more
  | next => exact told (walks.nextRow r) .row
  | close => exact told (walks.closeScan r) fun _ => .done
  | restart =>
    exact told (walks.bind (walks.closeScan r) fun _ => walks.openScan r) fun _ => .done

/-! Writes through handles -/

theorem ends_writeMarked (h : Handle) (off : Nat) (new : Bytes) (tx : TxId)
    (Q : Except Stop Unit → Store → Prop) : (writeMarked h off new tx).Ends s Q ↔
      match h.mode, (s.pool.page h.ref).overwrite? off new with
      | .shared, _ => Q (.error (.ofCause (.readOnly (s.pool.page h.ref).id))) s
      | .exclusive, none => Q (.error .crashed) s
      | .exclusive, some p =>
        Q (.ok ()) { s with pool := s.pool.update h.ref fun _ => p.mark (some tx) } := by
  obtain ⟨ref, mode⟩ := h
  unfold writeMarked overwrite
  simp only [ends_bind, ends_page, andThen]
  cases mode with
  | shared => simp [andThen]
  | exclusive =>
    simp only [ends_bind, ends_ofOption]
    cases (s.pool.page ref).overwrite? off new with
    | none => simp [orCrash, andThen]
    | some p => simp [orCrash, andThen, Pool.update_update]

/-- An image with bytes written over is still one of its page. -/
theorem overwrite?_eq_some {p p' : Page} (written : p.overwrite? off new = some p') :
    p'.id = p.id ∧ p'.bytes.size = p.bytes.size ∧ p'.dirtiedBy = p.dirtiedBy := by
  obtain ⟨bytes, patched, rfl⟩ := Option.map_eq_some_iff.mp written
  exact ⟨rfl, Bytes.size_patch patched, rfl⟩

/-- A marked image may take the place of any image of its page, in a frame or not. -/
theorem Pooled.marking (h : s.Pooled) {r : PageRef} {p : Page} (same : p.id = (s.pool.page r).id)
    (size : p.bytes.size = (s.pool.page r).bytes.size) (tx : TxId) :
    Pooled { s with pool := s.pool.update r fun _ => p.mark (some tx) } := by
  obtain ⟨locks, coherent⟩ := h.coherent
  have sound : (s.pool.update r fun _ => p.mark (some tx)).Sound := h.sound.update r same
  have image : ∀ id page, (s.pool.update r fun _ => p.mark (some tx)).image? id = some page →
      s.pool.image? id = some page ∨ s.pool.image? id = some (s.pool.page r) ∧ page = p.mark (some tx) := by
    intro id page cached
    rw [h.sound.image?_update] at cached
    split at cached
    · rename_i there
      exact Or.inr ⟨image?_of_resident there, (Option.some.inj cached).symm⟩
    · exact Or.inl cached
  have has : ∀ id page, (s.pool.update r fun _ => p.mark (some tx)).image? id = some page →
      s.catalog.Has id := fun id page cached =>
    (image id page cached).elim (coherent.has id page) fun there => coherent.has id _ there.1
  refine ⟨⟨_, guarded_deserved sound h.keyed fun id page cached => ?_, coherent.capacity, coherent.apart,
    coherent.backed, coherent.named, has, fun id page cached => ?_, fun id page cached clean => ?_⟩,
    h.marked.update r _⟩
  · obtain ⟨ref, known, -⟩ := has id page cached
    exact ⟨ref, known⟩
  · rcases image id page cached with before | ⟨there, rfl⟩
    · exact coherent.whole id page before
    · exact size.trans (coherent.whole id _ there)
  · rcases image id page cached with before | ⟨there, rfl⟩
    · exact coherent.clean id page before clean
    · cases clean

theorem writeMarked_ends (h : s.Pooled) (handle : Handle) (off : Nat) (new : Bytes) (tx : TxId) :
    (writeMarked handle off new tx).Ends s fun answer t => answer = .error .crashed ∨
      t = { s with pool := t.pool } ∧ t.Pooled ∧ s.pool.Retains t.pool ∧
        ∀ id r, s.pool.Pins id r → t.pool.Pins id r := by
  rw [ends_writeMarked]
  split
  · exact Or.inr ⟨rfl, h, .refl s.pool, fun _ _ pins => pins⟩
  · exact Or.inl rfl
  · rename_i p mode written
    obtain ⟨same, size, -⟩ := overwrite?_eq_some written
    exact Or.inr ⟨rfl, h.marking same size tx, Pool.retains_update _ _ same,
      fun _ _ pins => pins.update _ fun _ => rfl⟩

/-! What calls leave as it is -/

/-- The pool is as it should be, no table has lost a page, and whoever holds a lock either held it before
and has not given it back, or may be granted one on a page that is missing, or else holds it on a page that
some table has. A page that can not be evicted may have to be the same image still. -/
structure Moves (keeps : Prop) (frees strays : TxId → PageId → Prop) (s t : Store) : Prop where
  pooled : t.Pooled
  settings : t.settings = s.settings
  lists : ∀ p, s.catalog.Lists p → t.catalog.Lists p
  sound : s.locks.Sound → t.locks.Sound
  held : ∀ u p k, t.locks.Held u p k →
    s.locks.Held u p k ∧ ¬frees u p ∨ t.catalog.Lists p ∨ strays u p
  retains : s.pool.Retains t.pool
  pins : keeps → ∀ p r, s.pool.Pins p r → t.pool.Pins p r

/-- Nothing is given back, and locks are granted only on pages that tables have. -/
abbrev Drifts (s t : Store) : Prop := s.Moves True (fun _ _ => False) (fun _ _ => False) t

variable {keeps : Prop} {frees strays : TxId → PageId → Prop}

/-- Tables and locks are the same. -/
theorem moves_of_same (h : t.Pooled) (settings : t.settings = s.settings) (catalog : t.catalog = s.catalog)
    (locks : t.locks = s.locks) (none : ∀ u p, ¬frees u p) (retains : s.pool.Retains t.pool)
    (pins : keeps → ∀ p r, s.pool.Pins p r → t.pool.Pins p r) : s.Moves keeps frees strays t := by
  refine ⟨h, settings, ?_, ?_, ?_, retains, pins⟩
  · rw [catalog]
    exact fun _ => id
  · rw [locks]
    exact id
  · rw [locks]
    exact fun u p k held => Or.inl ⟨held, none u p⟩

theorem moves_refl (h : s.Pooled) (none : ∀ u p, ¬frees u p) : s.Moves keeps frees strays s :=
  moves_of_same h rfl rfl rfl none (.refl s.pool) fun _ _ _ pins => pins

theorem Drifts.refl (h : s.Pooled) : s.Drifts s := moves_refl h fun _ _ never => never

theorem Drifts.moves (first : s.Drifts t) (second : t.Moves keeps frees strays u) :
    s.Moves keeps frees strays u where
  pooled := second.pooled
  settings := second.settings.trans first.settings
  lists p there := second.lists p (first.lists p there)
  sound sound := second.sound (first.sound sound)
  held v p k held := by
    obtain ⟨held, kept⟩ | there | strayed := second.held v p k held
    · obtain ⟨before, -⟩ | there | never := first.held v p k held
      · exact Or.inl ⟨before, kept⟩
      · exact Or.inr (Or.inl (second.lists p there))
      · exact never.elim
    · exact Or.inr (Or.inl there)
    · exact Or.inr (Or.inr strayed)
  retains := first.retains.trans second.retains
  pins keeps p r pins := second.pins keeps p r (first.pins trivial p r pins)

theorem Moves.mono {strays' : TxId → PageId → Prop} (h : s.Moves keeps frees strays t)
    (wider : ∀ u p, strays u p → strays' u p) : s.Moves keeps frees strays' t :=
  ⟨h.pooled, h.settings, h.lists, h.sound, fun u p k held =>
    (h.held u p k held).imp_right (Or.imp_right (wider u p)), h.retains, h.pins⟩

/-- Looking for something locks pages of such a kind. -/
theorem Looked.moves {may : TxId → PageId → Prop} (looked : s.Looked may t)
    (none : ∀ u p, ¬frees u p) (there : ∀ u p, may u p → t.catalog.Lists p ∨ strays u p) :
    s.Moves keeps frees strays t := by
  refine ⟨looked.pooled, looked.settings, ?_, looked.locks.sound, fun u p k held => ?_, looked.retains,
    fun _ => looked.pins⟩
  · rw [looked.catalog]
    exact fun _ => id
  · exact (looked.locks.granted u p k held).imp (fun before => ⟨before, none u p⟩) (there u p)

theorem Moves.adjusts (first : s.Moves keeps frees strays t) (adjusts : t.Adjusts tx u) :
    s.Moves keeps frees strays u := by
  obtain ⟨-, settings, lists, sound, held, retains, pins⟩ := first
  rw [← adjusts.catalog] at lists held
  rw [← adjusts.locks] at sound held
  exact ⟨adjusts.pooled, adjusts.settings.trans settings, lists, sound, held,
    retains.trans adjusts.retains, fun keeps p r pinned => adjusts.pins p r (pins keeps p r pinned)⟩

/-- A page that a table has under its id is one of the pages that tables have. -/
theorem Pooled.lists_of_has (h : s.Pooled) {p : PageId} (has : s.catalog.Has p) : s.catalog.Lists p := by
  obtain ⟨ref, known, below⟩ := has
  exact ⟨ref, (h.keyed _ _ known).2.symm, below⟩

theorem drifts_append (h : s.Pooled) {ref : TableRef} {i : TableId} (known : s.catalog.ref i = .ok ref)
    (room : (s.catalog.table ref).Growable) : s.Drifts (s.appended ref) := by
  have grown := Catalog.grown_extended (h.keyed i ref known).1 room
  refine ⟨h.append known room, rfl, fun p there => ?_, fun sound => sound,
    fun u p k held => Or.inl ⟨held, fun never => never⟩, .refl s.pool, fun _ _ _ pins => pins⟩
  rw [catalog_appended]
  exact grown.lists there

/-- What keeps a page from being got is not that its lock is denied. -/
theorem lives_of_missing? {id : PageId} {e : Stop} (missing : s.catalog.missing? id = some e) :
    e = .crashed ∨ ∃ f, e = .failed f ∧ f.isAborted = false := by
  rcases Catalog.cause_of_missing? missing with crashed | ⟨f, rfl, cause | cause⟩
  · exact Or.inl crashed
  · exact Or.inr ⟨f, rfl, by rw [Failure.isAborted, cause]⟩
  · exact Or.inr ⟨f, rfl, by rw [Failure.isAborted, cause]⟩

theorem getPage_moves (h : s.Pooled) (tx : TxId) (id : PageId) (mode : LockMode) :
    (getPage tx id mode).Ends s fun answer t => answer = .error .crashed ∨
      s.Moves True (fun _ _ => False) (fun u p => Locks.Only tx id u p ∧ Missed answer) t := by
  refine (getPage_obtains h tx id mode).mono ?_
  rintro (e | handle) t ⟨-, gets⟩
  · obtain ⟨rfl, -⟩ | ⟨rfl, -, -⟩ | ⟨looked, why⟩ := gets
    · exact Or.inl rfl
    · exact Or.inr (moves_refl h fun _ _ never => never)
    · have failed : e = .crashed ∨ ∃ f, e = .failed f ∧ f.isAborted = false := by
        rcases why with missing | ⟨-, rfl⟩
        · exact lives_of_missing? missing
        · exact Or.inr ⟨_, rfl, rfl⟩
      obtain rfl | ⟨f, rfl, lives⟩ := failed
      · exact Or.inl rfl
      · exact Or.inr (looked.moves (fun _ _ never => never) fun u p here => Or.inr ⟨here, f, rfl, lives⟩)
  · obtain ⟨looked, held, stands, -⟩ := gets
    have there := looked.pooled.lists_of_has (looked.pooled.has_of_stands stands)
    refine Or.inr (looked.moves (fun _ _ never => never) ?_)
    rintro u p ⟨-, rfl⟩
    exact Or.inl there

/-- What a search has locked are pages that tables have. -/
theorem Looked.drifts (looked : s.Looked (s.Within tx) t) : s.Drifts t := by
  refine looked.moves (fun _ _ never => never) ?_
  rintro u p ⟨-, has⟩
  rw [← looked.catalog] at has
  exact Or.inl (looked.pooled.lists_of_has has)

theorem insertRow_moves (h : s.Pooled) (tx : TxId) (table : TableId) (row : Row) :
    (insertRow tx table row).Ends s fun answer t => answer = .error .crashed ∨ s.Drifts t := by
  unfold insertRow
  rw [ends_bind, ends_get, andThen, ends_bind, ends_ofCause]
  cases known : s.catalog.ref table with
  | error c => exact Or.inr (.refl h)
  | ok ref =>
    simp only [mapError_ok, andThen, ends_bind]
    refine (placeRow_places h known tx row).mono ?_
    rintro answer t places
    cases places with
    | crashed => exact Or.inl rfl
    | unfit => exact Or.inr (.refl h)
    | denied inside looked denied => exact Or.inr looked.drifts
    | deniedBeyond room crowded looked denied =>
      exact Or.inr ((drifts_append h known room).moves looked.drifts)
    | found has seated =>
      rw [andThen, ends_bind]
      refine seated.keeps.mono ?_
      rintro answer u ⟨rfl, v, -, looked, adjusts, -⟩
      exact Or.inr (looked.drifts.adjusts adjusts)
    | foundBeyond room crowded there seated =>
      rw [andThen, ends_bind]
      refine seated.keeps.mono ?_
      rintro answer u ⟨rfl, v, -, looked, adjusts, -⟩
      exact Or.inr ((drifts_append h known room).moves (looked.drifts.adjusts adjusts))

theorem deleteRow_moves (h : s.Pooled) (tx : TxId) (record : RecordId) :
    (deleteRow tx (some record)).Ends s fun answer t => answer = .error .crashed ∨
      s.Moves True (fun _ _ => False) (fun u p => Locks.Only tx record.page u p ∧ Missed answer) t := by
  have stays : ∀ strays, s.Moves True (fun _ _ => False) strays s := fun _ =>
    moves_refl h fun _ _ never => never
  unfold deleteRow
  dsimp only
  rw [ends_bind, ends_get, andThen, ends_bind, ends_ofCause]
  cases s.catalog.ref record.page.table with
  | error c => exact Or.inr (stays _)
  | ok ref =>
    simp only [mapError_ok, andThen, ends_bind]
    refine (clearSlot_clears h ref tx record).mono ?_
    rintro (e | r) t clears
    · obtain rfl | ⟨rfl, -⟩ | ⟨looked, missing | ⟨has, rfl⟩⟩ := clears
      · exact Or.inl rfl
      · exact Or.inr (stays _)
      · obtain rfl | ⟨f, rfl, lives⟩ := lives_of_missing? missing
        · exact Or.inl rfl
        · exact Or.inr (looked.moves (fun _ _ never => never) fun u p here => Or.inr ⟨here, f, rfl, lives⟩)
      · refine Or.inr (looked.moves (fun _ _ never => never) ?_)
        rintro u p ⟨-, rfl⟩
        exact Or.inl (looked.pooled.lists_of_has (looked.catalog ▸ has))
    · rw [andThen]
      refine clears.keeps.mono ?_
      rintro answer u ⟨rfl, v, looked, has, adjusts⟩
      refine Or.inr ((looked.moves (fun _ _ never => never) ?_).adjusts adjusts)
      rintro u p ⟨-, rfl⟩
      exact Or.inl (looked.pooled.lists_of_has (looked.catalog ▸ has))

theorem Lands.moves {may : (PageId → Prop) → (PageId → Bytes) → Prop} (lands : s.Lands may t)
    (none : ∀ u p, ¬frees u p) : s.Moves False frees strays t :=
  moves_of_same lands.pooled lands.settings lands.catalog lands.locks none lands.retains False.elim

theorem complete_moves (h : s.Pooled) (tx : TxId) (commit : Bool) :
    (complete tx commit).Ends s fun _ => s.Moves False (fun u _ => u = tx) fun _ _ => False := by
  refine (complete_lands h tx commit).mono ?_
  rintro answer t ⟨-, u, lands, rfl⟩
  have moves : s.Moves False (fun _ _ => False) (fun _ _ => False) u := lands.moves fun _ _ never => never
  refine ⟨moves.pooled.withLocks _, moves.settings, moves.lists, fun sound =>
    (moves.sound sound).releaseAll tx, fun v p k held => ?_, moves.retains, False.elim⟩
  obtain ⟨held, other⟩ := Locks.held_releaseAll.mp held
  exact (moves.held v p k held).imp_left fun before => ⟨before.1, other⟩

theorem releasePage_moves (h : s.Pooled) (tx : TxId) (id : PageId) :
    s.Moves True (Locks.Only tx id) (fun _ _ => False) { s with locks := s.locks.release id tx } := by
  refine ⟨h.withLocks _, rfl, fun _ there => there, fun sound => sound.release id tx, fun v p k held => ?_,
    .refl s.pool, fun _ _ _ pins => pins⟩
  exact Or.inl (Locks.held_release.mp held)

theorem addTable_moves (h : s.Pooled) (table : NewTable) :
    table.perform.Ends s fun _ t => t.catalog.Distinct → s.Drifts t := by
  have lists : table.perform.Ends s fun _ t => t.locks = s.locks ∧ t.pool = s.pool ∧
      ∀ p, s.catalog.Lists p → t.catalog.Lists p := by
    refine newTable_adds (P := fun t => t.locks = s.locks ∧ t.pool = s.pool ∧
      ∀ p, s.catalog.Lists p → t.catalog.Lists p) ⟨?_, ?_, ?_⟩ ⟨rfl, rfl, fun _ there => there⟩ table
    · rintro t same
      exact same
    · rintro t file same -
      exact same
    · rintro t new name key ⟨locks, pool, lists⟩ - -
      exact ⟨locks, pool, fun p there => (lists p there).add new name key⟩
  have upholds : table.perform.Ends s fun _ t => t.catalog.Distinct → s.Upholds none (fun _ => False) t :=
    addTable_upholds h table
  refine (upholds.and lists).mono ?_
  rintro answer t ⟨upholds, locks, pool, lists⟩ distinct
  have upholds := upholds distinct
  refine ⟨upholds.pooled, upholds.settings, lists, ?_, ?_, ?_, ?_⟩
  · rw [locks]
    exact id
  · rw [locks]
    exact fun u p k held => Or.inl ⟨held, fun never => never⟩
  · rw [pool]
    exact .refl s.pool
  · rw [pool]
    exact fun _ _ _ pins => pins

theorem Drifts.widen (drifts : s.Drifts t) (none : ∀ u p, ¬frees u p) : s.Moves keeps frees strays t :=
  drifts.moves (moves_refl drifts.pooled none)

/-- What a request does to locks. -/
theorem request_moves (h : s.Pooled) (q : Request) : q.perform.Ends s fun answer t =>
    answer = .error .crashed ∨ (t.catalog.Distinct → s.Moves (Call.serve q).Keeps (Call.serve q).Frees
      (fun u p => (Call.serve q).asks? = some (u, p) ∧ Missed answer) t) := by
  cases q with
  | getPage tx id mode =>
    unfold Request.perform
    rw [ends_bind]
    refine (getPage_moves h tx id mode).mono ?_
    rintro (e | handle) t (crashed | moves)
    · cases crashed
      exact Or.inl rfl
    · refine Or.inr fun _ => moves.mono fun u p here => ?_
      obtain ⟨⟨rfl, rfl⟩, f, same, lives⟩ := here
      cases same
      exact ⟨rfl, f, rfl, lives⟩
    · cases crashed
    · refine Or.inr fun _ => moves.mono fun u p here => ?_
      obtain ⟨-, f, never, -⟩ := here
      cases never
  | insert tx table row =>
    refine (ends_forget (insertRow_moves h tx table row)).mono fun _ _ => Or.imp_right fun drifts _ => ?_
    exact drifts.widen fun _ _ never => never
  | delete tx record? =>
    cases record? with
    | none => exact Or.inr fun _ => (Drifts.refl h).widen fun _ _ never => never
    | some record =>
      refine (deleteRow_moves h tx record).mono fun _ _ => Or.imp_right fun moves _ => moves.mono ?_
      rintro u p ⟨⟨rfl, rfl⟩, missed⟩
      exact ⟨rfl, missed⟩
  | flushPage id =>
    exact (flushPage_lands_pooled h id).mono fun _ _ done => Or.inr fun _ => done.2.moves fun _ _ never => never
  | flushAll =>
    exact (flushAll_lands_pooled h).mono fun _ _ done => Or.inr fun _ => done.2.moves fun _ _ never => never
  | flushDirtiedBy tx =>
    exact (flushDirtiedBy_lands_pooled h tx).mono fun _ _ done =>
      Or.inr fun _ => done.2.moves fun _ _ never => never
  | discard id => exact Or.inr fun _ => (discard_lands_pooled h id).moves fun _ _ never => never
  | release tx id => exact Or.inr fun _ => (releasePage_moves h tx id).mono fun _ _ never => never.elim
  | complete tx commit =>
    exact (complete_moves h tx commit).mono fun _ _ moves => Or.inr fun _ => moves.mono fun _ _ never => never.elim
  | addTable table =>
    refine (ends_forget ((addTable_moves h table).mono fun _ _ => Or.inr)).mono fun _ _ =>
      Or.imp_right fun drifts distinct => ?_
    exact (drifts distinct).widen fun _ _ never => never

theorem Pooled.withScans (h : s.Pooled) (scans : Array Scan) : Pooled { s with scans } := by
  obtain ⟨locks, coherent⟩ := h.coherent
  exact ⟨⟨locks, coherent.withScans scans⟩, h.marked⟩

theorem walks_drifts : Walks fun s t => s.Pooled → s.Drifts t where
  refl _ := .refl
  trans first second pooled := (first pooled).moves (second (first pooled).pooled)
  moves s scans pooled :=
    moves_of_same (pooled.withScans scans) rfl rfl rfl (fun _ _ never => never) (.refl s.pool)
      fun _ _ _ pins => pins
  gets s tx id there := by
    refine .assuming fun pooled => (getPage_obtains pooled tx id .shared).mono ?_
    have only : ∀ t, s.Looked (Locks.Only tx id) t → s.Drifts t := by
      intro t looked
      refine looked.moves (fun _ _ never => never) ?_
      rintro u p ⟨-, rfl⟩
      exact Or.inl (looked.catalog ▸ there)
    rintro (e | handle) t ⟨-, gets⟩
    · obtain ⟨rfl, -⟩ | ⟨rfl, -⟩ | ⟨looked, -⟩ := gets
      · exact Or.inl rfl
      · exact Or.inr (.refl pooled)
      · exact Or.inr (only t looked)
    · exact Or.inr (only t gets.1)

/-- What a call does to locks. -/
theorem call_moves (h : s.Pooled) (settled : Session.settle c.perform s = some (reply, t))
    (distinct : t.catalog.Distinct) : s.Moves c.Keeps c.Frees
      (fun u p => c.asks? = some (u, p) ∧ ∃ f, reply = .error f ∧ f.isAborted = false) t := by
  cases c with
  | serve q =>
    obtain ⟨answer, rfl, crashed | moves⟩ := Session.settle_done (request_moves h q) settled
    · exact absurd crashed (Session.mapError_ne_crashed answer)
    · refine (moves distinct).mono fun u p ⟨asked, f, failed, lives⟩ => ⟨asked, f, ?_, lives⟩
      cases answer with
      | ok a => cases failed
      | error g => cases failed; rfl
  | scan tx table =>
    have told : Respects (fun s t => s.Pooled → s.Drifts t) (Call.scan tx table).perform :=
      walks_drifts.bind (walks_drifts.newScan tx table) fun _ => respects_pure walks_drifts.refl _
    have drifts := (Session.settle_eq_some (told s) settled).resolve_left (Session.mapError_ne_crashed reply)
    exact (drifts h).widen fun _ _ never => never
  | iterate r step =>
    have drifts := (Session.settle_eq_some (walks_drifts.perform r step s) settled).resolve_left
      (Session.mapError_ne_crashed reply)
    exact (drifts h).widen fun _ _ never => never
  | write handle off new tx =>
    obtain ⟨answer, -, crashed | ⟨rest, pooled, retains, pins⟩⟩ :=
      Session.settle_done (writeMarked_ends h handle off new tx) settled
    · exact absurd crashed (Session.mapError_ne_crashed answer)
    · refine moves_of_same pooled ?_ ?_ ?_ (fun _ _ never => never) retains fun _ => pins
      · rw [rest]
      · rw [rest]
      · rw [rest]

/-- What each call preserves holds after all of them. -/
theorem follow_induction {P : List (Call × Reply) → Store → Prop} (before : List (Call × Reply))
    (step : ∀ past s c reply t, P past s → Session.settle c.perform s = some (reply, t) →
      t.catalog.Distinct → P (past ++ [(c, reply)]) t)
    (start : P before s) (ran : s.follow since = some t) : P (before ++ since) t := by
  induction since generalizing s before with
  | nil =>
    cases ran
    rwa [List.append_nil]
  | cons told since ih =>
    obtain ⟨c, reply⟩ := told
    obtain ⟨u, settled, distinct, later⟩ := follow_cons_iff.mp ran
    have next := ih (before ++ [(c, reply)]) (step before s c reply u start settled distinct) later
    rwa [List.append_assoc, List.singleton_append] at next

theorem follow_pooled (h : s.Pooled) (ran : s.follow since = some t) :
    t.Pooled ∧ t.settings = s.settings ∧ (s.locks.Sound → t.locks.Sound) := by
  refine follow_induction (P := fun _ t => t.Pooled ∧ t.settings = s.settings ∧
    (s.locks.Sound → t.locks.Sound)) [] ?_ ⟨h, rfl, id⟩ ran
  rintro past u c reply v ⟨pooled, settings, sound⟩ settled distinct
  have moves := call_moves pooled settled distinct
  exact ⟨moves.pooled, moves.settings.trans settings, fun old => moves.sound (sound old)⟩

end Store
end HeapStore
