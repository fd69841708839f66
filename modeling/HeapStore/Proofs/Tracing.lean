import HeapStore.Proofs.Sparing
import HeapStore.Proofs.Totals
import HeapStore.Proofs.Transparency

/-! What becomes of a page from one step of a run to the next. While a transaction holds a lock on a
page only its own changes show there. -/
namespace HeapStore

namespace Event

/-- The transaction that an event ends. -/
def ends? : Event → Option TxId
  | .commit tx | .abort tx | .drop tx => some tx
  | _ => none

/-- Whether an event takes pages out of the pool or writes them, whoever they belong to. -/
def flushes : Event → Bool
  | .flushPage _ | .flushAll | .discard _ => true
  | _ => false

end Event

namespace Store

variable {s s' : Store} {id other : PageId} {tx u : TxId} {bytes : Bytes} {b : PageId → Bytes}
  {p : PageId → Prop} {ref : TableRef} {mode : LockMode}

/-- What a page holds, if pages that a table does not have yet count as empty. -/
def total (s : Store) : PageId → Bytes := s.view.total

theorem total_of_has (has : s.catalog.Has id) : s.total id = s.content id := Catalog.fill_of_has has

theorem total_of_lacks (lacks : ¬s.catalog.Has id) : s.total id = s.catalog.blank id :=
  Catalog.fill_of_lacks lacks

theorem total_of_same (catalog : s'.catalog = s.catalog) (content : s'.content id = s.content id) :
    s'.total id = s.total id := by
  by_cases has : s.catalog.Has id
  · rw [total_of_has has, total_of_has (catalog ▸ has), content]
  · rw [total_of_lacks has, total_of_lacks (catalog ▸ has), catalog]

theorem Upkeep.total (h : s.Upkeep tx s') (coherent : s.Coherent) (id : PageId) :
    s'.total id = s.total id := by
  by_cases has : s.catalog.Has id
  · rw [total_of_has has, total_of_has (h.catalog.has has), h.content id has]
  · rw [total_of_lacks has]
    by_cases later : s'.catalog.Has id
    · have clean : s'.owner id = none := (h.owner id).trans (coherent.owner_of_lacks has)
      rw [total_of_has later, h.coherent.content_of_clean clean, h.fresh id has later]
    · rw [total_of_lacks later, h.catalog.blank]

theorem Rewritten.total (h : s.Rewritten tx id bytes s') (other : PageId) :
    s'.total other = if other = id then bytes else s.total other := by
  have catalog : s'.catalog = s.catalog := by rw [h.rest]
  have content := h.content other
  split at content
  · rename_i here
    subst here
    rw [if_pos rfl, total_of_has (catalog ▸ h.has), content]
  · rename_i ne
    rw [if_neg ne, total_of_same catalog content]

/-! What the files have -/

/-- What a page holds on disk, if pages that a table does not have yet count as empty. -/
def lasting (s : Store) : PageId → Bytes := s.catalog.fill s.saved

theorem lasting_of_has (has : s.catalog.Has id) : s.lasting id = s.saved id := Catalog.fill_of_has has

theorem lasting_of_lacks (lacks : ¬s.catalog.Has id) : s.lasting id = s.catalog.blank id :=
  Catalog.fill_of_lacks lacks

theorem lasting_of_same (catalog : s'.catalog = s.catalog) (saved : s'.saved id = s.saved id) :
    s'.lasting id = s.lasting id := by
  by_cases has : s.catalog.Has id
  · rw [lasting_of_has has, lasting_of_has (catalog ▸ has), saved]
  · rw [lasting_of_lacks has, lasting_of_lacks (catalog ▸ has), catalog]

theorem Upkeep.lasting (h : s.Upkeep tx s') (id : PageId) : s'.lasting id = s.lasting id := by
  by_cases has : s.catalog.Has id
  · rw [lasting_of_has has, lasting_of_has (h.catalog.has has), h.saved id (Or.inl has)]
  · rw [lasting_of_lacks has]
    by_cases later : s'.catalog.Has id
    · rw [lasting_of_has later, h.fresh id has later]
    · rw [lasting_of_lacks later, h.catalog.blank]

theorem Coherent.total_of_clean (h : s.Coherent) (clean : s.owner id = none) :
    s.total id = s.lasting id := by
  by_cases has : s.catalog.Has id
  · rw [total_of_has has, lasting_of_has has, h.content_of_clean clean]
  · rw [total_of_lacks has, lasting_of_lacks has]

/-- A page that nobody has changed is as in the file of its table. -/
theorem Coherent.total_of_file (h : s.Coherent) (clean : s.owner id = none)
    (known : s.catalog.ref id.table = .ok ref) (below : id.number < (s.catalog.table ref).pages) {f : File}
    (there : s.disk.get? (s.catalog.table ref).file = some f) :
    s.total id = f.span (id.number * (s.catalog.table ref).pageSize) (s.catalog.table ref).pageSize := by
  rw [total_of_has ((Catalog.has_iff known).mpr below), h.content_of_clean clean, saved_of_ref known,
    Table.bytes, there]
  rfl

theorem Coherent.has_of_owner (h : s.Coherent) (owned : s.owner id = some u) : s.catalog.Has id := by
  obtain ⟨page, cached, -⟩ := Option.bind_eq_some_iff.mp owned
  exact h.has id page cached

theorem Completed.total (h : s.Completed tx b s') (other : s.owner id ≠ some tx) :
    s'.total id = s.total id :=
  total_of_same (by rw [h.rest]) (h.others id other).2.1

theorem Landed.total (h : Landed p b s s') (same : p id → b id = s.content id) :
    s'.total id = s.total id := by
  refine total_of_same (by rw [h.rest]) ?_
  by_cases taken : p id
  · rw [(h.landed id taken).2.1, same taken]
  · exact (h.others id taken).2.1

theorem Opened.saved (h : s.Opened s') (coherent : s.Coherent) (distinct : s'.catalog.Distinct)
    (known : s.catalog.ref id.table = .ok ref) : s'.saved id = s.saved id := by
  obtain ⟨known', table⟩ := h.kept distinct _ _ known
  obtain ⟨f, there, -⟩ := coherent.backed _ _ known
  rw [saved_of_ref known, saved_of_ref known', table, Table.bytes, Table.bytes, h.files _ f there, there]

theorem Opened.has (h : s.Opened s') (distinct : s'.catalog.Distinct)
    (known : s.catalog.ref id.table = .ok ref) : s'.catalog.Has id ↔ s.catalog.Has id := by
  obtain ⟨known', table⟩ := h.kept distinct _ _ known
  rw [Catalog.has_iff known, Catalog.has_iff known', table]

theorem Opened.blank (h : s.Opened s') (distinct : s'.catalog.Distinct)
    (known : s.catalog.ref id.table = .ok ref) : s'.catalog.blank id = s.catalog.blank id := by
  obtain ⟨known', table⟩ := h.kept distinct _ _ known
  rw [Catalog.blank_of_ref known, Catalog.blank_of_ref known', table]

theorem Opened.total (h : s.Opened s') (coherent : s.Coherent) (distinct : s'.catalog.Distinct)
    (known : s.catalog.ref id.table = .ok ref) : s'.total id = s.total id := by
  have pool : s'.pool = s.pool := by rw [h.rest]
  have content : s'.content id = s.content id := by
    rw [content, content, pool, h.saved coherent distinct known]
  by_cases there : s.catalog.Has id
  · rw [total_of_has there, total_of_has ((h.has distinct known).mpr there), content]
  · rw [total_of_lacks there, total_of_lacks (mt (h.has distinct known).mp there), h.blank distinct known]

theorem Opened.lasting (h : s.Opened s') (coherent : s.Coherent) (distinct : s'.catalog.Distinct)
    (known : s.catalog.ref id.table = .ok ref) : s'.lasting id = s.lasting id := by
  by_cases there : s.catalog.Has id
  · rw [lasting_of_has there, lasting_of_has ((h.has distinct known).mpr there),
      h.saved coherent distinct known]
  · rw [lasting_of_lacks there, lasting_of_lacks (mt (h.has distinct known).mp there),
      h.blank distinct known]

theorem Alters.alone (h : s.Alters u id s') (held : s.locks.Held tx id mode) : tx = u :=
  h.guarded.locks u tx id mode h.held (h.locks tx id mode held)

theorem Guarded.alone (h : s.Guarded) (owned : s.owner id = some u) (held : s.locks.Held tx id mode) :
    tx = u :=
  h.locks u tx id mode (h.owned id u owned) held

theorem Guarded.owner_of_held (h : s.Guarded) (held : s.locks.Held tx id mode) :
    s.owner id = some tx ∨ s.owner id = none := by
  cases owned : s.owner id with
  | none => exact Or.inr rfl
  | some u => exact Or.inl (congrArg some (h.alone owned held).symm)

end Store

namespace Session
open Store

variable {M S : Session} {es fs past : List Event} {e : Event} {reply : Reply} {s : Store} {tx u : TxId}
  {id : PageId} {settings : Settings} {ref : TableRef} {mode : LockMode}

/-- What holds in every session in which files, tables and cached pages go together. -/
structure Steady (settings : Settings) (S : Session) : Prop where
  sane : Sane settings S
  isolated : ∃ past, Isolated past S
  assigned : S.Assigned

/-- What holds in every session that keeps its tables apart. -/
structure Orderly (settings : Settings) (S : Session) : Prop extends Steady settings S where
  distinct : S.store.catalog.Distinct

theorem orderly_run {disk : Disk} (ran : (start (Store.new settings disk)).run es = some S)
    (distinct : S.store.catalog.Distinct) : Orderly settings S :=
  ⟨⟨sane_run ran distinct, ⟨es, isolated_run ran⟩, assigned_run ran⟩, distinct⟩

theorem Steady.coherent (h : Steady settings S) : S.store.Coherent := h.sane.coherent

theorem Steady.started (h : Steady settings S) (running : S.running tx = true) :
    tx < S.store.nextTx := by
  obtain ⟨past, isolated⟩ := h.isolated
  exact isolated.started tx running

theorem Steady.guarded (h : Steady settings S) : S.store.Guarded := h.sane.coherent.guarded

theorem Steady.step (h : Steady settings S) (told : S.outcome? e = some (reply, s))
    (distinct : (∃ t, e = .addTable t) → s.catalog.Distinct) :
    Steady settings (S.after e reply s) := by
  obtain ⟨past, isolated⟩ := h.isolated
  have stepped := step_of_outcome? told
  exact ⟨h.sane.step stepped distinct, ⟨_, isolated.step stepped⟩, h.assigned.step told⟩

theorem Orderly.step (h : Orderly settings S) (told : S.outcome? e = some (reply, s))
    (distinct : s.catalog.Distinct) : Orderly settings (S.after e reply s) :=
  ⟨h.toSteady.step told fun _ => distinct, distinct⟩

/-- What a step of a session that keeps its tables apart comes to, page by page. -/
inductive Impact (S : Session) (e : Event) (reply : Reply) (s : Store) : Prop where
  | begun (first : e = .begin) (store : s = { S.store with nextTx := S.store.nextTx + 1 })
  | looked (tx : TxId) (o : Op) (own : e = .op tx o) (upkeep : S.store.Upkeep tx s)
      (idle : changeOf (e, reply) = none)
  | changed (tx : TxId) (o : Op) (id : PageId) (bytes : Bytes) (t : Store) (own : e = .op tx o)
      (running : S.running tx = true) (alters : S.store.Alters tx id s)
      (upkeep : S.store.Upkeep tx t) (rewritten : t.Rewritten tx id bytes s)
      (change : changeOf (e, reply) = some (tx, id))
  | completed (tx : TxId) (b : PageId → Bytes) (ends : e.ends? = some tx)
      (holds : e = .commit tx ∧ b = S.store.content ∨ b = S.store.saved ∧ s.disk = S.store.disk)
      (completed : S.store.Completed tx b s)
  | landed (p : PageId → Prop) (b : PageId → Bytes) (flushes : e.flushes = true)
      (landed : Landed p b S.store s) (holds : ∀ id, e ≠ .discard id → p id → b id = S.store.content id)
  | opened (new : NewTable) (adds : e = .addTable new) (opened : S.store.Opened s)

/-- What a step of a transaction comes to that is `y` on a store without a pool. -/
inductive Taken (S : Session) (tx : TxId) (o : Op) (y : Plain.Act Plain.Outcome) : Reply → Store → Prop
  | stuck (f : Failure) (s : Store) (iterates : o.iterates = true) (exhausted : s.Exhausted (.failed f))
      (upkeep : S.store.Upkeep tx s) : Taken S tx o y (.error f) s
  | refused (f : Failure) (s : Store) (ended : y S.store.view = .error (.failed f) s.view)
      (upkeep : S.store.Upkeep tx s) : Taken S tx o y (.error f) s
  | answered (out : Plain.Outcome) (t s : Store) (ended : y S.store.view = .ok out t.view)
      (upkeep : S.store.Upkeep tx t) (applied : Applied tx out.change t s) :
      Taken S tx o y (.ok out.answer) s

theorem op_taken (h : S.store.Coherent) {o : Op} (told : S.outcome? (.op tx o) = some (reply, s)) :
    ∃ c y, S.clients.get? tx = some c ∧ Plain.perform? tx c.scans o = some y ∧
      Taken S tx o y reply s := by
  obtain ⟨x, found, settled⟩ := Option.bind_eq_some_iff.mp told
  obtain ⟨c, y, client, -, plain, performs⟩ := op_performs h found settled
  refine ⟨c, y, client, plain, ?_⟩
  rcases performs with ⟨iterates, e, stopped, exhausted, upkeep⟩ | performs
  · obtain ⟨a, -, never⟩ | ⟨f, rfl, same⟩ := eq_of_mapError stopped
    · cases never
    · cases same
      exact .stuck f s iterates exhausted upkeep
  · split at performs
    · rename_i out v ended
      obtain ⟨a, t, stopped, upkeep, rfl, rfl, applied⟩ := performs
      obtain ⟨a, rfl, same⟩ | ⟨f, -, never⟩ := eq_of_mapError stopped
      · cases same
        exact .answered out t s ended upkeep applied
      · cases never
    · rename_i e v ended
      obtain ⟨stopped, rest⟩ := performs
      obtain ⟨a, -, never⟩ | ⟨f, rfl, same⟩ := eq_of_mapError stopped
      · cases never
      · cases same
        obtain ⟨upkeep, rfl⟩ := rest.resolve_left (by simp)
        exact .refused f s ended upkeep

theorem impact_of_op (h : S.store.Coherent) {o : Op} (told : S.outcome? (.op tx o) = some (reply, s)) :
    Impact S (.op tx o) reply s := by
  obtain ⟨c, y, -, plain, taken⟩ := op_taken h told
  cases taken with
  | stuck f s iterates exhausted upkeep => exact .looked tx o rfl upkeep (changeOf_error _ _)
  | refused f s ended upkeep => exact .looked tx o rfl upkeep (changeOf_error _ _)
  | answered out t s ended upkeep applied =>
    have change := Plain.changeOf_eq plain ended
    cases changed : out.change with
    | none =>
      rw [changed] at applied change
      cases applied
      exact .looked tx o rfl upkeep change
    | some page =>
      rw [changed] at applied change
      obtain ⟨running, alters⟩ := alters_of_change h.guarded told change
      exact .changed tx o page.1 page.2 t rfl running alters upkeep applied change

theorem Steady.impact (h : Steady settings S) (told : S.outcome? e = some (reply, s)) :
    Impact S e reply s := by
  obtain ⟨x, found, settled⟩ := Option.bind_eq_some_iff.mp told
  cases e with
  | begin =>
    cases found
    cases settled
    exact .begun rfl rfl
  | op tx o => exact impact_of_op h.coherent told
  | commit tx =>
    obtain ⟨-, rfl⟩ := action?_commit_eq_some_iff.mp found
    obtain ⟨answer, rfl, -, completed⟩ := settle_done (commit_completes h.coherent tx) settled
    exact .completed tx _ rfl (Or.inl ⟨rfl, rfl⟩) completed
  | abort tx =>
    obtain ⟨-, rfl⟩ := action?_abort_eq_some_iff.mp found
    obtain ⟨answer, rfl, -, completed, disk⟩ := settle_done (abort_completes h.coherent tx) settled
    exact .completed tx _ rfl (Or.inr ⟨rfl, disk⟩) completed
  | drop tx =>
    obtain ⟨-, rfl⟩ := action?_drop_eq_some_iff.mp found
    obtain ⟨answer, rfl, -, completed, disk⟩ := settle_done (drop_completes h.coherent tx) settled
    exact .completed tx _ rfl (Or.inr ⟨rfl, disk⟩) completed
  | flushPage id =>
    cases found
    obtain ⟨answer, rfl, -, p, -, landed⟩ := settle_done (flushPage_lands h.coherent id) settled
    exact .landed p _ rfl landed fun _ _ _ => rfl
  | flushAll =>
    cases found
    obtain ⟨answer, rfl, -, landed⟩ := settle_done (flushAll_lands h.coherent) settled
    exact .landed _ _ rfl landed fun _ _ _ => rfl
  | discard id =>
    cases found
    cases settled
    refine .landed _ _ rfl (discard_lands h.coherent id) fun other ne here => ?_
    exact absurd (congrArg Event.discard here.symm) ne
  | addTable t =>
    cases found
    exact .opened t rfl (settle_eq_some (newTable_opens h.coherent t) settled)

/-! Locks and tables from step to step -/

theorem running_of_step (h : S.store.Guarded) (told : S.outcome? e = some (reply, s))
    (running : (S.after e reply s).running tx = true) (old : tx < S.store.nextTx) :
    S.running tx = true := by
  rcases effect_of_outcome h told with
    ⟨rfl, rfl, rfl⟩ | ⟨-, same, -⟩ | ⟨-, -, -, -, same, -⟩ | ⟨u, -, -, rest, -⟩
  · rw [running_after_begin, Bool.or_eq_true, decide_eq_true_eq] at running
    exact running.resolve_left (Nat.ne_of_lt old)
  · rwa [same] at running
  · rwa [same] at running
  · rw [rest, Bool.and_eq_true] at running
    exact running.2

theorem nextTx_of_step (h : S.store.Guarded) (told : S.outcome? e = some (reply, s)) :
    S.store.nextTx ≤ s.nextTx := by
  rcases effect_of_outcome h told with
    ⟨-, -, rfl⟩ | ⟨keeps, -, -⟩ | ⟨_, _, alters, -, -, -⟩ | ⟨_, ended, -, -, -⟩
  · exact Nat.le_succ _
  · exact Nat.le_of_eq keeps.nextTx.symm
  · exact Nat.le_of_eq alters.nextTx.symm
  · exact Nat.le_of_eq ended.nextTx.symm

/-- A transaction keeps its locks until it ends. -/
theorem held_of_step (h : S.store.Guarded) (told : S.outcome? e = some (reply, s))
    (running : (S.after e reply s).running tx = true) (held : S.store.locks.Held tx id mode) :
    s.locks.Held tx id mode := by
  rcases effect_of_outcome h told with
    ⟨-, -, rfl⟩ | ⟨keeps, -, -⟩ | ⟨_, _, alters, -, -, -⟩ | ⟨u, ended, -, rest, -⟩
  · exact held
  · exact keeps.locks _ _ _ held
  · exact alters.locks _ _ _ held
  · rw [rest, Bool.and_eq_true, decide_eq_true_eq] at running
    exact ended.locks _ _ _ running.1 held

/-- Unless a table is added, tables only get pages. -/
theorem Impact.grown (h : Impact S e reply s) :
    S.store.catalog.Grown s.catalog ∨ ∃ new, e = .addTable new ∧ S.store.Opened s := by
  have same : s.catalog = S.store.catalog → S.store.catalog.Grown s.catalog := fun same =>
    same ▸ .refl _
  cases h with
  | begun first store => exact Or.inl (same (by rw [store]))
  | looked tx o own upkeep idle => exact Or.inl upkeep.catalog
  | changed tx o id bytes t own running alters upkeep rewritten change =>
    have catalog : s.catalog = t.catalog := by rw [rewritten.rest]
    exact Or.inl (catalog ▸ upkeep.catalog)
  | completed tx b ends holds completed => exact Or.inl (same (by rw [completed.rest]))
  | landed p b flushes landed holds => exact Or.inl (same (by rw [landed.rest]))
  | opened new adds opened => exact Or.inr ⟨new, adds, opened⟩

theorem Impact.table (h : Impact S e reply s) (distinct : s.catalog.Distinct) {i : TableId}
    (known : S.store.catalog.ref i = .ok ref) : s.catalog.ref i = .ok ref ∧
      s.catalog.table ref = { S.store.catalog.table ref with length := (s.catalog.table ref).length } ∧
      (S.store.catalog.table ref).pages ≤ (s.catalog.table ref).pages := by
  rcases h.grown with grown | ⟨new, -, opened⟩
  · exact ⟨(grown.ref i).trans known, grown.table ref, grown.pages ref⟩
  · obtain ⟨known', table⟩ := opened.kept distinct _ _ known
    rw [table]
    exact ⟨known', rfl, Nat.le_refl _⟩

/-- A page that a transaction holds changes only if it does it itself. -/
theorem Impact.total (h : Impact S e reply s) (steady : Steady settings S)
    (held : S.store.locks.Held tx id mode) (stays : e.ends? ≠ some tx)
    (still : changeOf (e, reply) ≠ some (tx, id)) (kept : e ≠ .discard id)
    (known : ∀ new, e = .addTable new →
      s.catalog.Distinct ∧ ∃ ref, S.store.catalog.ref id.table = .ok ref) :
    s.total id = S.store.total id := by
  cases h with
  | begun first store => rw [store]; rfl
  | looked u o own upkeep idle => exact upkeep.total steady.coherent id
  | changed u o other bytes t own running alters upkeep rewritten change =>
    rw [rewritten.total, if_neg, upkeep.total steady.coherent]
    rintro rfl
    cases alters.alone held
    exact still change
  | completed u b ends holds completed =>
    refine completed.total fun owned => stays ?_
    rw [steady.guarded.alone owned held, ends]
  | landed p b flushes landed holds => exact landed.total (holds id kept)
  | opened new adds opened =>
    obtain ⟨distinct, ref, known⟩ := known new adds
    exact opened.total steady.coherent distinct known

/-- A page is changed by looking for it and giving it new bytes. -/
theorem Impact.of_change (h : Impact S e reply s) (change : changeOf (e, reply) = some (tx, id)) :
    S.store.Alters tx id s ∧ ∃ t bytes, S.store.Upkeep tx t ∧ t.Rewritten tx id bytes s := by
  cases h with
  | changed u o other bytes t own running alters upkeep rewritten same =>
    cases same.symm.trans change
    exact ⟨alters, t, bytes, upkeep, rewritten⟩
  | begun first store =>
    subst first
    cases change
  | looked u o own upkeep idle => simp [idle] at change
  | completed u b ends holds completed => cases e <;> cases ends <;> cases change
  | landed p b flushes landed holds => cases e <;> cases flushes <;> cases change
  | opened new adds opened =>
    subst adds
    cases change

theorem Impact.has_of_change (h : Impact S e reply s) (change : changeOf (e, reply) = some (tx, id)) :
    s.catalog.Has id := by
  obtain ⟨-, t, bytes, -, rewritten⟩ := h.of_change change
  rw [show s.catalog = t.catalog by rw [rewritten.rest]]
  exact rewritten.has

/-! From step to step of a run -/

theorem Isolated.run (h : Isolated past M) (ran : M.run es = some S) : Isolated (past ++ es) S := by
  induction es generalizing past M with
  | nil =>
    cases ran
    rwa [List.append_nil]
  | cons e es ih =>
    rw [run_cons, Option.bind_eq_some_iff] at ran
    obtain ⟨T, stepped, ran⟩ := ran
    rw [List.append_cons]
    exact ih (h.step stepped) ran

theorem Isolated.extends_run (h : Isolated past M) (ran : M.run es = some S) :
    M.store.catalog.Extends S.store.catalog := by
  induction es generalizing past M with
  | nil =>
    cases ran
    exact .refl _
  | cons e es ih =>
    rw [run_cons, Option.bind_eq_some_iff] at ran
    obtain ⟨T, stepped, ran⟩ := ran
    exact (h.extends stepped).trans (ih (h.step stepped) ran)

/-- What holds at the end of a run and is handed back by each of its steps holds at its start. -/
@[elab_as_elim]
theorem Orderly.run_induction {motive : List Event → Session → Prop} (h : Orderly settings M)
    (ran : M.run es = some S) (distinct : S.store.catalog.Distinct)
    (nil : Orderly settings S → motive [] S)
    (cons : ∀ M e es reply s, Orderly settings M → M.outcome? e = some (reply, s) →
      Orderly settings (M.after e reply s) → (M.after e reply s).run es = some S →
      motive es (M.after e reply s) → motive (e :: es) M) : motive es M := by
  induction es generalizing M with
  | nil =>
    cases ran
    exact nil h
  | cons e es ih =>
    rw [run_cons, Option.bind_eq_some_iff] at ran
    obtain ⟨T, stepped, ran⟩ := ran
    obtain ⟨past, isolated⟩ := h.isolated
    have later := ((isolated.step stepped).extends_run ran).distinct distinct
    obtain ⟨reply, s, told, rfl⟩ := outcome?_of_step stepped
    have orderly := h.step told later
    exact cons M e es reply s h told orderly ran (ih orderly ran)

theorem Orderly.run (h : Orderly settings M) (ran : M.run es = some S)
    (distinct : S.store.catalog.Distinct) : Orderly settings S :=
  h.run_induction (motive := fun _ _ => Orderly settings S) ran distinct (fun last => last)
    fun _ _ _ _ _ _ _ _ _ last => last

theorem Orderly.table_run (h : Orderly settings M) (ran : M.run es = some S)
    (distinct : S.store.catalog.Distinct) {i : TableId} (known : M.store.catalog.ref i = .ok ref) :
    S.store.catalog.ref i = .ok ref ∧ S.store.catalog.table ref =
        { M.store.catalog.table ref with length := (S.store.catalog.table ref).length } ∧
      (M.store.catalog.table ref).pages ≤ (S.store.catalog.table ref).pages := by
  revert known
  refine h.run_induction ran distinct ?_ ?_
  · exact fun _ known => ⟨known, rfl, Nat.le_refl _⟩
  · intro M e es reply s h told orderly _ ih known
    obtain ⟨known', table, pages⟩ := (h.impact told).table orderly.distinct known
    obtain ⟨later, table', pages'⟩ := ih known'
    refine ⟨later, ?_, Nat.le_trans pages pages'⟩
    rw [table']
    exact congrArg (fun t : Table => { t with length := (S.store.catalog.table ref).length }) table

theorem Orderly.has_run (h : Orderly settings M) (ran : M.run es = some S)
    (distinct : S.store.catalog.Distinct) (has : M.store.catalog.Has id) :
    S.store.catalog.Has id := by
  obtain ⟨ref, known, below⟩ := has
  obtain ⟨known', -, pages⟩ := h.table_run ran distinct known
  exact ⟨ref, known', Nat.lt_of_lt_of_le below pages⟩

theorem Orderly.running_run (h : Orderly settings M) (ran : M.run es = some S)
    (distinct : S.store.catalog.Distinct) (running : S.running tx = true)
    (old : tx < M.store.nextTx) : M.running tx = true := by
  revert old
  refine h.run_induction ran distinct ?_ ?_
  · exact fun _ _ => running
  · intro M e es reply s h told _ _ ih old
    exact running_of_step h.guarded told (ih (Nat.lt_of_lt_of_le old (nextTx_of_step h.guarded told))) old

theorem Orderly.nextTx_run (h : Orderly settings M) (ran : M.run es = some S)
    (distinct : S.store.catalog.Distinct) : M.store.nextTx ≤ S.store.nextTx := by
  refine h.run_induction ran distinct ?_ ?_
  · exact fun _ => Nat.le_refl _
  · exact fun M e es reply s h told _ _ ih => Nat.le_trans (nextTx_of_step h.guarded told) ih

theorem Orderly.held_run (h : Orderly settings M) (ran : M.run es = some S)
    (distinct : S.store.catalog.Distinct) (running : S.running tx = true)
    (old : tx < M.store.nextTx) (held : M.store.locks.Held tx id mode) :
    S.store.locks.Held tx id mode := by
  revert old held
  refine h.run_induction ran distinct ?_ ?_
  · exact fun _ _ held => held
  · intro M e es reply s h told orderly ran ih old held
    have old' := Nat.lt_of_lt_of_le old (nextTx_of_step h.guarded told)
    have running' := orderly.running_run ran distinct running old'
    exact ih old' (held_of_step h.guarded told running' held)

theorem not_running_of_ends (ends : e.ends? = some tx) : (S.after e reply s).running tx = false := by
  have finished : ((S.update tx .finish).get? tx).any Client.running = false := by
    rw [running_finish]
    simp
  cases e with
  | commit _ | abort _ | drop _ =>
    cases ends
    exact finished
  | begin | op _ _ | flushPage _ | flushAll | discard _ | addTable _ => cases ends

/-- Only a transaction that has not ended can end. -/
theorem running_of_ends (told : S.outcome? e = some (reply, s)) (ends : e.ends? = some tx) :
    S.running tx = true := by
  obtain ⟨x, found, -⟩ := Option.bind_eq_some_iff.mp told
  cases e with
  | commit _ =>
    cases ends
    exact (action?_commit_eq_some_iff.mp found).1
  | abort _ =>
    cases ends
    exact (action?_abort_eq_some_iff.mp found).1
  | drop _ =>
    cases ends
    exact (action?_drop_eq_some_iff.mp found).1
  | begin | op _ _ | flushPage _ | flushAll | discard _ | addTable _ => cases ends

theorem Orderly.stays (h : Orderly settings M) (told : M.outcome? e = some (reply, s))
    (orderly : Orderly settings (M.after e reply s)) (ran : (M.after e reply s).run es = some S)
    (distinct : S.store.catalog.Distinct) (running : S.running tx = true) : e.ends? ≠ some tx := by
  intro ends
  have old : tx < s.nextTx :=
    Nat.lt_of_lt_of_le (h.started (running_of_ends told ends)) (nextTx_of_step h.guarded told)
  have running' := orderly.running_run ran distinct running old
  simp [not_running_of_ends ends] at running'

theorem mem_of_mem_trace {P : Session} (listed : (P, e, reply) ∈ S.trace es) : e ∈ es := by
  induction es generalizing S with
  | nil => cases listed
  | cons e' es ih =>
    unfold trace at listed
    split at listed
    · rcases List.mem_cons.mp listed with first | later
      · cases first
        exact List.mem_cons_self ..
      · exact List.mem_cons_of_mem _ (ih later)
    · cases listed

theorem trace_append (ran : S.run es = some M) : S.trace (es ++ fs) = S.trace es ++ M.trace fs := by
  induction es generalizing S with
  | nil =>
    cases ran
    rfl
  | cons e es ih =>
    rw [run_cons, Option.bind_eq_some_iff] at ran
    obtain ⟨T, stepped, ran⟩ := ran
    obtain ⟨reply, s, told, rfl⟩ := outcome?_of_step stepped
    rw [List.cons_append, trace_cons told, trace_cons told, ih ran, List.cons_append]

theorem Orderly.of_mem_trace (h : Orderly settings M) (ran : M.run es = some S)
    (distinct : S.store.catalog.Distinct) {P : Session} (listed : (P, e, reply) ∈ M.trace es) :
    Orderly settings P ∧ ∃ s, P.outcome? e = some (reply, s) := by
  revert listed
  refine h.run_induction ran distinct ?_ ?_
  · exact fun _ never => by cases never
  · intro M e' es reply' s h told _ _ ih listed
    rw [trace_cons told, List.mem_cons] at listed
    rcases listed with first | later
    · cases first
      exact ⟨h, s, told⟩
    · exact ih later

/-- The changes of pages in a run and the transactions that make them. -/
def changes (S : Session) (es : List Event) : List (TxId × PageId) :=
  (S.trace es).filterMap fun step => changeOf step.2

theorem mem_changes_cons {change : TxId × PageId} (told : S.outcome? e = some (reply, s)) :
    change ∈ S.changes (e :: es) ↔
      changeOf (e, reply) = some change ∨ change ∈ (S.after e reply s).changes es := by
  simp [changes, trace_cons told]

/-- A page that a transaction holds keeps what it holds as long as the transaction does not end and
does not change it. -/
theorem Orderly.total_run (h : Orderly settings M) (ran : M.run es = some S)
    (distinct : S.store.catalog.Distinct) (running : S.running tx = true)
    (old : tx < M.store.nextTx) (held : M.store.locks.Held tx id mode)
    (known : M.store.catalog.ref id.table = .ok ref) (still : (tx, id) ∉ M.changes es)
    (kept : Event.discard id ∉ es) : S.store.total id = M.store.total id := by
  revert old held known still kept
  refine h.run_induction ran distinct ?_ ?_
  · exact fun _ _ _ _ _ _ => rfl
  · intro M e es reply s h told orderly ran ih old held known still kept
    rw [mem_changes_cons told, not_or] at still
    rw [List.mem_cons, not_or] at kept
    have old' := Nat.lt_of_lt_of_le old (nextTx_of_step h.guarded told)
    have running' := orderly.running_run ran distinct running old'
    have stays := h.stays told orderly ran distinct running
    have impact := h.impact told
    rw [ih old' (held_of_step h.guarded told running' held) (impact.table orderly.distinct known).1
      still.2 kept.2]
    exact impact.total h.toSteady held stays still.1 (Ne.symm kept.1) fun _ _ =>
      ⟨orderly.distinct, ref, known⟩

/-- The pages that a transaction has changed are under its exclusive locks until it ends. -/
theorem Orderly.held_of_changes (h : Orderly settings M) (ran : M.run es = some S)
    (distinct : S.store.catalog.Distinct) (running : S.running tx = true)
    (changed : (tx, id) ∈ M.changes es) :
    S.store.locks.Held tx id .exclusive ∧ S.store.catalog.Has id := by
  revert changed
  refine h.run_induction ran distinct ?_ ?_
  · exact fun _ never => by cases never
  · intro M e es reply s h told orderly ran ih changed
    rcases (mem_changes_cons told).mp changed with change | later
    · obtain ⟨before, alters⟩ := alters_of_change h.guarded told change
      have old : tx < s.nextTx := alters.nextTx ▸ h.started before
      have has := (h.impact told).has_of_change change
      exact ⟨orderly.held_run ran distinct running old alters.held, orderly.has_run ran distinct has⟩
    · exact ih later

theorem Orderly.started_of_changes (h : Orderly settings M) (ran : M.run es = some S)
    (distinct : S.store.catalog.Distinct) (changed : (tx, id) ∈ M.changes es) :
    tx < S.store.nextTx := by
  revert changed
  refine h.run_induction ran distinct ?_ ?_
  · exact fun _ never => by cases never
  · intro M e es reply s h told orderly ran ih changed
    rcases (mem_changes_cons told).mp changed with change | later
    · obtain ⟨before, -⟩ := alters_of_change h.guarded told change
      exact Nat.lt_of_lt_of_le (h.started before)
        (Nat.le_trans (nextTx_of_step h.guarded told) (orderly.nextTx_run ran distinct))
    · exact ih later

end Session
end HeapStore
