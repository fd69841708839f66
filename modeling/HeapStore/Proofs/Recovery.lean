import HeapStore.Proofs.Opening
import HeapStore.Proofs.Reading

/-! A crash is the same as aborting everything that is under way. What table files hold at any moment
is what aborts would take all pages back to. -/
namespace HeapStore.Session
open Store

variable {S S' : Session} {es : List Event} {settings : Settings} {disk : Disk} {tx : TxId}

/-! Aborting everything -/

/-- Some transactions were aborted: their pages and their locks are given up, the files are as they
were. -/
structure Aborted (settings : Settings) (txs : List TxId) (S S' : Session) : Prop where
  sane : Sane settings S'
  rest : S'.store = { S.store with pool := S'.store.pool, locks := S'.store.locks }
  owner : ∀ id u, S'.store.owner id = some u → S.store.owner id = some u ∧ u ∉ txs
  running : ∀ u, S'.running u = true → S.running u = true ∧ u ∉ txs
  replies : S'.replies = S.replies ++ txs.map fun _ => .ok .done

theorem abort_step (h : Sane settings S) (running : S.running tx = true) :
    ∃ S', S.step (.abort tx) = some S' ∧ Aborted settings [tx] S S' ∧
      ∀ u, S'.running u = (u ≠ tx && S.running u) := by
  obtain ⟨s, settled, completed, same⟩ := settle_returns (abort_completes h.coherent tx)
  have running_after := running_finish S tx
  refine ⟨_, step_eq_some_iff.mpr ⟨_, _, s, action?_abort_eq_some_iff.mpr ⟨running, rfl⟩, settled, rfl⟩,
    ⟨h.completed completed running_after, ?_, ?_, ?_, rfl⟩, running_after⟩
  · have rest := completed.rest
    rw [same] at rest
    rw [rest]
    rfl
  · intro id u owner
    change s.owner id = some u at owner
    by_cases mine : S.store.owner id = some tx
    · rw [(completed.landed id mine).1] at owner
      cases owner
    · rw [(completed.others id mine).1] at owner
      refine ⟨owner, fun listed => mine ?_⟩
      rw [← List.mem_singleton.mp listed]
      exact owner
  · intro u after
    have still := (running_after u).symm.trans after
    rw [Bool.and_eq_true, decide_eq_true_eq] at still
    exact ⟨still.2, fun listed => still.1 (List.mem_singleton.mp listed)⟩

theorem abort_run (h : Sane settings S) (txs : List TxId) (once : txs.Nodup)
    (running : ∀ tx ∈ txs, S.running tx = true) :
    ∃ S', S.run (txs.map .abort) = some S' ∧ Aborted settings txs S S' := by
  induction txs generalizing S with
  | nil => exact ⟨S, rfl, h, rfl, fun _ _ owner => ⟨owner, by simp⟩, fun _ run => ⟨run, by simp⟩, by simp⟩
  | cons tx txs ih =>
    obtain ⟨fresh, once⟩ := List.nodup_cons.mp once
    obtain ⟨T, stepped, first, others⟩ := abort_step h (running tx (List.mem_cons_self ..))
    obtain ⟨S', ran, later⟩ := ih first.sane once fun u listed => by
      rw [others, running u (List.mem_cons_of_mem _ listed), Bool.and_true, decide_eq_true_eq]
      rintro rfl
      exact fresh listed
    refine ⟨S', ?_, later.sane, ?_, ?_, ?_, ?_⟩
    · rw [List.map_cons, run_cons, stepped]
      exact ran
    · rw [later.rest, first.rest]
    · intro id u owner
      obtain ⟨before, absent⟩ := later.owner id u owner
      obtain ⟨start, other⟩ := first.owner id u before
      exact ⟨start, by simp_all⟩
    · intro u after
      obtain ⟨before, absent⟩ := later.running u after
      obtain ⟨start, other⟩ := first.running u before
      exact ⟨start, by simp_all⟩
    · rw [later.replies, first.replies, List.append_assoc]
      rfl

/-- Nothing is under way in a session that has only opened tables. -/
theorem idle_of_opened {opening : List NewTable}
    (ran : (start (Store.new settings disk)).run (opening.map .addTable) = some S)
    (distinct : S.store.catalog.Distinct) (frames : 0 < settings.poolPages) :
    S.store.Idle ∧ ∀ u id, ¬S.store.locks.Held u id .exclusive := by
  obtain ⟨-, -, fresh⟩ := opened_run ran
  have sane := sane_run ran distinct
  refine ⟨⟨sane.coherent, fresh.owner, ?_⟩, fun u id => fresh.unlocked u id .exclusive⟩
  rw [fresh.settings]
  exact frames

/-- Once everything is aborted nothing is under way any more. -/
theorem Aborted.idle {txs : List TxId} (aborted : Aborted settings txs S S') (isolated : Isolated es S)
    (all : ∀ tx, S.running tx = true → tx ∈ txs) (frames : 0 < settings.poolPages) :
    S'.store.Idle ∧ ∀ u id, ¬S'.store.locks.Held u id .exclusive := by
  refine ⟨⟨aborted.sane.coherent, fun id => ?_, ?_⟩, fun u id held => ?_⟩
  · cases dirty : S'.store.owner id with
    | none => rfl
    | some u =>
      obtain ⟨before, absent⟩ := aborted.owner id u dirty
      exact absurd (all u (isolated.owned id u before).1) absent
  · rw [aborted.sane.settings]
    exact frames
  · obtain ⟨before, absent⟩ := aborted.running u (aborted.sane.locked u id held)
    exact absent (all u before)

/-- Two stores in which nothing is under way tell the same of a table file that they share. -/
theorem scanned_congr {s s' : Store} {id id' : TableId} {t t' : Table} (h : s.Idle) (h' : s'.Idle)
    (free : ∀ u id, ¬s.locks.Held u id .exclusive) (free' : ∀ u id, ¬s'.locks.Held u id .exclusive)
    (deadline : s'.settings.hasDeadline = s.settings.hasDeadline)
    (found : s.catalog.byId id = .ok t) (found' : s'.catalog.byId id' = .ok t')
    (file : t'.file = t.file) (schema : t'.schema = t.schema) (pageSize : t'.pageSize = t.pageSize)
    (kept : s'.disk.get? t.file = s.disk.get? t.file) : s'.scanned id' = s.scanned id := by
  obtain ⟨ref, known, rfl⟩ := Catalog.byId_eq_ok_iff.mp found
  obtain ⟨ref', known', rfl⟩ := Catalog.byId_eq_ok_iff.mp found'
  obtain ⟨f, there, length⟩ := h.coherent.backed _ _ known
  obtain ⟨f', there', length'⟩ := h'.coherent.backed _ _ known'
  obtain ⟨-, key⟩ := h.coherent.guarded.keyed _ _ known
  obtain ⟨-, key'⟩ := h'.coherent.guarded.keyed _ _ known'
  rw [file, kept, there] at there'
  cases there'
  have pages : (s'.catalog.table ref').pages = (s.catalog.table ref).pages := by
    rw [Table.pages, Table.pages, ← length, ← length', pageSize]
  have unreadable : s'.Unreadable ref' ↔ s.Unreadable ref := by
    rw [Unreadable, Unreadable, pageSize, pages, deadline]
  have bytes : ∀ number, s'.content ⟨(s'.catalog.table ref').id, number⟩ =
      s.content ⟨(s.catalog.table ref).id, number⟩ := by
    intro number
    have known : s.catalog.ref (PageId.mk (s.catalog.table ref).id number).table = .ok ref := key ▸ known
    have known' : s'.catalog.ref (PageId.mk (s'.catalog.table ref').id number).table = .ok ref' :=
      key' ▸ known'
    rw [h.coherent.content_of_clean (h.clean _), h'.coherent.content_of_clean (h'.clean _),
      saved_of_ref known, saved_of_ref known', Table.bytes, Table.bytes, file, kept, pageSize]
  have rows := Plain.placed_rowsFrom (v := s.view) (w := s'.view) schema pageSize pages
    (fun number _ => bytes number) 0
  rw [scanned_eq h known free, scanned_eq h' known' free', rows]
  simp only [unreadable]

/-- A crash is the same as aborting everything that is under way, at any time and at any capacity of
the pool that is not zero. Aborting all running transactions succeeds. A fresh store on the files that
there are before that can open every table again, and scans of its tables tell what scans of the same
tables tell after the aborts: the same values at the same places in the same order. Unless locks are
asked for without an end, these scans are not cut short. -/
theorem crash_as_abort (ran : (start (Store.new settings disk)).run es = some S)
    (distinct : S.store.catalog.Distinct) (frames : 0 < settings.poolPages) (txs : List TxId)
    (active : ∀ tx, tx ∈ txs ↔ S.running tx = true) (once : txs.Nodup) :
    ∃ S', S.run (txs.map .abort) = some S' ∧
      S'.replies = S.replies ++ txs.map (fun _ => .ok .done) ∧ (∀ tx, S'.running tx = false) ∧
      ∀ (fresh : Settings) (opening : List NewTable) (F : Session),
        (start (Store.new fresh S.store.disk)).run (opening.map .addTable) = some F →
        F.store.catalog.Distinct → 0 < fresh.poolPages → fresh.hasDeadline = settings.hasDeadline →
        ∀ id t, S.store.catalog.byId id = .ok t →
          (∀ id' name key, openWithId id' t.file name t.schema key t.pageSize F.store =
            .ok () { F.store with catalog := F.store.catalog.add { t with id := id' } name key }) ∧
          (settings.hasDeadline = true → t.pageSize ≠ 0 →
            ∃ rows, S'.store.scanned id = .ok (rows, none)) ∧
          ∀ id' t', F.store.catalog.byId id' = .ok t' → t'.file = t.file → t'.schema = t.schema →
            t'.pageSize = t.pageSize → F.store.scanned id' = S'.store.scanned id := by
  have sane := sane_run ran distinct
  obtain ⟨S', aborts, aborted⟩ := abort_run sane txs once fun tx listed => (active tx).mp listed
  have settled : ∀ tx, S'.running tx = false := by
    intro tx
    apply Bool.eq_false_iff.mpr
    intro running
    obtain ⟨before, absent⟩ := aborted.running tx running
    exact absent ((active tx).mpr before)
  have catalog : S'.store.catalog = S.store.catalog := by rw [aborted.rest]
  have disk : S'.store.disk = S.store.disk := by rw [aborted.rest]
  obtain ⟨idle', free'⟩ := aborted.idle (isolated_run ran) (fun tx => (active tx).mpr) frames
  refine ⟨S', aborts, aborted.replies, settled, fun fresh opening F ran' distinct' frames' same id t
    found => ⟨fun id' name key => ?_, fun deadline some => ?_,
      fun id' t' found' file schema pageSize => ?_⟩⟩
  · obtain ⟨ref, known, rfl⟩ := Catalog.byId_eq_ok_iff.mp found
    obtain ⟨f, there, length⟩ := sane.coherent.backed _ _ known
    have there' := (opened_run ran').2.2.files _ f there
    exact openWithId_eq F.store
      (Table.load_eq ⟨f, there', length⟩ (sane.coherent.named _ _ known) id')
  · rw [← catalog] at found
    obtain ⟨ref, known, rfl⟩ := Catalog.byId_eq_ok_iff.mp found
    rw [scanned_eq idle' known free', if_neg]
    · exact ⟨_, rfl⟩
    · rintro (none | ⟨-, never⟩)
      · exact some none
      · rw [aborted.sane.settings, deadline] at never
        cases never
  · obtain ⟨idle, free⟩ := idle_of_opened ran' distinct' frames'
    obtain ⟨ref, known, rfl⟩ := Catalog.byId_eq_ok_iff.mp found
    obtain ⟨f, there, -⟩ := sane.coherent.backed _ _ known
    have deadline : F.store.settings.hasDeadline = S'.store.settings.hasDeadline := by
      rw [aborted.sane.settings, ← same, (sane_run ran' distinct').settings]
    refine scanned_congr idle' idle free' free deadline (catalog ▸ found) found' file schema pageSize ?_
    rw [disk, there]
    exact (opened_run ran').2.2.files _ f there

/-- The transaction has changed a page of each of two tables. There is one frame, so that the second
change went through to the file. -/
def throughChange : List Event :=
  let schema : Schema := ⟨[⟨.integer, some "n"⟩]⟩
  [.addTable (.create "odd" "odd" schema "n"), .addTable (.create "even" "even" schema "n"), .begin,
    .op 1 (.insert 1 ⟨schema, [.integer 7], none⟩), .op 1 (.insert 2 ⟨schema, [.integer 8], none⟩)]

theorem crash_as_abort_through :
    let settings : Settings := { pageSize := 16, poolPages := 1 }
    let schema : Schema := ⟨[⟨.integer, some "n"⟩]⟩
    ∃ S S' F, (start (Store.new settings)).run throughChange = some S ∧
      S.run [.abort 1] = some S' ∧
      (start (Store.new settings S.store.disk)).run
        [.addTable (.load "even" "even" schema "n")] = some F ∧
      F.store.scanned 1 = S'.store.scanned 2 ∧
      F.store.scanned 1 = .ok ([(some (0, 0), [.integer 8])], none) := by
  intro settings schema
  have facts : ((start (Store.new settings)).run throughChange).any (fun S =>
      S.store.catalog.Distinct ∧ S.store.nextTx = 2 ∧ (∀ tx < 2, tx ∈ [1] ↔ S.running tx = true) ∧
      (S.store.catalog.byId 2).toOption = some ⟨2, "even", schema, 16, 16⟩ ∧
      ((start (Store.new settings S.store.disk)).run
        [.addTable (.load "even" "even" schema "n")]).any (fun F =>
          F.store.catalog.Distinct ∧
          (F.store.catalog.byId 1).toOption = some ⟨1, "even", schema, 16, 16⟩ ∧
          (F.store.scanned 1).toOption = some ([(some (0, 0), [.integer 8])], none)) = true) = true := by
    decide +kernel
  obtain ⟨S, ran, facts⟩ := (Option.any_eq_true _ _).mp facts
  obtain ⟨distinct, next, active, found, facts⟩ := of_decide_eq_true facts
  obtain ⟨F, ran', facts⟩ := (Option.any_eq_true _ _).mp facts
  obtain ⟨distinct', found', rows⟩ := of_decide_eq_true facts
  have active' : ∀ tx, tx ∈ [1] ↔ S.running tx = true := by
    intro tx
    by_cases started : tx < 2
    · exact active tx started
    · refine ⟨fun one => ?_, fun running => ?_⟩
      · rw [List.mem_singleton.mp one] at started
        exact absurd (by decide) started
      · exact absurd (next ▸ (isolated_run ran).started tx running) started
  obtain ⟨S', aborts, -, -, scans⟩ :=
    crash_as_abort ran distinct (by decide) [1] active' (by decide)
  obtain ⟨-, -, same⟩ := scans settings
    [.load "even" "even" schema "n"] F ran' distinct' (by decide) rfl 2 _ (of_toOption found)
  have same := same 1 _ (of_toOption found') rfl rfl rfl
  exact ⟨S, S', F, ran, aborts, ran', same, of_toOption rows⟩

end HeapStore.Session
