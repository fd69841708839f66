import HeapStore.Proofs.Tracing

/-! Aborts leave no trace. What a transaction makes of a page stays in the pool, unless it is written
through, and the file keeps what the page was before. -/
namespace HeapStore

namespace Store

variable {s s' t : Store} {tx : TxId}

/-- Empty pages may have been appended to the files of tables, and that is all that has happened to
any file. -/
structure Pads (s s' : Store) : Prop where
  tables : ∀ id ref, s.catalog.ref id = .ok ref → (s.catalog.table ref).Padded s.disk s'.disk
  others : ∀ name, (∀ id ref, s.catalog.ref id = .ok ref → (s.catalog.table ref).file ≠ name) →
    s'.disk.get? name = s.disk.get? name

theorem Upkeep.pads (h : s.Upkeep tx t) (same : s'.disk = t.disk) : s.Pads s' where
  tables id ref known := same ▸ h.padded id ref known
  others name apart := by
    rw [same]
    exact h.files name fun id ref known _ => apart id ref known

end Store

namespace Session
open Store

variable {M P S : Session} {es past : List Event} {e : Event} {reply : Reply} {s t : Store}
  {tx u : TxId} {id : PageId} {settings : Settings} {disk : Disk} {bytes : Bytes} {o : Op}

/-- The session just before a transaction changes a page for the first time. -/
def firstChange? (S : Session) (es : List Event) (tx : TxId) (id : PageId) : Option Session :=
  ((S.trace es).find? fun step => changeOf step.2 = some (tx, id)).map Prod.fst

theorem firstChange?_cons (told : S.outcome? e = some (reply, s)) : S.firstChange? (e :: es) tx id =
    if changeOf (e, reply) = some (tx, id) then some S
    else (S.after e reply s).firstChange? es tx id := by
  simp only [firstChange?, trace_cons told, List.find?_cons]
  by_cases change : changeOf (e, reply) = some (tx, id)
  · simp [change]
  · simp [change]

/-- A change that is not written through is in the pool and not on disk. -/
theorem kept_of_change (upkeep : S.store.Upkeep tx t) (rewritten : t.Rewritten tx id bytes s)
    (change : changeOf (e, reply) = some (tx, id)) (kept : through? (S, e, reply) ≠ some tx) :
    s.owner id = some tx ∧ s.saved id = t.saved id := by
  rcases rewritten.kept with pooled | ⟨-, -, through⟩
  · exact pooled
  · exact absurd (by simp [through?, change, upkeep.through through]) kept

/-- A step of a transaction that writes nothing through leaves the files to empty pages. -/
theorem Impact.pads (h : Impact S (.op tx o) reply s)
    (kept : through? (S, .op tx o, reply) ≠ some tx) : S.store.Pads s := by
  cases h with
  | looked u o own upkeep idle => exact upkeep.pads rfl
  | changed u o id bytes t own running alters upkeep rewritten change =>
    cases own
    exact upkeep.pads (rewritten.disk (kept_of_change upkeep rewritten change kept).1)
  | begun first store => cases first
  | completed u b ends holds completed => cases ends
  | landed p b flushes landed holds => cases flushes
  | opened new adds opened => cases adds

/-- A page that a transaction has not dirty becomes so by its changes only. -/
theorem Impact.unowned (h : Impact S e reply s) (clean : S.store.owner id ≠ some tx)
    (still : changeOf (e, reply) ≠ some (tx, id)) : s.owner id ≠ some tx := by
  cases h with
  | begun first store => rwa [store]
  | looked u o own upkeep idle => rwa [upkeep.owner]
  | changed u o other bytes t own running alters upkeep rewritten change =>
    by_cases here : id = other
    · subst here
      intro owned
      rcases rewritten.kept with ⟨mine, -⟩ | ⟨none, -⟩
      · cases mine.symm.trans owned
        exact still change
      · rw [none] at owned
        cases owned
    · rwa [(rewritten.others id here).1, upkeep.owner]
  | completed u b ends holds completed =>
    by_cases owned : S.store.owner id = some u
    · simp [(completed.landed id owned).1]
    · rwa [(completed.others id owned).1]
  | landed p b flushes landed holds =>
    by_cases taken : p id
    · simp [(landed.landed id taken).1]
    · rwa [(landed.others id taken).1]
  | opened new adds opened =>
    rw [show s.owner id = S.store.owner id by rw [owner, opened.rest]; rfl]
    exact clean

/-- The file keeps what it has of a page as long as a transaction has the page dirty. -/
theorem Impact.dirty (h : Impact S e reply s) (orderly : Orderly settings S)
    (distinct : s.catalog.Distinct) (owned : S.store.owner id = some tx) (stays : e.ends? ≠ some tx)
    (quiet : e.flushes = false) (kept : through? (S, e, reply) ≠ some tx) :
    s.owner id = some tx ∧ s.saved id = S.store.saved id := by
  have has := orderly.coherent.has_of_owner owned
  have held := orderly.guarded.owned id tx owned
  cases h with
  | begun first store =>
    rw [store]
    exact ⟨owned, rfl⟩
  | looked u o own upkeep idle => exact ⟨(upkeep.owner id).trans owned, upkeep.saved id (Or.inl has)⟩
  | changed u o other bytes t own running alters upkeep rewritten change =>
    by_cases here : id = other
    · subst here
      cases alters.alone held
      obtain ⟨mine, saved⟩ := kept_of_change upkeep rewritten change kept
      exact ⟨mine, saved.trans (upkeep.saved id (Or.inl has))⟩
    · obtain ⟨owner, saved⟩ := rewritten.others id here
      exact ⟨(owner.trans (upkeep.owner id)).trans owned, saved.trans (upkeep.saved id (Or.inl has))⟩
  | completed u b ends holds completed =>
    have other : S.store.owner id ≠ some u := by
      rw [owned]
      rintro ⟨⟩
      exact stays ends
    obtain ⟨owner, -, saved⟩ := completed.others id other
    exact ⟨owner.trans owned, saved⟩
  | landed p b flushes landed holds => cases quiet.symm.trans flushes
  | opened new adds opened =>
    obtain ⟨ref, known, -⟩ := has
    rw [show s.owner id = S.store.owner id by rw [owner, opened.rest]; rfl]
    exact ⟨owned, opened.saved orderly.coherent distinct known⟩

/-- At its first change of a page a transaction finds there what the file keeps from then on. -/
theorem Impact.first (h : Impact S e reply s) (orderly : Orderly settings S)
    (change : changeOf (e, reply) = some (tx, id)) (clean : S.store.owner id ≠ some tx)
    (kept : through? (S, e, reply) ≠ some tx) :
    S.store.owner id = none ∧ s.owner id = some tx ∧ s.saved id = S.store.total id := by
  obtain ⟨alters, t, bytes, upkeep, rewritten⟩ := h.of_change change
  have unowned : S.store.owner id = none := by
    cases owned : S.store.owner id with
    | none => rfl
    | some v =>
      have held := alters.locks v id _ (orderly.guarded.owned id v owned)
      rw [alters.guarded.locks tx v id _ alters.held held] at owned
      exact absurd owned clean
  obtain ⟨mine, saved⟩ := kept_of_change upkeep rewritten change kept
  have before : t.saved id = t.total id := by
    rw [total_of_has rewritten.has, upkeep.coherent.content_of_clean ((upkeep.owner id).trans unowned)]
  exact ⟨unowned, mine, by rw [saved, before, upkeep.total orderly.coherent]⟩

theorem Orderly.dirty_run (h : Orderly settings M) (ran : M.run es = some S)
    (distinct : S.store.catalog.Distinct) (running : S.running tx = true)
    (quiet : ∀ e ∈ es, e.flushes = false) (kept : ∀ step ∈ M.trace es, through? step ≠ some tx)
    (owned : M.store.owner id = some tx) :
    S.store.owner id = some tx ∧ S.store.saved id = M.store.saved id := by
  revert quiet kept owned
  refine h.run_induction ran distinct ?_ ?_
  · exact fun _ _ _ owned => ⟨owned, rfl⟩
  · intro M e es reply s h told orderly ran ih quiet kept owned
    rw [trace_cons told, List.forall_mem_cons] at kept
    rw [List.forall_mem_cons] at quiet
    obtain ⟨owned, saved⟩ := (h.impact told).dirty h orderly.distinct owned
      (h.stays told orderly ran distinct running) quiet.1 kept.1
    obtain ⟨owned, saved'⟩ := ih quiet.2 kept.2 owned
    exact ⟨owned, saved'.trans saved⟩

/-- The pages that a transaction has changed without writing any of them through are dirty, and the
files have what these pages were before. It has no other pages dirty. -/
theorem Orderly.dirty_of_firstChange (h : Orderly settings M) (ran : M.run es = some S)
    (distinct : S.store.catalog.Distinct) (running : S.running tx = true)
    (quiet : ∀ e ∈ es, e.flushes = false) (kept : ∀ step ∈ M.trace es, through? step ≠ some tx)
    (clean : M.store.owner id ≠ some tx) :
    (∀ P, M.firstChange? es tx id = some P → S.store.owner id = some tx ∧
      S.store.saved id = P.store.total id ∧ P.store.content id = P.store.saved id) ∧
    (M.firstChange? es tx id = none → S.store.owner id ≠ some tx) := by
  revert quiet kept clean
  refine h.run_induction ran distinct ?_ ?_
  · exact fun _ _ _ clean => ⟨fun _ never => (by cases never), fun _ => clean⟩
  · intro M e es reply s h told orderly ran ih quiet kept clean
    rw [trace_cons told, List.forall_mem_cons] at kept
    rw [List.forall_mem_cons] at quiet
    rw [firstChange?_cons told]
    have impact := h.impact told
    split
    · rename_i change
      obtain ⟨unowned, owned, saved⟩ := impact.first h change clean kept.1
      obtain ⟨owned, saved'⟩ := orderly.dirty_run ran distinct running quiet.2 kept.2 owned
      refine ⟨fun P first => ?_, fun none => (by cases none)⟩
      cases first
      exact ⟨owned, saved'.trans saved, h.coherent.content_of_clean unowned⟩
    · rename_i still
      exact ih quiet.2 kept.2 (impact.unowned clean still)

/-- An abort succeeds and leaves nothing of its transaction but empty pages that were appended to files
of tables, over incomplete ones at their ends. No page may have been written through. Until the
transaction ends the files have of each page what it was before the transaction changed it for the
first time, and from then on the page is this again. Other pages are as before the abort. -/
theorem abort_leaves_no_trace (ran : (start (Store.new settings disk)).run past = some M)
    (first : tx = M.store.nextTx) (ran' : M.run (.begin :: es) = some S)
    (distinct : S.store.catalog.Distinct) (running : S.running tx = true)
    (quiet : ∀ e ∈ es, e.flushes = false)
    (kept : ∀ step ∈ M.trace (.begin :: es), through? step ≠ some tx) :
    (∀ id P, M.firstChange? (.begin :: es) tx id = some P →
      P.store.content id = P.store.saved id ∧ S.store.saved id = P.store.total id) ∧
    (∀ P o reply, (P, .op tx o, reply) ∈ M.trace (.begin :: es) →
      ∃ s, P.outcome? (.op tx o) = some (reply, s) ∧ P.store.Pads s) ∧
    ∀ e, e = .abort tx ∨ e = .drop tx → ∃ S', S.step e = some S' ∧
      S'.replies = S.replies ++ [.ok .done] ∧ S'.store.disk = S.store.disk ∧
      (∀ id P, M.firstChange? (.begin :: es) tx id = some P →
        S'.store.content id = P.store.total id ∧ S'.store.saved id = P.store.total id) ∧
      ∀ id, M.firstChange? (.begin :: es) tx id = none → S'.store.owner id = S.store.owner id ∧
        S'.store.content id = S.store.content id ∧ S'.store.saved id = S.store.saved id := by
  have isolated := isolated_run ran
  have fresh : Orderly settings M := orderly_run ran ((isolated.extends_run ran').distinct distinct)
  have orderly : Orderly settings S :=
    orderly_run ((run_append _ past (.begin :: es)).trans (by rw [ran]; exact ran')) distinct
  have clean : ∀ id, M.store.owner id ≠ some tx := by
    intro id owned
    exact Nat.ne_of_lt (isolated.started tx (isolated.owned id tx owned).1) first
  have quiet : ∀ e ∈ Event.begin :: es, e.flushes = false := List.forall_mem_cons.mpr ⟨rfl, quiet⟩
  have pages := fun id => fresh.dirty_of_firstChange ran' distinct running quiet kept (clean id)
  have ends : ∀ e, e = .abort tx ∨ e = .drop tx → ∃ S', S.step e = some S' ∧
      S'.replies = S.replies ++ [.ok .done] ∧ S'.store.disk = S.store.disk ∧
      S.store.Completed tx S.store.saved S'.store := by
    rintro e (rfl | rfl)
    · obtain ⟨s, settled, completed, same⟩ := settle_returns (abort_completes orderly.coherent tx)
      exact ⟨_, step_eq_some_iff.mpr ⟨_, _, s, action?_abort_eq_some_iff.mpr ⟨running, rfl⟩, settled, rfl⟩,
        rfl, same, completed⟩
    · obtain ⟨s, settled, completed, same⟩ := settle_returns (drop_completes orderly.coherent tx)
      exact ⟨_, step_eq_some_iff.mpr ⟨_, _, s, action?_drop_eq_some_iff.mpr ⟨running, rfl⟩, settled, rfl⟩,
        rfl, same, completed⟩
  refine ⟨fun id P change => ?_, fun P o reply listed => ?_, fun e ending => ?_⟩
  · obtain ⟨-, saved, same⟩ := (pages id).1 P change
    exact ⟨same, saved⟩
  · obtain ⟨before, s, told⟩ := fresh.of_mem_trace ran' distinct listed
    exact ⟨s, told, (before.impact told).pads (kept _ listed)⟩
  · obtain ⟨S', stepped, replies, same, completed⟩ := ends e ending
    refine ⟨S', stepped, replies, same, fun id P change => ?_, fun id never => ?_⟩
    · obtain ⟨owned, saved, -⟩ := (pages id).1 P change
      obtain ⟨-, content, saved'⟩ := completed.landed id owned
      exact ⟨content.trans saved, saved'.trans saved⟩
    · exact completed.others id ((pages id).2 never)

/-- There is room for one more row on the page, so that the second one goes to a new page. Meanwhile
another transaction changes the other table. -/
def abandoned : List Event :=
  let schema : Schema := ⟨[⟨.integer, some "n"⟩]⟩
  [.op 2 (.insert 1 ⟨schema, [.integer 8], none⟩), .begin,
    .op 3 (.insert 2 ⟨schema, [.integer 9], none⟩), .op 2 (.insert 1 ⟨schema, [.integer 10], none⟩),
    .op 2 (.delete (some ⟨⟨1, 0⟩, 0⟩))]

theorem abort_leaves_no_trace_appended :
    let schema : Schema := ⟨[⟨.integer, some "n"⟩]⟩
    ∃ M S S' P Q, (start (Store.new { pageSize := 16, poolPages := 3 })).run
        [.addTable (.create "odd" "odd" schema "n"), .addTable (.create "even" "even" schema "n"),
          .begin, .op 1 (.insert 1 ⟨schema, [.integer 6], none⟩),
          .op 1 (.insert 1 ⟨schema, [.integer 7], none⟩), .commit 1] = some M ∧
      M.run (.begin :: abandoned) = some S ∧
      M.firstChange? (.begin :: abandoned) 2 ⟨1, 0⟩ = some P ∧
      M.firstChange? (.begin :: abandoned) 2 ⟨1, 1⟩ = some Q ∧ S.step (.abort 2) = some S' ∧
      S'.store.saved ⟨1, 0⟩ = P.store.total ⟨1, 0⟩ ∧ S'.store.content ⟨1, 1⟩ = Q.store.total ⟨1, 1⟩ := by
  intro schema
  have facts : ((start (Store.new { pageSize := 16, poolPages := 3 })).run
      [.addTable (.create "odd" "odd" schema "n"), .addTable (.create "even" "even" schema "n"),
        .begin, .op 1 (.insert 1 ⟨schema, [.integer 6], none⟩),
        .op 1 (.insert 1 ⟨schema, [.integer 7], none⟩), .commit 1]).any (fun M =>
      2 = M.store.nextTx ∧ (M.firstChange? (.begin :: abandoned) 2 ⟨1, 0⟩).isSome = true ∧
      (M.firstChange? (.begin :: abandoned) 2 ⟨1, 1⟩).isSome = true ∧
      (∀ step ∈ M.trace (.begin :: abandoned), through? step ≠ some 2) ∧
      (M.run (.begin :: abandoned)).any (fun S =>
        S.store.catalog.Distinct ∧ S.running 2 = true) = true) = true := by
    decide +kernel
  obtain ⟨M, ran, facts⟩ := (Option.any_eq_true _ _).mp facts
  obtain ⟨first, old, appended, kept, facts⟩ := of_decide_eq_true facts
  obtain ⟨P, old⟩ := Option.isSome_iff_exists.mp old
  obtain ⟨Q, appended⟩ := Option.isSome_iff_exists.mp appended
  obtain ⟨S, ran', facts⟩ := (Option.any_eq_true _ _).mp facts
  obtain ⟨distinct, running⟩ := of_decide_eq_true facts
  obtain ⟨-, -, ends⟩ := abort_leaves_no_trace ran first ran' distinct running (by decide) kept
  obtain ⟨S', stepped, -, -, pages, -⟩ := ends (.abort 2) (Or.inl rfl)
  exact ⟨M, S, S', P, Q, ran, ran', old, appended, stepped, (pages _ P old).2, (pages _ Q appended).1⟩

/-- An incomplete page at the end of a file is not restored, and neither is a page that was cached for a
table whose id has passed to another one. -/
theorem abort_leaves_traces :
    let schema : Schema := ⟨[⟨.integer, some "n"⟩]⟩
    let settings : Settings := { pageSize := 16, poolPages := 2 }
    let own (tx : TxId) : List Event := [.begin, .op tx (.insert 1 ⟨schema, [.integer 8], none⟩)]
    (∃ M S S', (start (Store.new settings ⟨[("odd", .ofBytes (.replicate 20 255))]⟩)).run
        [.addTable (.load "odd" "odd" schema "n")] = some M ∧
      M.run (own 1) = some S ∧
      (∀ step ∈ M.trace (own 1), through? step ≠ some 1) ∧ S.step (.abort 1) = some S' ∧
      (M.store.disk.get? "odd").map (·.byte 16) = some 255 ∧
      (S'.store.disk.get? "odd").map (·.byte 16) = some 0) ∧
    ∃ M S S' P, (start (Store.new settings ⟨[("odd", .ofBytes (.zeros 16)),
          ("even", .ofBytes (.zeros 16))]⟩)).run
        [.addTable (.loadWithId 1 "odd" "odd" schema "n" 16), .begin,
          .op 1 (.insert 1 ⟨schema, [.integer 7], none⟩), .commit 1,
          .addTable (.loadWithId 1 "even" "even" schema "n" 16)] = some M ∧
      M.run (own 2) = some S ∧
      (∀ step ∈ M.trace (own 2), through? step ≠ some 2) ∧
      M.firstChange? (own 2) 2 ⟨1, 0⟩ = some P ∧
      S.step (.abort 2) = some S' ∧ S'.store.content ⟨1, 0⟩ ≠ P.store.content ⟨1, 0⟩ := by
  intro schema settings own
  constructor
  · have facts : ((start (Store.new settings ⟨[("odd", .ofBytes (.replicate 20 255))]⟩)).run
        [.addTable (.load "odd" "odd" schema "n")]).any (fun M =>
        (∀ step ∈ M.trace (own 1), through? step ≠ some 1) ∧
        (M.store.disk.get? "odd").map (·.byte 16) = some 255 ∧
        (M.run (own 1)).any (fun S =>
          (S.step (.abort 1)).any fun S' =>
            decide ((S'.store.disk.get? "odd").map (·.byte 16) = some 0)) = true) = true := by
      decide +kernel
    obtain ⟨M, ran, facts⟩ := (Option.any_eq_true _ _).mp facts
    obtain ⟨kept, before, facts⟩ := of_decide_eq_true facts
    obtain ⟨S, ran', facts⟩ := (Option.any_eq_true _ _).mp facts
    obtain ⟨S', stepped, after⟩ := (Option.any_eq_true _ _).mp facts
    exact ⟨M, S, S', ran, ran', kept, stepped, before, of_decide_eq_true after⟩
  · have facts : ((start (Store.new settings ⟨[("odd", .ofBytes (.zeros 16)),
          ("even", .ofBytes (.zeros 16))]⟩)).run
        [.addTable (.loadWithId 1 "odd" "odd" schema "n" 16), .begin,
          .op 1 (.insert 1 ⟨schema, [.integer 7], none⟩), .commit 1,
          .addTable (.loadWithId 1 "even" "even" schema "n" 16)]).any (fun M =>
        (∀ step ∈ M.trace (own 2), through? step ≠ some 2) ∧
        (M.firstChange? (own 2) 2 ⟨1, 0⟩).any
          (fun P => (M.run (own 2)).any fun S =>
            (S.step (.abort 2)).any fun S' =>
              decide (S'.store.content ⟨1, 0⟩ ≠ P.store.content ⟨1, 0⟩)) = true) = true := by
      decide +kernel
    obtain ⟨M, ran, facts⟩ := (Option.any_eq_true _ _).mp facts
    obtain ⟨kept, facts⟩ := of_decide_eq_true facts
    obtain ⟨P, first, facts⟩ := (Option.any_eq_true _ _).mp facts
    obtain ⟨S, ran', facts⟩ := (Option.any_eq_true _ _).mp facts
    obtain ⟨S', stepped, after⟩ := (Option.any_eq_true _ _).mp facts
    exact ⟨M, S, S', P, ran, ran', kept, first, stepped, of_decide_eq_true after⟩

end Session
end HeapStore
