import HeapStore.Proofs.Tracing

/-! What is left of a transaction that has ended. No page is dirty by it and its locks were given back,
but a scan that it has left behind asks for locks in its name again, and these nobody gives back. -/
namespace HeapStore.Session
open Store

variable {S S' : Session} {es past : List Event} {e : Event} {reply : Reply} {s : Store}
  {tx u : TxId} {id : PageId} {mode : LockMode} {steps : List (Session × Event × Reply)}

/-- The transaction in whose name a step uses a scan after its end. -/
def straggler? (step : Session × Event × Reply) : Option TxId :=
  match step.2.1 with
  | .op tx (.iterate _ _) => if step.1.running tx then none else some tx
  | _ => none

theorem straggler?_eq {o : Op} (told : S.outcome? (.op tx o) = some (reply, s))
    (ended : S.running tx = false) : o.iterates = true ∧ straggler? (S, .op tx o, reply) = some tx := by
  obtain ⟨x, found, -⟩ := Option.bind_eq_some_iff.mp told
  obtain ⟨c, client, allowed, -⟩ := action?_op_eq_some_iff.mp found
  have stopped : c.running = false := by
    rw [← ended, running, client]
    rfl
  rw [stopped, Bool.false_or] at allowed
  cases o with
  | iterate k step => exact ⟨rfl, by simp [straggler?, ended]⟩
  | insert _ _ | delete _ | scan _ => cases allowed

/-- Whoever is on record with a lock has not ended, or has got the lock by a scan after its end. -/
structure Accounted (steps : List (Session × Event × Reply)) (S : Session) : Prop where
  started : ∀ u c, S.clients.get? u = some c → u < S.store.nextTx
  locks : ∀ u id mode, S.store.locks.Held u id mode → u < S.store.nextTx ∧
    (S.running u = true ∨ mode = .shared ∧ ∃ step ∈ steps, straggler? step = some u)

theorem accounted_start (settings : Settings) (disk : Disk) :
    Accounted [] (start (Store.new settings disk)) :=
  ⟨fun _ _ never => (by cases never), fun _ _ _ held => absurd held (Locks.not_held_empty _)⟩

theorem Accounted.step (h : Accounted steps S) (guarded : S.store.Guarded) (assigned : S.Assigned)
    (told : S.outcome? e = some (reply, s)) :
    Accounted (steps ++ [(S, e, reply)]) (S.after e reply s) := by
  have next : S.store.nextTx ≤ s.nextTx := nextTx_of_step guarded told
  refine ⟨fun u c' client => ?_, fun u id mode held => ?_⟩
  · rcases scans_after client with ⟨⟨rfl, began⟩, -⟩ | ⟨c, before, -⟩
    · cases told
      cases began
      exact Nat.lt_succ_self _
    · exact Nat.lt_of_lt_of_le (h.started u c before) next
  · rcases (assigned.sparse told).own u id mode held with before | ⟨o, rfl, shared⟩
    · obtain ⟨old, running | ⟨shared, step, listed, late⟩⟩ := h.locks u id mode before
      · refine ⟨Nat.lt_of_lt_of_le old next, Or.inl ?_⟩
        rcases effect_of_outcome guarded told with
          ⟨rfl, rfl, -⟩ | ⟨-, same, -⟩ | ⟨-, -, -, -, same, -⟩ | ⟨v, ended, -, rest, -⟩
        · rw [running_after_begin, running, Bool.or_true]
        · rwa [same]
        · rwa [same]
        · rw [rest, running, Bool.and_true, decide_eq_true_eq]
          rintro rfl
          exact ended.released id mode held
      · exact ⟨Nat.lt_of_lt_of_le old next,
          Or.inr ⟨shared, step, List.mem_append_left _ listed, late⟩⟩
    · obtain ⟨x, found, -⟩ := Option.bind_eq_some_iff.mp told
      obtain ⟨c, client, -⟩ := action?_op_eq_some_iff.mp found
      refine ⟨Nat.lt_of_lt_of_le (h.started u c client) next, ?_⟩
      rw [running_after_op]
      cases running : S.running u with
      | true => exact Or.inl rfl
      | false =>
        obtain ⟨iterates, late⟩ := straggler?_eq told running
        exact Or.inr ⟨shared iterates, _, List.mem_append_right _ (List.mem_singleton.mpr rfl), late⟩

theorem accounted_run {settings : Settings} {disk : Disk}
    (ran : (start (Store.new settings disk)).run es = some S) :
    Accounted ((start (Store.new settings disk)).trace es) S := by
  refine (run_invariant (I := fun es S => (start (Store.new settings disk)).run es = some S ∧
    Accounted ((start (Store.new settings disk)).trace es) S) ?_
    ⟨rfl, accounted_start settings disk⟩ ran).2
  rintro es S e S' ⟨ran, accounted⟩ stepped
  refine ⟨run_snoc ran stepped, ?_⟩
  obtain ⟨reply, s, told, rfl⟩ := outcome?_of_step stepped
  rw [trace_append ran, trace_cons told]
  exact accounted.step (isolated_run ran).guarded (assigned_run ran) told

/-- A transaction that has ended takes no part in what follows, and what it holds it keeps. -/
theorem held_of_ended (h : S.store.Guarded) (told : S.outcome? e = some (reply, s))
    (ended : S.running tx = false) (old : tx < S.store.nextTx)
    (held : S.store.locks.Held tx id mode) :
    (S.after e reply s).running tx = false ∧ s.locks.Held tx id mode := by
  rcases effect_of_outcome h told with
    ⟨rfl, rfl, rfl⟩ | ⟨keeps, same, -⟩ | ⟨_, _, alters, -, same, -⟩ | ⟨u, ends, running, rest, -⟩
  · refine ⟨?_, held⟩
    rw [running_after_begin, ended, Bool.or_false, decide_eq_false_iff_not]
    exact Nat.ne_of_lt old
  · exact ⟨(same tx).trans ended, keeps.locks _ _ _ held⟩
  · exact ⟨(same tx).trans ended, alters.locks _ _ _ held⟩
  · have other : tx ≠ u := by
      rintro rfl
      rw [ended] at running
      cases running
    exact ⟨by rw [rest, ended, Bool.and_false], ends.locks _ _ _ other held⟩

theorem Isolated.held_of_ended_run (h : Isolated past S) (ran : S.run es = some S')
    (ended : S.running tx = false) (old : tx < S.store.nextTx)
    (held : S.store.locks.Held tx id mode) :
    S'.running tx = false ∧ S'.store.locks.Held tx id mode := by
  induction es generalizing past S with
  | nil =>
    cases ran
    exact ⟨ended, held⟩
  | cons e es ih =>
    rw [run_cons, Option.bind_eq_some_iff] at ran
    obtain ⟨T, stepped, ran⟩ := ran
    have isolated := h.step stepped
    obtain ⟨reply, s, told, rfl⟩ := outcome?_of_step stepped
    obtain ⟨ended, held⟩ := held_of_ended h.guarded told ended old held
    exact ih isolated ran ended (Nat.lt_of_lt_of_le old (nextTx_of_step h.guarded told)) held

/-- No page is dirty by a transaction that has ended, and the only locks on record for it are shared
ones that it got by using a scan after its end. But these stay on record for good, and keep everybody
else from changing the page. -/
theorem ended_holds_no_more_than_scanned {settings : Settings} {disk : Disk}
    (ran : (start (Store.new settings disk)).run es = some S) :
    (∀ id u, S.store.owner id = some u → S.running u = true) ∧
    (∀ u id mode, S.store.locks.Held u id mode → S.running u = true ∨ mode = .shared ∧
      ∃ step ∈ (start (Store.new settings disk)).trace es, straggler? step = some u) ∧
    ∀ u id mode later S', S.running u = false → S.store.locks.Held u id mode →
      S.run later = some S' → S'.store.locks.Held u id mode ∧
        ∀ v ≠ u, S'.store.locks.acquire? id v .exclusive = none := by
  have isolated := isolated_run ran
  have accounted := accounted_run ran
  refine ⟨fun id u owned => (isolated.owned id u owned).1,
    fun u id mode held => (accounted.locks u id mode held).2, ?_⟩
  intro u id mode later S' ended held ran'
  obtain ⟨-, kept⟩ := isolated.held_of_ended_run ran' ended (accounted.locks u id mode held).1 held
  have whole : (start (Store.new settings disk)).run (es ++ later) = some S' := by
    rw [run_append, ran]
    exact ran'
  exact ⟨kept, fun v other => (isolated_run whole).guarded.locks.denied_of_clash
    (Ne.symm other) kept (Locks.clash_exclusive mode)⟩

/-- A scan is started only after its transaction has been committed. -/
def lateScan : List Event :=
  let schema : Schema := ⟨[⟨.integer, some "n"⟩]⟩
  [.addTable (.create "numbers" "numbers" schema "n"), .begin,
    .op 1 (.insert 1 ⟨schema, [.integer 7], none⟩), .commit 1,
    .begin, .op 2 (.scan 1), .commit 2, .op 2 (.iterate 0 .start)]

/-- The row that is to be removed is on a page that the scan keeps locked. -/
theorem ended_holds_no_more_than_scanned_late :
    ∃ S S', (start (Store.new { pageSize := 16, poolPages := 1 })).run lateScan = some S ∧
      S.run [.begin, .op 3 (.delete (some ⟨⟨1, 0⟩, 0⟩))] = some S' ∧ S'.running 2 = false ∧
      S'.store.locks.Held 2 ⟨1, 0⟩ .shared ∧ S'.store.locks.acquire? ⟨1, 0⟩ 3 .exclusive = none := by
  have facts : ((start (Store.new { pageSize := 16, poolPages := 1 })).run lateScan).any (fun S =>
      S.running 2 = false ∧ (S.store.locks.holders ⟨1, 0⟩).lists 2 .shared = true ∧
      (S.run [.begin, .op 3 (.delete (some ⟨⟨1, 0⟩, 0⟩))]).any
        (fun S' => decide (S'.running 2 = false)) = true) = true := by
    decide +kernel
  obtain ⟨S, ran, facts⟩ := (Option.any_eq_true _ _).mp facts
  obtain ⟨ended, held, facts⟩ := of_decide_eq_true facts
  obtain ⟨S', ran', ended'⟩ := (Option.any_eq_true _ _).mp facts
  obtain ⟨-, -, kept⟩ := ended_holds_no_more_than_scanned ran
  obtain ⟨held', denied⟩ := kept 2 ⟨1, 0⟩ .shared _ S' ended held ran'
  exact ⟨S, S', ran, ran', of_decide_eq_true ended', held', denied 3 (by decide)⟩

/-- A transaction that has ended may be on record with a lock. -/
theorem late_scan_holds :
    ∃ S, (start (Store.new { pageSize := 16, poolPages := 1 })).run lateScan = some S ∧
      S.running 2 = false ∧ S.store.locks.Held 2 ⟨1, 0⟩ .shared := by
  have facts : ((start (Store.new { pageSize := 16, poolPages := 1 })).run lateScan).any (fun S =>
      S.running 2 = false ∧ (S.store.locks.holders ⟨1, 0⟩).lists 2 .shared = true) = true := by
    decide +kernel
  obtain ⟨S, ran, facts⟩ := (Option.any_eq_true _ _).mp facts
  obtain ⟨ended, held⟩ := of_decide_eq_true facts
  exact ⟨S, ran, ended, held⟩

end HeapStore.Session
