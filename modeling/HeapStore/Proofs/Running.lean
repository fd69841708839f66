import HeapStore.Session
import HeapStore.Proofs.Endings

/-! What a step of a session leads to, and invariants of whole runs. -/
namespace HeapStore.Session

variable {S S' : Session} {e : Event} {tx u : TxId} {s s' : Store} {reply : Reply}

theorem settle_eq_some {x : Action Answer} {Q : Except Stop Answer → Store → Prop}
    (h : x.Ends s Q) (settled : settle x s = some (reply, s')) : Q (reply.mapError .failed) s' := by
  unfold Action.Ends at h
  unfold settle at settled
  split at settled
  · rename_i ended
    rw [ended] at h
    cases settled
    exact h
  · rename_i ended
    rw [ended] at h
    cases settled
    exact h
  · cases settled

theorem mapError_ne_crashed {α : Type} (answer : Except Failure α) :
    answer.mapError Stop.failed ≠ .error .crashed := by
  cases answer <;> simp [Action.mapError_ok, Action.mapError_error]

theorem settle_eq_ok_iff {x : Action Answer} {a : Answer} :
    settle x s = some (.ok a, s') ↔ x s = .ok a s' := by
  unfold settle
  cases x s with
  | ok a t => simp
  | error e t => cases e <;> simp

theorem settle_eq_error_iff {x : Action Answer} {f : Failure} :
    settle x s = some (.error f, s') ↔ x s = .error (.failed f) s' := by
  unfold settle
  cases x s with
  | ok a t => simp
  | error e t => cases e <;> simp

/-- As `settle_eq_some`, for an action of which nothing is told. -/
theorem settle_done {α : Type} {y : Action α} {Q : Except Stop α → Store → Prop} (h : y.Ends s Q)
    (settled : settle (do let _ ← y; return .done) s = some (reply, s')) :
    ∃ answer : Except Failure α, reply = answer.map (fun _ => .done) ∧ Q (answer.mapError .failed) s' := by
  have ends : Action.Ends (do let _ ← y; return Answer.done) s fun r s' =>
      (∃ a, r = .ok .done ∧ Q (.ok a) s') ∨ ∃ e, r = .error e ∧ Q (.error e) s' := by
    rw [Action.ends_bind]
    refine h.mono ?_
    rintro (e | a) s' holds
    · exact Or.inr ⟨e, rfl, holds⟩
    · exact Or.inl ⟨a, rfl, holds⟩
  rcases settle_eq_some ends settled with ⟨a, told, holds⟩ | ⟨e, told, holds⟩
  · cases reply with
    | ok _ =>
      cases told
      exact ⟨.ok a, rfl, holds⟩
    | error f => cases told
  · cases reply with
    | ok a => cases told
    | error f =>
      cases told
      exact ⟨.error f, rfl, holds⟩

/-- An action that is known to return. -/
theorem settle_returns {y : Action Unit} {P : Store → Prop}
    (h : y.Ends s fun answer s' => answer = .ok () ∧ P s') :
    ∃ s', settle (do y; return .done) s = some (.ok .done, s') ∧ P s' := by
  unfold Action.Ends at h
  cases ended : y s with
  | ok a s' =>
    rw [ended] at h
    refine ⟨s', ?_, h.2⟩
    simp only [settle, bind, EStateM.bind, ended]
    rfl
  | error e s' =>
    rw [ended] at h
    cases h.1

/-- Either the action crashes or there is something to tell. -/
theorem settle_cases {x : Action Answer} {Q : Except Stop Answer → Store → Prop} (h : x.Ends s Q) :
    settle x s = none ∧ (∃ s', Q (.error .crashed) s') ∨
      ∃ reply s', settle x s = some (reply, s') ∧ Q (reply.mapError .failed) s' := by
  cases settled : settle x s with
  | none =>
    refine Or.inl ⟨rfl, ?_⟩
    unfold Action.Ends at h
    unfold settle at settled
    split at settled
    · cases settled
    · cases settled
    · rename_i s' ended
      rw [ended] at h
      exact ⟨s', h⟩
  | some pair => exact Or.inr ⟨pair.1, pair.2, rfl, settle_eq_some h settled⟩

theorem step_eq_some_iff : S.step e = some S' ↔
    ∃ x reply s, S.action? e = some x ∧ settle x S.store = some (reply, s) ∧
      S' = S.after e reply s := by
  simp only [step, Option.bind_eq_bind, Option.bind_eq_some_iff, Option.pure_def, Option.some.injEq]
  constructor
  · rintro ⟨x, found, ⟨reply, s⟩, settled, rfl⟩
    exact ⟨x, reply, s, found, settled, rfl⟩
  · rintro ⟨x, reply, s, found, settled, rfl⟩
    exact ⟨x, found, ⟨reply, s⟩, settled, rfl⟩

/-- What a step answers and the store that it leaves behind. -/
def outcome? (S : Session) (e : Event) : Option (Reply × Store) :=
  (S.action? e).bind fun x => settle x S.store

theorem step_eq_map (S : Session) (e : Event) :
    S.step e = (S.outcome? e).map fun o => S.after e o.1 o.2 := by
  simp only [step, outcome?, Option.bind_eq_bind, Option.pure_def]
  cases S.action? e with
  | none => rfl
  | some x =>
    change (settle x S.store).bind (fun o => some (S.after e o.1 o.2)) = (settle x S.store).map _
    cases settle x S.store <;> rfl

theorem outcome?_of_step (stepped : S.step e = some S') :
    ∃ reply s, S.outcome? e = some (reply, s) ∧ S' = S.after e reply s := by
  obtain ⟨⟨reply, s⟩, told, rfl⟩ := Option.map_eq_some_iff.mp ((step_eq_map S e).symm.trans stepped)
  exact ⟨reply, s, told, rfl⟩

theorem action?_op_eq_some_iff {o : Op} {x : Action Answer} : S.action? (.op tx o) = some x ↔
    ∃ c, S.clients.get? tx = some c ∧ (c.running || o.iterates) = true ∧
      o.perform? tx c.scans = some x := by
  simp only [action?]
  cases S.clients.get? tx with
  | none => simp
  | some c => simp

theorem settled_of_op {o : Op} {reply : Reply} {s : Store} (told : S.outcome? (.op tx o) = some (reply, s)) :
    ∃ c x, S.clients.get? tx = some c ∧ o.perform? tx c.scans = some x ∧
      settle x S.store = some (reply, s) := by
  obtain ⟨x, found, settled⟩ := Option.bind_eq_some_iff.mp told
  obtain ⟨c, client, -, found⟩ := action?_op_eq_some_iff.mp found
  exact ⟨c, x, client, found, settled⟩

theorem guard_eq_some_iff {α : Type} {b : Bool} {a x : α} :
    (if b then some a else none) = some x ↔ b = true ∧ x = a := by
  cases b with
  | false => simp
  | true => simp [eq_comm]

theorem action?_commit_eq_some_iff {x : Action Answer} : S.action? (.commit tx) = some x ↔
    S.running tx = true ∧ x = do Store.commit tx; return .done :=
  guard_eq_some_iff

theorem action?_abort_eq_some_iff {x : Action Answer} : S.action? (.abort tx) = some x ↔
    S.running tx = true ∧ x = do Store.abort tx; return .done :=
  guard_eq_some_iff

theorem action?_drop_eq_some_iff {x : Action Answer} : S.action? (.drop tx) = some x ↔
    S.running tx = true ∧ x = do Store.drop tx; return .done :=
  guard_eq_some_iff

@[simp] theorem run_nil (S : Session) : S.run [] = some S := rfl

theorem run_cons (S : Session) (e : Event) (es : List Event) :
    S.run (e :: es) = (S.step e).bind fun S' => S'.run es := rfl

theorem run_append (S : Session) (es fs : List Event) :
    S.run (es ++ fs) = (S.run es).bind fun S' => S'.run fs := by
  simp only [run, List.foldlM_append, Option.bind_eq_bind]

theorem run_snoc {es : List Event} {T : Session} (ran : S.run es = some S') (stepped : S'.step e = some T) :
    S.run (es ++ [e]) = some T := by
  rw [run_append, ran, Option.bind_some, run_cons, stepped]
  rfl

/-- What holds at the start and is kept by every step holds after every run. -/
theorem run_invariant {I : List Event → Session → Prop}
    (kept : ∀ {es S e S'}, I es S → S.step e = some S' → I (es ++ [e]) S') {es : List Event}
    (first : I [] S) (ran : S.run es = some S') : I es S' := by
  suffices ∀ es fs S, I es S → S.run fs = some S' → I (es ++ fs) S' from this [] es S first ran
  intro es fs
  induction fs generalizing es with
  | nil =>
    intro S here ran
    cases ran
    rwa [List.append_nil]
  | cons e fs ih =>
    intro S here ran
    rw [run_cons, Option.bind_eq_some_iff] at ran
    obtain ⟨T, stepped, ran⟩ := ran
    have later := ih (es ++ [e]) T (kept here stepped) ran
    rwa [List.append_assoc] at later

theorem running_iff : S.running tx = true ↔ ∃ c, S.clients.get? tx = some c ∧ c.running = true := by
  rw [running, Option.any_eq_true]

/-- A step that needs no scan tells what its action returns. -/
theorem outcome?_of_ok {o : Op} {x : Action Answer} {a : Answer} (running : S.running tx = true)
    (found : ∀ scans, o.perform? tx scans = some x) (ended : x S.store = .ok a s) :
    S.outcome? (.op tx o) = some (.ok a, s) := by
  obtain ⟨c, client, runs⟩ := running_iff.mp running
  have acts : S.action? (.op tx o) = some x :=
    action?_op_eq_some_iff.mpr ⟨c, client, by rw [runs, Bool.true_or], found c.scans⟩
  rw [outcome?, acts]
  exact settle_eq_ok_iff.mpr ended

theorem get?_update (S : Session) (tx u : TxId) (f : Client → Client) :
    (S.update tx f).get? u = if u = tx then (S.clients.get? u).map f else S.clients.get? u := by
  unfold update
  split
  · rename_i c found
    rw [Assoc.get?_insert]
    split
    · rename_i same
      rw [same, found]
      rfl
    · rfl
  · rename_i unknown
    split
    · rename_i same
      rw [same, unknown]
      rfl
    · rfl

theorem running_after_begin (S : Session) (tx u : TxId) (s : Store) :
    (S.after .begin (.ok (.began tx)) s).running u = (u = tx || S.running u) := by
  simp only [running, after, clientsAfter, Assoc.get?_insert]
  by_cases same : u = tx
  · simp [same]
  · simp [same]

theorem running_after_op (S : Session) (tx u : TxId) (o : Op) (reply : Reply) (s : Store) :
    (S.after (.op tx o) reply s).running u = S.running u := by
  simp only [running, after, clientsAfter, get?_update]
  split
  · cases S.clients.get? u <;> rfl
  · rfl

theorem running_finish (S : Session) (tx u : TxId) :
    ((S.update tx .finish).get? u).any Client.running = (u ≠ tx && S.running u) := by
  rw [get?_update, running]
  by_cases same : u = tx
  · simp only [same, if_true]
    cases S.clients.get? tx <;> simp [Client.finish]
  · simp [same]

end HeapStore.Session
