import HeapStore.Proofs.Granting

/-! Waiting for a lock. A request that was denied stays denied until a lock is given back, and that moves
the epoch on. So nobody who waits with the epoch that he read before he was denied misses the moment. -/
namespace HeapStore

/-- Whether locks are given back. There may be none. -/
def LockEvent.releases : LockEvent → Bool
  | acquire _ _ _ => false
  | release _ _ | releaseAll _ => true

namespace Locks

variable {l m : Locks} {tx u : TxId} {p q : PageId} {mode k : LockMode} {e : LockEvent} {es : List LockEvent}

/-- Waits until something was released since the epoch was `seen`, or until the time is up, before which
others take these steps. Tells whether something was released, and which of the steps are still to come. -/
def wait (l : Locks) (seen : Nat) : List LockEvent → Bool × List LockEvent
  | [] => (l.releasedSince seen, [])
  | e :: es => if l.releasedSince seen then (true, e :: es) else (l.perform e).wait seen es

theorem wait_of_released {seen : Nat} (released : l.releasedSince seen = true) (es : List LockEvent) :
    l.wait seen es = (true, es) := by
  cases es with
  | nil => rw [wait, released]
  | cons e es => rw [wait, if_pos released]

theorem wait_of_unchanged {seen : Nat} (unchanged : ¬l.releasedSince seen = true) (e : LockEvent)
    (es : List LockEvent) : l.wait seen (e :: es) = (l.perform e).wait seen es := by
  rw [wait, if_neg unchanged]

/-- The wait is over by the time that the epoch is another one, if not before. -/
theorem wait_of_run {seen : Nat} (released : (l.run es).releasedSince seen = true) (later : List LockEvent) :
    ∃ rest, rest <:+ es ∧ l.wait seen (es ++ later) = (true, rest ++ later) := by
  induction es generalizing l with
  | nil => exact ⟨[], List.suffix_refl [], wait_of_released released later⟩
  | cons e es ih =>
    by_cases now : l.releasedSince seen = true
    · exact ⟨e :: es, List.suffix_refl _, wait_of_released now _⟩
    · obtain ⟨rest, suffix, woken⟩ := ih (l := l.perform e) released
      refine ⟨rest, suffix.trans (List.suffix_cons e es), ?_⟩
      rw [List.cons_append, wait_of_unchanged now, woken]

/-! The epoch counts releases -/

theorem epoch_perform (l : Locks) (e : LockEvent) :
    (l.perform e).epoch = if e.releases then (l.epoch + 1) % UInt64.size else l.epoch := by
  cases e with
  | acquire p tx mode =>
    rw [LockEvent.releases, if_neg Bool.false_ne_true]
    cases granted : l.acquire? p tx mode with
    | none => rw [perform_of_denied granted]
    | some m =>
      rw [perform_of_granted granted]
      rcases acquire?_cases granted with ⟨rfl, -⟩ | ⟨rfl, -⟩ <;> rfl
  | release p tx => rfl
  | releaseAll tx => rfl

theorem epoch_run (small : l.epoch < UInt64.size) (es : List LockEvent) :
    (l.run es).epoch = (l.epoch + es.countP LockEvent.releases) % UInt64.size := by
  induction es generalizing l with
  | nil => exact (Nat.mod_eq_of_lt small).symm
  | cons e es ih =>
    have step := epoch_perform l e
    change ((l.perform e).run es).epoch = _
    cases releases : e.releases with
    | false =>
      rw [releases, if_neg Bool.false_ne_true] at step
      rw [ih (step ▸ small), step, List.countP_cons_of_neg (by simp [releases])]
    | true =>
      rw [releases, if_pos rfl] at step
      rw [ih (step ▸ Nat.mod_lt _ (by decide)), step, List.countP_cons_of_pos releases, Nat.mod_add_mod,
        Nat.add_assoc, Nat.add_comm 1]

theorem Reachable.epoch_lt (h : l.Reachable) : l.epoch < UInt64.size := by
  obtain ⟨threshold, es, rfl⟩ := h
  rw [epoch_run (by decide : 0 < UInt64.size)]
  exact Nat.mod_lt _ (by decide)

/-- The epoch comes back to a value only after 2^64 releases. -/
theorem Reachable.none_released (h : l.Reachable) (few : es.countP LockEvent.releases < UInt64.size)
    (same : (l.run es).epoch = l.epoch) : ∀ e ∈ es, e.releases = false := by
  have small := h.epoch_lt
  rw [epoch_run small] at same
  have none : es.countP LockEvent.releases = 0 := by
    rcases Nat.lt_or_ge (l.epoch + es.countP LockEvent.releases) UInt64.size with below | above
    · rw [Nat.mod_eq_of_lt below] at same
      omega
    · rw [Nat.mod_eq_sub_mod above, Nat.mod_eq_of_lt (by omega)] at same
      omega
  intro e there
  simpa using List.countP_eq_zero.mp none e there

/-! What stands in the way of a request -/

theorem held_perform (keeps : e.releases = false) (held : l.Held u q k) : (l.perform e).Held u q k := by
  cases e with
  | acquire p tx mode =>
    cases granted : l.acquire? p tx mode with
    | none => rwa [perform_of_denied granted]
    | some m =>
      rw [perform_of_granted granted]
      exact (held_of_acquire? granted).mpr (Or.inl held)
  | release p tx => cases keeps
  | releaseAll tx => cases keeps

/-- A lock that stands in the way does so until it is given back. -/
theorem Tidy.denied_run (h : l.Tidy) (denied : l.acquire? p tx mode = none)
    (keeps : ∀ e ∈ es, e.releases = false) : (l.run es).acquire? p tx mode = none := by
  induction es generalizing l with
  | nil => exact denied
  | cons e es ih =>
    obtain ⟨u, k, other, held, clash⟩ := clash_of_denied denied
    have tidy := h.perform e
    have still := held_perform (keeps e List.mem_cons_self) held
    exact ih tidy (tidy.sound.denied_of_clash other still clash) fun e later =>
      keeps e (List.mem_cons_of_mem _ later)

/-- Nobody is woken if nothing is given back. -/
theorem wait_of_kept (keeps : ∀ e ∈ es, e.releases = false) : l.wait l.epoch es = (false, []) := by
  have unchanged : l.releasedSince l.epoch = false := decide_eq_false fun other => other rfl
  induction es generalizing l with
  | nil => rw [wait, unchanged]
  | cons e es ih =>
    have step : (l.perform e).epoch = l.epoch := by
      rw [epoch_perform, keeps e List.mem_cons_self, if_neg Bool.false_ne_true]
    rw [wait_of_unchanged (Bool.eq_false_iff.mp unchanged), ← step]
    exact ih (fun d later => keeps d (List.mem_cons_of_mem _ later)) (decide_eq_false fun other => other rfl)

/-- Whatever others do or the transaction itself does, a request that was denied stays denied as long as
the epoch is what it was before the attempt, and whoever waits for another epoch waits in vain. So once it
could be granted, waiting for another epoch ends at once, and it ends no later than that if it has begun
before. -/
theorem no_release_missed (h : l.Reachable) (denied : l.acquire? p tx mode = none)
    (few : es.countP LockEvent.releases < UInt64.size) :
    let asked := l.perform (.acquire p tx mode)
    let now := asked.run es
    (now.epoch = l.epoch → now.acquire? p tx mode = none ∧ asked.wait l.epoch es = (false, [])) ∧
    ((now.acquire? p tx mode).isSome = true →
      (∀ later, now.wait l.epoch later = (true, later)) ∧
      ∀ before after, es = before ++ after → ∀ later, ∃ rest, rest <:+ after ∧
        (asked.run before).wait l.epoch (after ++ later) = (true, rest ++ later)) := by
  have unmoved := perform_of_denied denied
  have still : (l.run es).epoch = l.epoch →
      (l.run es).acquire? p tx mode = none ∧ l.wait l.epoch es = (false, []) := fun same =>
    have keeps := h.none_released few same
    ⟨h.tidy.denied_run denied keeps, wait_of_kept keeps⟩
  rw [unmoved]
  refine ⟨still, fun granted => ?_⟩
  have released : (l.run es).releasedSince l.epoch = true := by
    refine decide_eq_true fun same => ?_
    rw [(still same).1] at granted
    cases granted
  refine ⟨fun later => wait_of_released released later, ?_⟩
  rintro before after rfl later
  rw [run, List.foldl_append] at released
  exact wait_of_run released later

/-- One of two shared holders waits to hold the page alone. A third one comes and goes, which wakes him in
vain, and then the second one goes. -/
theorem no_release_missed_upgrade :
    let l := run { starvationThreshold := 100 } [.acquire ⟨1, 0⟩ 1 .shared, .acquire ⟨1, 0⟩ 2 .shared]
    let es : List LockEvent := [.acquire ⟨1, 0⟩ 2 .shared, .acquire ⟨1, 0⟩ 3 .shared, .releaseAll 3,
      .release ⟨1, 0⟩ 1]
    l.Reachable ∧ l.acquire? ⟨1, 0⟩ 2 .exclusive = none ∧
      ((l.run es).acquire? ⟨1, 0⟩ 2 .exclusive).isSome = true ∧
      (l.run es).wait l.epoch [.releaseAll 2] = (true, [.releaseAll 2]) := by
  intro l es
  have reachable : l.Reachable := ⟨100, _, rfl⟩
  obtain ⟨denied, granted⟩ : l.acquire? ⟨1, 0⟩ 2 .exclusive = none ∧
      ((l.run es).acquire? ⟨1, 0⟩ 2 .exclusive).isSome = true := by
    decide +kernel
  have few : es.countP LockEvent.releases < UInt64.size := by decide
  obtain ⟨-, woken⟩ := no_release_missed reachable denied few
  rw [perform_of_denied denied] at woken
  exact ⟨reachable, denied, granted, (woken granted).1 _⟩

end Locks
end HeapStore
