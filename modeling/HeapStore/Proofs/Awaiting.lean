import HeapStore.Proofs.Following
import HeapStore.Proofs.Granting
import HeapStore.Proofs.Settling

/-! Requests that are denied their lock while another transaction ends. If that one alone is in the way, a
request that waits for it is granted, and finds the page as it was committed, or as it was before. One that
does not wait leaves no more behind than the end of the other one. -/
namespace HeapStore

namespace Locks

variable {l : Locks} {tx u : TxId} {p : PageId} {mode : LockMode}

/-- The only transaction in the way gives back its locks. -/
theorem Sound.granted_after (h : l.Sound) (alone : ∀ v, l.Obstructs v p tx mode → v = u) :
    ∃ m, (l.releaseAll u).acquire? p tx mode = some m := by
  rw [← Option.ne_none_iff_exists', Ne, (h.releaseAll u).acquire?_eq_none_iff]
  rintro ⟨v, k, other, held, clash⟩
  obtain ⟨before, left⟩ := held_releaseAll.mp held
  exact left (alone v ⟨other, k, before, clash⟩)

/-- A transaction that is denied a lock does not hold the page exclusively. -/
theorem Sound.not_held_of_denied (h : l.Sound) (denied : l.acquire? p tx mode = none) :
    ¬l.Held tx p .exclusive := by
  obtain ⟨v, k, other, held, -⟩ := clash_of_denied denied
  exact fun mine => other (h tx v p k mine held)

end Locks

namespace Action

theorem ofAttempt_attempt {α : Type} (x : Action α) : (do ofAttempt (← attempt x)) = x := by
  funext s
  simp only [bind, EStateM.bind, attempt]
  cases x s with
  | ok a t => rfl
  | error e t => cases e <;> rfl

end Action

namespace Store

variable {s t : Store} {tx u : TxId} {id : PageId} {mode : LockMode} {delay : Nat}

theorem complete_completes (h : s.Coherent) (tx : TxId) (committed : Bool) :
    (complete tx committed).Ends s fun answer t =>
      answer = .ok () ∧ s.Completed tx (if committed then s.content else s.saved) t := by
  cases committed with
  | true => exact commit_completes h tx
  | false => exact (abort_completes h tx).mono fun _ _ done => ⟨done.1, done.2.1⟩

/-- Who has changed a page is in the way of everybody else. -/
theorem owner_of_denied (h : s.Coherent) (denied : s.locks.acquire? id tx mode = none)
    (alone : ∀ v, s.locks.Obstructs v id tx mode → v = u) : s.owner id = some u ∨ s.owner id = none := by
  cases owned : s.owner id with
  | none => exact Or.inr rfl
  | some v =>
    have held := h.guarded.owned id v owned
    have other : v ≠ tx := by
      rintro rfl
      exact h.guarded.locks.not_held_of_denied denied held
    have clash : Locks.Clash mode .exclusive := by cases mode <;> trivial
    exact Or.inl (congrArg some (alone v ⟨other, .exclusive, held, clash⟩))

/-- What a page holds once the only transaction in its way has ended. -/
theorem Completed.content_of_denied {committed : Bool} (h : s.Coherent)
    (done : s.Completed u (if committed then s.content else s.saved) t)
    (denied : s.locks.acquire? id tx mode = none)
    (alone : ∀ v, s.locks.Obstructs v id tx mode → v = u) :
    t.content id = (if committed then s.content else s.saved) id := by
  rcases owner_of_denied h denied alone with mine | clean
  · exact (done.landed id mine).2.1
  · rw [(done.others id (by simp [clean])).2.1]
    cases committed with
    | true => rfl
    | false => exact h.content_of_clean clean

/-- Getting a page whose lock is free comes to the page, unless there is no frame for it. -/
theorem getPage_of_granted (h : s.Coherent) (patient : s.settings.hasDeadline = true)
    (has : s.catalog.Has id) {locks : Locks} (granted : s.locks.acquire? id tx mode = some locks) :
    (getPage tx id mode).Ends s fun answer t => t.Coherent ∧ t.locks = locks ∧
      ((∃ r, answer = .ok ⟨r, mode⟩ ∧ t.pool.resident? id = some r ∧
        (t.pool.page r).bytes = s.content id) ∨
      answer = .error (.ofCause (.poolExhausted s.settings.poolPages)) ∧ t.pool.AllDirty) := by
  have upkeep : s.Upkeep tx { s with locks } := upkeep_of_lock h granted fun _ => rfl
  have locked := upkeep.coherent
  unfold getPage
  rw [Action.ends_bind, ends_lock, if_pos patient, granted]
  dsimp only [Action.andThen]
  rw [Action.ends_bind]
  refine (fetch_ends locked.guarded.pool id true).mono fun answer t fetched => ?_
  have recached := fetched.recached locked.guarded.pool
  have kept : t.locks = locks := by rw [recached.rest]
  cases answer with
  | ok r =>
    have bytes := (fetched.stands locked.guarded.pool).bytes (recached.coherent locked)
    exact ⟨recached.coherent locked, kept, Or.inl ⟨r, rfl, fetched.resident,
      bytes.trans (recached.content locked id)⟩⟩
  | error e =>
    refine ⟨recached.coherent locked, kept, Or.inr ?_⟩
    cases fetched with
    | exhausted uncached needed full sheds sound => exact ⟨rfl, full⟩
    | missing uncached sheds sound unreadable =>
      rw [locked.loadable_eq, Catalog.missing?_eq_none_iff.mpr has] at unreadable
      cases unreadable

/-- A request that waits is granted once the only transaction in its way has ended, and finds the page as that
one has left it. It fails only if every frame holds a page that somebody else has changed. -/
theorem granted_after_end (h : s.Coherent) (patient : s.settings.hasDeadline = true)
    (has : s.catalog.Has id) (waits : s.waits tx id mode delay = true)
    (alone : ∀ v, s.locks.Obstructs v id tx mode → v = u) (committed : Bool) :
    (getPageBeside tx id mode delay (complete u committed)).Ends s fun answer t =>
      t.Coherent ∧ t.locks.Held tx id mode ∧ (∀ p k, ¬t.locks.Held u p k) ∧
      ((∃ r, answer = .ok ⟨r, mode⟩ ∧ t.pool.resident? id = some r ∧
        (t.pool.page r).bytes = (if committed then s.content else s.saved) id) ∨
      answer = .error (.ofCause (.poolExhausted s.settings.poolPages)) ∧ t.pool.AllDirty) := by
  have denied : s.locks.acquire? id tx mode = none := by
    simp only [Store.waits, Bool.and_eq_true, Option.isNone_iff_eq_none] at waits
    exact waits.1.1
  have other : u ≠ tx := by
    obtain ⟨v, k, other, held, clash⟩ := Locks.clash_of_denied denied
    exact alone v ⟨other, k, held, clash⟩ ▸ other
  obtain ⟨locks, granted⟩ := h.guarded.locks.granted_after alone
  unfold getPageBeside
  rw [Action.ends_bind, Action.ends_get, Action.andThen, if_pos waits, Action.ends_bind, Action.ends_attempt]
  refine (complete_completes h u committed).mono ?_
  rintro _ t ⟨rfl, done⟩
  have content := done.content_of_denied h denied alone
  have ended : t.locks = s.locks.releaseAll u := by rw [done.rest]
  have settings : t.settings = s.settings := by rw [done.rest]
  have catalog : t.catalog = s.catalog := by rw [done.rest]
  have alike : (do
      let got ← (getPage tx id mode).attempt
      Action.ofAttempt (.ok ())
      Action.ofAttempt got) = getPage tx id mode := Action.ofAttempt_attempt _
  rw [Action.attempted, Action.andThen, alike]
  refine (getPage_of_granted done.coherent (settings ▸ patient) (catalog ▸ has) (ended ▸ granted)).mono ?_
  rintro answer v ⟨coherent, kept, got⟩
  rw [content, settings] at got
  refine ⟨coherent, ?_, fun p k held => ?_, got⟩
  · rw [kept, Locks.held_of_acquire? granted]
    exact Or.inr ⟨rfl, rfl, rfl⟩
  · rw [kept, Locks.held_of_acquire? granted, Locks.held_releaseAll] at held
    exact held.elim (fun before => before.2 rfl) fun now => other now.1

/-- A reader waits for the one who puts a row into the page. -/
example (committed : Bool) :
    let schema : Schema := ⟨[⟨.integer, some "n"⟩]⟩
    let reads : Action (Bool × Bytes) := do
      openWithId 1 "t" "t" schema "n" 16
      let _ ← insertRow 1 1 ⟨schema, [.integer 7], none⟩
      let waits := (← get).waits 2 ⟨1, 0⟩ .shared 100
      let handle ← getPageBeside 2 ⟨1, 0⟩ .shared 100 (complete 1 committed)
      return (waits, (← page handle.ref).bytes)
    let start := Store.new { pageSize := 16, poolPages := 1 } ⟨[("t", .ofBytes (.zeros 16))]⟩
    (reads.told? start).bind (·.1.toOption) =
      some (true, ⟨(if committed then #[1, 0, 0, 0, 7] else .replicate 5 0) ++ .replicate 11 0⟩) := by
  intro schema reads start
  cases committed <;> decide +kernel

/-- A request that does not wait aborts its transaction, and the other one ends as if it had been alone. -/
theorem aborted_before_end (h : s.Coherent) (patient : s.settings.hasDeadline = true)
    (denied : s.locks.acquire? id tx mode = none) (hasty : s.waits tx id mode delay = false)
    (committed : Bool) : (getPageBeside tx id mode delay (complete u committed)).Ends s fun answer t =>
      answer = .error (.ofCause (.aborted tx)) ∧
      s.Completed u (if committed then s.content else s.saved) t := by
  unfold getPageBeside
  rw [Action.ends_bind, Action.ends_get, Action.andThen, if_neg (Bool.eq_false_iff.mp hasty),
    Action.ends_bind, Action.ends_attempt]
  unfold getPage
  rw [Action.ends_bind, ends_lock, if_pos patient, denied]
  dsimp only [Action.attempted, Action.andThen, Stop.ofCause]
  rw [Action.ends_bind]
  refine (complete_completes h u committed).mono ?_
  rintro _ t ⟨rfl, done⟩
  exact ⟨rfl, done⟩

end Store
end HeapStore
