import HeapStore.Proofs.Locking

/-! Lock tables on their own. Whatever is asked of a table and given back, in any order, a lock is granted
exactly if no lock of another transaction stands in its way, and once the threshold is passed every ring
of transactions that wait for one another has one that gives up. -/
namespace HeapStore

/-- What can be done with a lock table. -/
inductive LockEvent where
  | acquire (page : PageId) (tx : TxId) (mode : LockMode)
  | release (page : PageId) (tx : TxId)
  | releaseAll (tx : TxId)
  deriving DecidableEq

namespace LockMode

/-- How much a transaction may do with a page under the strongest lock that it holds there. -/
def strength : Option LockMode → Nat
  | none => 0
  | some shared => 1
  | some exclusive => 2

/-- The stronger one of a lock that is held, if one is, and another lock. -/
def stronger : Option LockMode → LockMode → LockMode
  | some exclusive, _ => exclusive
  | _, mode => mode

end LockMode

namespace Holders

variable {h : Holders} {tx : TxId} {mode : LockMode}

theorem mode?_eq : h.mode? tx = if h.lists tx .exclusive then some .exclusive
    else if h.lists tx .shared then some .shared else none := by
  simp [mode?, Locks.lists_exclusive, Locks.lists_shared]

theorem isEmpty_add : (h.add tx mode).isEmpty = false := by
  cases mode <;> simp [add, isEmpty]

theorem nonempty?_eq_some_iff {h' : Holders} :
    h.nonempty? = some h' ↔ h = h' ∧ h'.isEmpty = false := by
  unfold nonempty?
  constructor
  · intro found
    split at found
    · cases found
    · rename_i some
      cases found
      exact ⟨rfl, by simpa using some⟩
  · rintro ⟨rfl, some⟩
    simp [some]

end Holders

namespace Locks

variable {l m : Locks} {tx u : TxId} {p q : PageId} {mode k : LockMode} {e : LockEvent}

/-- A request that is denied leaves the table as it is. -/
def perform (l : Locks) : LockEvent → Locks
  | .acquire page tx mode => (l.acquire? page tx mode).getD l
  | .release page tx => l.release page tx
  | .releaseAll tx => l.releaseAll tx

def run (l : Locks) (es : List LockEvent) : Locks := es.foldl perform l

theorem perform_of_granted (granted : l.acquire? p tx mode = some m) :
    l.perform (.acquire p tx mode) = m := by
  rw [perform, granted, Option.getD_some]

theorem perform_of_denied (denied : l.acquire? p tx mode = none) :
    l.perform (.acquire p tx mode) = l := by
  rw [perform, denied, Option.getD_none]

/-- A table that a new one can become. -/
def Reachable (l : Locks) : Prop := ∃ threshold es, run { starvationThreshold := threshold } es = l

/-- `u` holds a lock on the page that `tx` can not have a lock of the given mode beside. -/
def Obstructs (l : Locks) (u : TxId) (p : PageId) (tx : TxId) (mode : LockMode) : Prop :=
  u ≠ tx ∧ ∃ k, l.Held u p k ∧ Clash mode k

theorem mem_conflicting_iff : u ∈ (l.holders p).conflicting tx mode ↔ l.Obstructs u p tx mode := by
  unfold Obstructs Held
  cases mode with
  | shared =>
    simp only [Holders.conflicting, List.mem_filter, decide_eq_true_eq]
    constructor
    · rintro ⟨held, other⟩
      exact ⟨other, .exclusive, (lists_exclusive _ u).mpr held, trivial⟩
    · rintro ⟨other, k, held, clash⟩
      cases k with
      | shared => exact clash.elim
      | exclusive => exact ⟨(lists_exclusive _ u).mp held, other⟩
  | exclusive =>
    simp only [Holders.conflicting, List.mem_filter, List.mem_append, decide_eq_true_eq]
    constructor
    · rintro ⟨held | held, other⟩
      · exact ⟨other, .exclusive, (lists_exclusive _ u).mpr held, trivial⟩
      · exact ⟨other, .shared, (lists_shared _ u).mpr held, trivial⟩
    · rintro ⟨other, k, held, -⟩
      cases k with
      | shared => exact ⟨Or.inr ((lists_shared _ u).mp held), other⟩
      | exclusive => exact ⟨Or.inl ((lists_exclusive _ u).mp held), other⟩

instance : Decidable (l.Held tx p mode) := inferInstanceAs (Decidable (_ = true))

instance : Decidable (l.Obstructs u p tx mode) := decidable_of_iff _ mem_conflicting_iff

/-! What every step keeps -/

/-- No page has an entry without holders, and no transaction is listed twice. -/
structure Tidy (l : Locks) : Prop where
  sound : l.Sound
  entries : ∀ (p : PageId) (entry : Holders), l.table[p]? = some entry → entry.isEmpty = false
  shared : ∀ p, (l.holders p).shared.Nodup
  exclusive : ∀ p, (l.holders p).exclusive.Nodup

theorem tidy_empty (threshold : Nat) : Tidy { starvationThreshold := threshold } where
  sound := sound_empty threshold
  entries p h found := by simp at found
  shared p := by simp [holders]
  exclusive p := by simp [holders]

theorem Tidy.grant (h : l.Tidy) (unlisted : ¬l.Held tx p mode) (sound : (l.grant p tx mode).Sound) :
    (l.grant p tx mode).Tidy := by
  refine ⟨sound, fun q entry found => ?_, fun q => ?_, fun q => ?_⟩
  · rw [Locks.grant, PageMap.getElem?_insert] at found
    split at found
    · cases found
      exact Holders.isEmpty_add
    · exact h.entries q entry found
  · rw [holders_grant]
    split
    · cases mode with
      | shared => exact List.nodup_cons.mpr ⟨fun listed => unlisted ((lists_shared _ tx).mpr listed), h.shared p⟩
      | exclusive => exact h.shared p
    · exact h.shared q
  · rw [holders_grant]
    split
    · cases mode with
      | shared => exact h.exclusive p
      | exclusive =>
        exact List.nodup_cons.mpr ⟨fun listed => unlisted ((lists_exclusive _ tx).mpr listed), h.exclusive p⟩
    · exact h.exclusive q

theorem Tidy.acquire? (h : l.Tidy) (granted : l.acquire? p tx mode = some m) : m.Tidy := by
  have sound := h.sound.acquire? granted
  rcases acquire?_cases granted with ⟨rfl, -⟩ | ⟨rfl, unlisted⟩
  · exact h
  · exact h.grant unlisted sound

theorem holders_release (l : Locks) (p q : PageId) (tx : TxId) :
    (l.release p tx).holders q = if q = p then (l.holders p).remove tx else l.holders q := by
  have entry := getD_nonempty? ((l.holders p).remove tx)
  unfold release tick
  cases left : ((l.holders p).remove tx).nonempty? with
  | none =>
    rw [left] at entry
    simp only [holders, PageMap.getElem?_erase]
    split
    · exact entry
    · rfl
  | some h =>
    rw [left] at entry
    simp only [holders, PageMap.getElem?_insert]
    split
    · exact entry
    · rfl

theorem held_release : (l.release p tx).Held u q k ↔ l.Held u q k ∧ ¬(u = tx ∧ q = p) := by
  unfold Held
  rw [holders_release]
  split
  · rename_i here
    subst here
    simp [lists_remove]
  · rename_i elsewhere
    simp [elsewhere]

theorem Sound.release (h : l.Sound) (p : PageId) (tx : TxId) : (l.release p tx).Sound :=
  fun t u q k exclusive held => h t u q k (held_release.mp exclusive).1 (held_release.mp held).1

theorem Tidy.release (h : l.Tidy) (p : PageId) (tx : TxId) : (l.release p tx).Tidy := by
  refine ⟨h.sound.release p tx, fun q entry found => ?_, fun q => ?_, fun q => ?_⟩
  · unfold Locks.release tick at found
    dsimp only at found
    split at found
    · rename_i left some
      rw [PageMap.getElem?_insert] at found
      split at found
      · cases found
        exact (Holders.nonempty?_eq_some_iff.mp some).2
      · exact h.entries q entry found
    · rw [PageMap.getElem?_erase] at found
      split at found
      · cases found
      · exact h.entries q entry found
  · rw [holders_release]
    split
    · exact (h.shared p).filter _
    · exact h.shared q
  · rw [holders_release]
    split
    · exact (h.exclusive p).filter _
    · exact h.exclusive q

theorem Tidy.releaseAll (h : l.Tidy) (tx : TxId) : (l.releaseAll tx).Tidy := by
  refine ⟨h.sound.releaseAll tx, fun q entry found => ?_, fun q => ?_, fun q => ?_⟩
  · simp only [Locks.releaseAll, tick, PageMap.getElem?_filterMap] at found
    obtain ⟨before, -, some⟩ := Option.bind_eq_some_iff.mp found
    exact (Holders.nonempty?_eq_some_iff.mp some).2
  · rw [holders_releaseAll]
    exact (h.shared q).filter _
  · rw [holders_releaseAll]
    exact (h.exclusive q).filter _

theorem Tidy.perform (h : l.Tidy) (e : LockEvent) : (l.perform e).Tidy := by
  cases e with
  | acquire p tx mode =>
    cases granted : l.acquire? p tx mode with
    | none => rwa [perform_of_denied granted]
    | some m =>
      rw [perform_of_granted granted]
      exact h.acquire? granted
  | release p tx => exact h.release p tx
  | releaseAll tx => exact h.releaseAll tx

theorem Tidy.run (h : l.Tidy) (es : List LockEvent) : (l.run es).Tidy := by
  induction es generalizing l with
  | nil => exact h
  | cons e es ih => exact ih (h.perform e)

theorem Reachable.tidy (h : l.Reachable) : l.Tidy := by
  obtain ⟨threshold, es, rfl⟩ := h
  exact (tidy_empty threshold).run es

/-! What a step does to the locks of one transaction on one page -/

theorem mode?_congr (same : ∀ k, m.Held u p k ↔ l.Held u p k) : m.mode? u p = l.mode? u p := by
  have lists : ∀ k, (m.holders p).lists u k = (l.holders p).lists u k :=
    fun k => Bool.eq_iff_iff.mpr (same k)
  rw [mode?, mode?, Holders.mode?_eq, Holders.mode?_eq, lists, lists]

theorem mode?_of_acquire? (granted : l.acquire? p tx mode = some m) :
    m.mode? tx p = some (LockMode.stronger (l.mode? tx p) mode) := by
  have lists : ∀ k, (m.holders p).lists tx k = true ↔ (l.holders p).lists tx k = true ∨ k = mode := by
    intro k
    have held := held_of_acquire? (u := tx) (q := p) (k := k) granted
    simpa [Held] using held
  have exclusive := lists .exclusive
  have shared := lists .shared
  rw [mode?, mode?, Holders.mode?_eq, Holders.mode?_eq]
  cases mode with
  | exclusive =>
    rw [if_pos (exclusive.mpr (Or.inr rfl))]
    split
    · rfl
    · split <;> rfl
  | shared =>
    rw [if_pos (shared.mpr (Or.inr rfl))]
    by_cases already : (l.holders p).lists tx .exclusive = true
    · rw [if_pos (exclusive.mpr (Or.inl already)), if_pos already]
      rfl
    · rw [if_neg already, if_neg fun now => already ((exclusive.mp now).resolve_right (by decide))]
      split <;> rfl

theorem strength_stronger (held : Option LockMode) (mode : LockMode) :
    LockMode.strength held ≤ LockMode.strength (some (LockMode.stronger held mode)) := by
  cases held with
  | none => exact Nat.zero_le _
  | some k => cases k <;> cases mode <;> decide

/-- Locks get weaker only where their transaction gives them back. -/
theorem weaker_of_perform
    (weaker : LockMode.strength ((l.perform e).mode? tx p) < LockMode.strength (l.mode? tx p)) :
    e = .release p tx ∨ e = .releaseAll tx := by
  have same : ∀ {m : Locks}, l.perform e = m → (∀ k, m.Held tx p k ↔ l.Held tx p k) → False := by
    rintro m rfl kept
    rw [mode?_congr kept] at weaker
    exact Nat.lt_irrefl _ weaker
  cases e with
  | acquire q u mode =>
    exfalso
    cases granted : l.acquire? q u mode with
    | none => exact same (perform_of_denied granted) fun k => Iff.rfl
    | some m =>
      have performed := perform_of_granted granted
      by_cases own : tx = u ∧ p = q
      · obtain ⟨rfl, rfl⟩ := own
        rw [performed, mode?_of_acquire? granted] at weaker
        exact Nat.not_lt_of_le (strength_stronger _ _) weaker
      · refine same performed fun k => ?_
        rw [held_of_acquire? granted]
        exact or_iff_left fun now => own ⟨now.1, now.2.1⟩
  | release q u =>
    refine Or.inl (Decidable.byContradiction fun other => same rfl fun k => ?_)
    rw [perform, held_release]
    refine and_iff_left fun now => other ?_
    rw [now.1, now.2]
  | releaseAll u =>
    refine Or.inr (Decidable.byContradiction fun other => same rfl fun k => ?_)
    rw [perform, held_releaseAll]
    refine and_iff_left fun now => other ?_
    rw [now]

/-- Lock tables are safe and grant whatever is safe. -/
theorem lock_safety (h : l.Reachable) :
    (∀ p, (l.holders p).exclusive.length ≤ 1) ∧
    (∀ p t u k, l.Held t p .exclusive → l.Held u p k → u = t) ∧
    (∀ (p : PageId) (entry : Holders), l.table[p]? = some entry → entry.isEmpty = false) ∧
    (∀ p t mode, (l.acquire? p t mode).isSome = true ↔ ∀ u, ¬l.Obstructs u p t mode) ∧
    (∀ p t mode, l.acquire? p t mode = none → l.perform (.acquire p t mode) = l) ∧
    (∀ p t mode m, l.acquire? p t mode = some m → l.perform (.acquire p t mode) = m ∧
      (∀ q ≠ p, m.table[q]? = l.table[q]?) ∧ (∀ u ≠ t, ∀ q k, m.Held u q k ↔ l.Held u q k) ∧
      m.epoch = l.epoch ∧ m.starvationThreshold = l.starvationThreshold ∧
      m.grants = (if l.Held t p mode then l.grants else (l.grants + 1) % UInt64.size) ∧
      m.mode? t p = some (LockMode.stronger (l.mode? t p) mode)) ∧
    (∀ e t p, LockMode.strength ((l.perform e).mode? t p) < LockMode.strength (l.mode? t p) →
      e = .release p t ∨ e = .releaseAll t) ∧
    ∀ t u p, (l.releaseAll t).mode? t p = none ∧
      (u ≠ t → ∀ k, (l.releaseAll t).Held u p k ↔ l.Held u p k) := by
  have tidy := h.tidy
  refine ⟨fun p => ?_, fun p t u k => tidy.sound t u p k, tidy.entries, fun p t mode => ?_,
    fun p t mode => perform_of_denied, fun p t mode m granted => ?_, fun e t p => weaker_of_perform,
    fun t u p => ⟨?_, fun other k => ?_⟩⟩
  · have alone : ∀ t ∈ (l.holders p).exclusive, ∀ u ∈ (l.holders p).exclusive, u = t :=
      fun t held u held' =>
        tidy.sound t u p .exclusive ((lists_exclusive _ t).mpr held) ((lists_exclusive _ u).mpr held')
    have distinct := tidy.exclusive p
    match (l.holders p).exclusive, alone, distinct with
    | [], _, _ => exact Nat.zero_le 1
    | [t], _, _ => exact Nat.le_refl 1
    | t :: u :: rest, alone, distinct =>
      have same : u = t := alone t (by simp) u (by simp)
      simp [same] at distinct
  · rw [Option.isSome_iff_ne_none, Ne, tidy.sound.acquire?_eq_none_iff]
    constructor
    · rintro free u ⟨other, k, held, clash⟩
      exact free ⟨u, k, other, held, clash⟩
    · rintro free ⟨u, k, other, held, clash⟩
      exact free u ⟨other, k, held, clash⟩
  · refine ⟨perform_of_granted granted, fun q other => ?_, fun u other q k => ?_, ?_, ?_, ?_,
      mode?_of_acquire? granted⟩
    · rcases acquire?_cases granted with ⟨rfl, -⟩ | ⟨rfl, -⟩
      · rfl
      · rw [grant, PageMap.getElem?_insert, if_neg other]
    · rw [held_of_acquire? granted]
      exact or_iff_left fun now => other now.1
    · rcases acquire?_cases granted with ⟨rfl, -⟩ | ⟨rfl, -⟩ <;> rfl
    · rcases acquire?_cases granted with ⟨rfl, -⟩ | ⟨rfl, -⟩ <;> rfl
    · rcases acquire?_cases granted with ⟨rfl, listed⟩ | ⟨rfl, unlisted⟩
      · rw [if_pos listed]
      · rw [if_neg unlisted, grant]
  · rw [mode?_eq_none_iff]
    exact fun k held => (held_releaseAll.mp held).2 rfl
  · rw [held_releaseAll]
    exact and_iff_left other

/-- The last of two shared holders gets the page exclusively and is listed twice. -/
theorem lock_safety_upgraded :
    let l := run { starvationThreshold := 1 } [.acquire ⟨1, 0⟩ 1 .shared, .acquire ⟨1, 0⟩ 2 .shared,
      .acquire ⟨1, 0⟩ 1 .exclusive, .release ⟨1, 0⟩ 2, .acquire ⟨1, 0⟩ 1 .exclusive]
    l.Reachable ∧ l.Held 1 ⟨1, 0⟩ .shared ∧ l.Held 1 ⟨1, 0⟩ .exclusive ∧ ¬l.Held 2 ⟨1, 0⟩ .shared ∧
      l.acquire? ⟨1, 0⟩ 2 .shared = none ∧ (l.releaseAll 1).mode? 1 ⟨1, 0⟩ = none := by
  intro l
  have reachable : l.Reachable := ⟨1, _, rfl⟩
  obtain ⟨shared, exclusive, other, obstructs⟩ : l.Held 1 ⟨1, 0⟩ .shared ∧
      l.Held 1 ⟨1, 0⟩ .exclusive ∧ ¬l.Held 2 ⟨1, 0⟩ .shared ∧ l.Obstructs 1 ⟨1, 0⟩ 2 .shared := by
    decide +kernel
  obtain ⟨-, -, -, grants, -, -, -, releases⟩ := lock_safety reachable
  refine ⟨reachable, shared, exclusive, other, ?_, (releases 1 1 ⟨1, 0⟩).1⟩
  rw [← Option.not_isSome_iff_eq_none, grants]
  exact fun free => free 1 obstructs

/-! Waiting -/

theorem starving_iff : l.starving p tx mode = true ↔
    l.starvationThreshold < l.grants ∧ ∃ u < tx, l.Obstructs u p tx mode := by
  unfold starving
  rw [Bool.and_eq_true, decide_eq_true_eq, List.any_eq_true]
  refine and_congr Iff.rfl ⟨?_, ?_⟩
  · rintro ⟨u, conflicts, older⟩
    exact ⟨u, of_decide_eq_true older, mem_conflicting_iff.mp conflicts⟩
  · rintro ⟨u, older, obstructs⟩
    exact ⟨u, mem_conflicting_iff.mpr obstructs, decide_eq_true older⟩

/-- Along a chain of requests of which each one waits for the next one's transaction, and of which none is
told to give up, the transactions get younger. -/
theorem younger_along {n : Nat} {page : Nat → PageId} {t : Nat → TxId} {asks : Nat → LockMode}
    (past : l.starvationThreshold < l.grants)
    (waits : ∀ i < n, l.Obstructs (t (i + 1)) (page i) (t i) (asks i))
    (patient : ∀ i < n, ¬l.starving (page i) (t i) (asks i) = true) {i : Nat} (below : i < n) :
    t 0 < t (i + 1) := by
  have next : ∀ j < n, t j < t (j + 1) := by
    intro j inside
    have younger : ¬t (j + 1) < t j := fun older =>
      patient j inside (starving_iff.mpr ⟨past, t (j + 1), older, waits j inside⟩)
    exact Nat.lt_of_le_of_ne (Nat.le_of_not_lt younger) (Ne.symm (waits j inside).1)
  induction i with
  | zero => exact next 0 below
  | succ i ih => exact Nat.lt_trans (ih (Nat.lt_of_succ_lt below)) (next (i + 1) below)

/-- Once the threshold is passed, in every ring of waiting requests some transaction is told to give up.
Only a transaction that is denied its lock is ever told so, and never the oldest one. -/
theorem deadlocks_are_broken (h : l.Reachable) :
    (l.starvationThreshold < l.grants → ∀ (n : Nat) (page : Nat → PageId) (t : Nat → TxId)
      (asks : Nat → LockMode), 0 < n → t n = t 0 →
      (∀ i < n, l.Obstructs (t (i + 1)) (page i) (t i) (asks i)) →
        ∃ i < n, l.starving (page i) (t i) (asks i) = true) ∧
    (∀ p t mode, l.starving p t mode = true → l.acquire? p t mode = none) ∧
    ∀ t, (∀ u p k, u ≠ t → l.Held u p k → t < u) → ∀ p mode, l.starving p t mode = false := by
  refine ⟨fun past n page t asks some ring waits => ?_, fun p t mode starving => ?_,
    fun t oldest p mode => ?_⟩
  · apply Decidable.byContradiction
    intro none
    have patient : ∀ i < n, ¬l.starving (page i) (t i) (asks i) = true :=
      fun i below starving => none ⟨i, below, starving⟩
    obtain ⟨last, rfl⟩ := Nat.exists_eq_succ_of_ne_zero (Nat.ne_of_gt some)
    have younger := younger_along past waits patient (Nat.lt_succ_self last)
    exact Nat.ne_of_gt younger ring
  · obtain ⟨-, u, -, other, k, held, clash⟩ := starving_iff.mp starving
    exact h.tidy.sound.denied_of_clash other held clash
  · rw [Bool.eq_false_iff, Ne, starving_iff]
    rintro ⟨-, u, older, other, k, held, -⟩
    exact Nat.lt_asymm older (oldest u p k other held)

/-- Three transactions wait in a ring, two for an exclusive lock and one for a shared one. -/
theorem deadlocks_are_broken_ring :
    let l := run { starvationThreshold := 2 } [.acquire ⟨1, 0⟩ 1 .exclusive,
      .acquire ⟨1, 1⟩ 2 .shared, .acquire ⟨1, 2⟩ 3 .shared]
    let page (i : Nat) : PageId := ⟨1, (i + 1) % 3⟩
    let asks (i : Nat) : LockMode := if i = 2 then .shared else .exclusive
    l.Reachable ∧ l.starvationThreshold < l.grants ∧
      (∀ i < 3, l.Obstructs ((i + 1) % 3 + 1) (page i) (i % 3 + 1) (asks i)) ∧
      ∃ i < 3, l.starving (page i) (i % 3 + 1) (asks i) = true := by
  intro l page asks
  have reachable : l.Reachable := ⟨2, _, rfl⟩
  obtain ⟨past, waits⟩ : l.starvationThreshold < l.grants ∧
      ∀ i < 3, l.Obstructs ((i + 1) % 3 + 1) (page i) (i % 3 + 1) (asks i) := by
    decide +kernel
  exact ⟨reachable, past, waits,
    (deadlocks_are_broken reachable).1 past 3 page (fun i => i % 3 + 1) asks (by decide) rfl waits⟩

end Locks
end HeapStore
