import HeapStore.Locks

/-! Who holds which lock, and what granting and releasing do to that. An exclusive lock is the only
one on its page, but for a shared one of the same transaction. -/
namespace HeapStore.Locks

variable {l m : Locks} {tx u : TxId} {p q : PageId} {mode k : LockMode}

/-- The transaction is on record with a lock of exactly this mode. -/
def Held (l : Locks) (tx : TxId) (p : PageId) (mode : LockMode) : Prop :=
  (l.holders p).lists tx mode = true

def Sound (l : Locks) : Prop :=
  ∀ tx u p mode, l.Held tx p .exclusive → l.Held u p mode → u = tx

/-- A lock that is asked for clashes with one that is held if either is exclusive. -/
def Clash : LockMode → LockMode → Prop
  | .shared, .shared => False
  | _, _ => True

theorem clash_comm : Clash mode k ↔ Clash k mode := by cases mode <;> cases k <;> rfl

theorem clash_exclusive (mode : LockMode) : Clash .exclusive mode := by cases mode <;> trivial

@[simp] theorem lists_shared (h : Holders) (u : TxId) : h.lists u .shared = true ↔ u ∈ h.shared :=
  decide_eq_true_iff

@[simp] theorem lists_exclusive (h : Holders) (u : TxId) :
    h.lists u .exclusive = true ↔ u ∈ h.exclusive :=
  decide_eq_true_iff

theorem otherShared_iff (h : Holders) (tx : TxId) :
    h.otherShared tx = true ↔ ∃ u, u ≠ tx ∧ h.lists u .shared = true := by
  simp [Holders.otherShared, and_comm]

theorem otherExclusive_iff (h : Holders) (tx : TxId) :
    h.otherExclusive tx = true ↔ ∃ u, u ≠ tx ∧ h.lists u .exclusive = true := by
  simp [Holders.otherExclusive, and_comm]

/-- A request is denied only because of a lock of another transaction that it clashes with. -/
theorem clash_of_denied (denied : l.acquire? p tx mode = none) :
    ∃ u k, u ≠ tx ∧ l.Held u p k ∧ Clash mode k := by
  cases mode with
  | shared =>
    simp only [acquire?] at denied
    split at denied
    · rename_i conflict
      obtain ⟨u, other, held⟩ := (otherExclusive_iff _ _).mp conflict
      exact ⟨u, .exclusive, other, held, trivial⟩
    · split at denied <;> cases denied
  | exclusive =>
    simp only [acquire?] at denied
    split at denied
    · cases denied
    · split at denied
      · rename_i conflict
        rcases (Bool.or_eq_true _ _).mp conflict with conflict | conflict
        · obtain ⟨u, other, held⟩ := (otherExclusive_iff _ _).mp conflict
          exact ⟨u, .exclusive, other, held, trivial⟩
        · obtain ⟨u, other, held⟩ := (otherShared_iff _ _).mp conflict
          exact ⟨u, .shared, other, held, trivial⟩
      · cases denied

/-- What an exclusive holder is granted without a look at the other holders is nothing that others
stand in the way of, as there are none. -/
theorem Sound.denied_of_clash (h : l.Sound) (other : u ≠ tx) (held : l.Held u p k)
    (clash : Clash mode k) : l.acquire? p tx mode = none := by
  cases mode with
  | shared =>
    cases k with
    | shared => exact clash.elim
    | exclusive =>
      have conflict := (otherExclusive_iff (l.holders p) tx).mpr ⟨u, other, held⟩
      simp only [acquire?, if_pos conflict]
  | exclusive =>
    have unlisted : ¬(l.holders p).lists tx .exclusive = true :=
      fun mine => other (h tx u p k mine held)
    have conflict : ((l.holders p).otherExclusive tx || (l.holders p).otherShared tx) = true := by
      cases k with
      | shared => rw [(otherShared_iff _ _).mpr ⟨u, other, held⟩, Bool.or_true]
      | exclusive => rw [(otherExclusive_iff _ _).mpr ⟨u, other, held⟩, Bool.true_or]
    simp only [acquire?, if_neg unlisted, if_pos conflict]

theorem Sound.acquire?_eq_none_iff (h : l.Sound) :
    l.acquire? p tx mode = none ↔ ∃ u k, u ≠ tx ∧ l.Held u p k ∧ Clash mode k := by
  constructor
  · exact clash_of_denied
  · rintro ⟨u, k, other, held, clash⟩
    exact h.denied_of_clash other held clash

theorem lists_add (h : Holders) (tx u : TxId) (mode k : LockMode) :
    (h.add tx mode).lists u k = true ↔ h.lists u k = true ∨ u = tx ∧ k = mode := by
  cases mode <;> cases k <;> simp [Holders.add, or_comm]

theorem holders_grant (l : Locks) (p q : PageId) (tx : TxId) (mode : LockMode) :
    (l.grant p tx mode).holders q = if q = p then (l.holders p).add tx mode else l.holders q := by
  simp only [holders, grant, PageMap.getElem?_insert]
  split <;> rfl

/-- A request that is granted finds its lock on record already, or puts it there. -/
theorem acquire?_cases (granted : l.acquire? p tx mode = some m) :
    m = l ∧ l.Held tx p mode ∨ m = l.grant p tx mode ∧ ¬l.Held tx p mode := by
  unfold Held
  cases mode with
  | shared =>
    simp only [acquire?] at granted
    split at granted
    · cases granted
    · split at granted
      · rename_i listed
        cases granted
        exact Or.inl ⟨rfl, listed⟩
      · rename_i unlisted
        cases granted
        exact Or.inr ⟨rfl, unlisted⟩
  | exclusive =>
    simp only [acquire?] at granted
    split at granted
    · rename_i listed
      cases granted
      exact Or.inl ⟨rfl, listed⟩
    · rename_i unlisted
      split at granted
      · cases granted
      · cases granted
        exact Or.inr ⟨rfl, unlisted⟩

/-- A grant adds the one lock. -/
theorem held_of_acquire? (granted : l.acquire? p tx mode = some m) :
    m.Held u q k ↔ l.Held u q k ∨ u = tx ∧ q = p ∧ k = mode := by
  rcases acquire?_cases granted with ⟨rfl, listed⟩ | ⟨rfl, -⟩
  · constructor
    · exact Or.inl
    · rintro (held | ⟨rfl, rfl, rfl⟩)
      · exact held
      · exact listed
  · unfold Held
    rw [holders_grant]
    by_cases same : q = p
    · subst same
      rw [if_pos rfl, lists_add]
      simp
    · simp [same]

theorem Sound.not_clash_of_acquire? (h : l.Sound) (granted : l.acquire? p tx mode = some m)
    (other : u ≠ tx) (held : l.Held u p k) : ¬Clash mode k := by
  intro clash
  rw [h.denied_of_clash other held clash] at granted
  cases granted

theorem Sound.acquire? (h : l.Sound) (granted : l.acquire? p tx mode = some m) : m.Sound := by
  intro t v q k exclusive held
  rw [held_of_acquire? granted] at exclusive held
  rcases exclusive with exclusive | ⟨rfl, rfl, rfl⟩
  · rcases held with held | ⟨rfl, rfl, rfl⟩
    · exact h t v q k exclusive held
    · apply Decidable.byContradiction
      intro other
      exact h.not_clash_of_acquire? granted (Ne.symm other) exclusive
        (clash_comm.mp (clash_exclusive k))
  · rcases held with held | ⟨rfl, -, -⟩
    · apply Decidable.byContradiction
      intro other
      exact h.not_clash_of_acquire? granted other held (clash_exclusive k)
    · rfl

theorem lists_remove (h : Holders) (tx u : TxId) (k : LockMode) :
    (h.remove tx).lists u k = true ↔ h.lists u k = true ∧ u ≠ tx := by
  cases k <;> simp [Holders.remove]

theorem getD_nonempty? (h : Holders) : h.nonempty?.getD {} = h := by
  unfold Holders.nonempty?
  split
  · rename_i empty
    obtain ⟨shared, exclusive⟩ := h
    simp only [Holders.isEmpty, Bool.and_eq_true, List.isEmpty_iff] at empty
    rw [empty.1, empty.2]
    rfl
  · rfl

theorem holders_releaseAll (l : Locks) (tx : TxId) (p : PageId) :
    (l.releaseAll tx).holders p = (l.holders p).remove tx := by
  simp only [holders, releaseAll, tick, PageMap.getElem?_filterMap]
  cases l.table[p]? with
  | none => rfl
  | some h => exact getD_nonempty? (h.remove tx)

theorem held_releaseAll : (l.releaseAll tx).Held u p k ↔ l.Held u p k ∧ u ≠ tx := by
  rw [Held, holders_releaseAll, lists_remove, Held]

theorem Sound.releaseAll (h : l.Sound) (tx : TxId) : (l.releaseAll tx).Sound := by
  intro t v p k exclusive held
  exact h t v p k (held_releaseAll.mp exclusive).1 (held_releaseAll.mp held).1

theorem not_held_empty (threshold : Nat) :
    ¬Held { starvationThreshold := threshold } u p k := by
  cases k <;> simp [Held, holders]

theorem sound_empty (threshold : Nat) : Sound { starvationThreshold := threshold } :=
  fun _ _ _ _ exclusive => absurd exclusive (not_held_empty threshold)

theorem mode?_eq_exclusive_iff : l.mode? tx p = some .exclusive ↔ l.Held tx p .exclusive := by
  rw [Held, lists_exclusive, mode?, Holders.mode?]
  split
  · simp [*]
  · split <;> simp [*]

theorem mode?_eq_none_iff : l.mode? tx p = none ↔ ∀ k, ¬l.Held tx p k := by
  unfold mode? Holders.mode? Held
  constructor
  · intro none k
    split at none
    · cases none
    · split at none
      · cases none
      · cases k <;> simpa
  · intro none
    have exclusive := none .exclusive
    have shared := none .shared
    rw [lists_exclusive] at exclusive
    rw [lists_shared] at shared
    rw [if_neg exclusive, if_neg shared]

/-- Only `tx` was granted locks in between, and none were given back. -/
structure Grows (tx : TxId) (l m : Locks) : Prop where
  kept : ∀ u p k, l.Held u p k → m.Held u p k
  own : ∀ u p k, m.Held u p k → l.Held u p k ∨ u = tx

theorem Grows.refl (tx : TxId) (l : Locks) : Grows tx l l :=
  ⟨fun _ _ _ held => held, fun _ _ _ held => Or.inl held⟩

theorem Grows.trans {n : Locks} (h : Grows tx l m) (h' : Grows tx m n) : Grows tx l n where
  kept u p k held := h'.kept u p k (h.kept u p k held)
  own u p k held := by
    rcases h'.own u p k held with held | own
    · exact h.own u p k held
    · exact Or.inr own

theorem grows_of_acquire? (granted : l.acquire? p tx mode = some m) : Grows tx l m where
  kept _ _ _ held := (held_of_acquire? granted).mpr (Or.inl held)
  own _ _ _ held := ((held_of_acquire? granted).mp held).imp_right And.left

end HeapStore.Locks
