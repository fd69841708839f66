import HeapStore.Clock

/-! Which frame the clock chooses. The hand passes frames until it comes to an evictable one with a clear
bit, and clears the bits of the evictable frames that it passes (`pass`). So if all of them have their bits
set the first round clears these, and the first evictable frame is chosen in the second. -/
namespace HeapStore.Clock

variable {evictable : Nat → Bool} {c : Clock} {f v k d : Nat}

@[simp] theorem size_clear (c : Clock) (frame : Nat) : (c.clear frame).size = c.size := rfl

@[simp] theorem hand_clear (c : Clock) (frame : Nat) : (c.clear frame).hand = c.hand := rfl

@[simp] theorem size_advance (c : Clock) : c.advance.size = c.size := rfl

@[simp] theorem bit_advance (c : Clock) (f : Nat) : c.advance.bit f = c.bit f := rfl

/-- The hand is on a frame, if there are any. -/
def HandOn (c : Clock) : Prop := c.size = 0 ∨ c.hand < c.size

/-! The order of the frames -/

/-- The frame to which the hand comes after `d` steps. -/
def ahead (c : Clock) (d : Nat) : Nat := (c.hand + d) % c.size

/-- The frames to which the hand comes in its next steps, beginning with the one that it is on. -/
def path (c : Clock) (steps : Nat) : List Nat := (List.range steps).map c.ahead

theorem ahead_zero (on : c.hand < c.size) : c.ahead 0 = c.hand := Nat.mod_eq_of_lt on

theorem ahead_size (on : c.hand < c.size) : c.ahead c.size = c.hand := by
  rw [ahead, Nat.add_mod_right, Nat.mod_eq_of_lt on]

theorem ahead_lt (on : c.hand < c.size) (d : Nat) : c.ahead d < c.size :=
  Nat.mod_lt _ (Nat.zero_lt_of_lt on)

theorem ahead_advance (c : Clock) (d : Nat) : c.advance.ahead d = c.ahead (d + 1) := by
  simp only [ahead, advance, Nat.mod_add_mod, Nat.add_assoc, Nat.add_comm 1 d]

theorem ahead_congr {a b : Clock} (hand : a.hand = b.hand) (size : a.size = b.size) : a.ahead = b.ahead := by
  funext d
  rw [ahead, ahead, hand, size]

/-- The hand is back where it was after a round and not before. -/
theorem ahead_succ_ne (on : c.hand < c.size) (round : d + 1 < c.size) : c.ahead (d + 1) ≠ c.hand := by
  rw [ahead]
  by_cases inside : c.hand + (d + 1) < c.size
  · rw [Nat.mod_eq_of_lt inside]
    omega
  · rw [Nat.mod_eq_sub_mod (by omega), Nat.mod_eq_of_lt (by omega)]
    omega

theorem exists_ahead (on : c.hand < c.size) (below : f < c.size) : ∃ d < c.size, c.ahead d = f := by
  refine ⟨(f + c.size - c.hand) % c.size, Nat.mod_lt _ (Nat.zero_lt_of_lt on), ?_⟩
  rw [ahead, Nat.add_mod_mod, show c.hand + (f + c.size - c.hand) = f + c.size by omega, Nat.add_mod_right,
    Nat.mod_eq_of_lt below]

/-- A round comes to every frame. -/
theorem mem_path_size (on : c.hand < c.size) : f ∈ c.path c.size ↔ f < c.size := by
  simp only [path, List.mem_map, List.mem_range]
  constructor
  · rintro ⟨d, -, rfl⟩
    exact ahead_lt on d
  · exact exists_ahead on

theorem path_congr {a b : Clock} (same : a.ahead = b.ahead) (steps : Nat) : a.path steps = b.path steps := by
  rw [path, path, same]

theorem path_add (c : Clock) (j k : Nat) :
    c.path (j + k) = c.path j ++ (List.range k).map fun e => c.ahead (j + e) := by
  rw [path, List.range_add, List.map_append, List.map_map]
  rfl

theorem path_succ (on : c.hand < c.size) (k : Nat) : c.path (k + 1) = c.hand :: c.advance.path k := by
  rw [path, List.range_succ_eq_map, List.map_cons, List.map_map, ahead_zero on]
  exact congrArg _ (List.map_congr_left fun d _ => (ahead_advance c d).symm)

/-! Passing frames -/

/-- The hand moves on from a frame that is no victim. If it is evictable it loses its bit. -/
def skip (evictable : Nat → Bool) (c : Clock) : Clock :=
  if evictable c.hand then (c.clear c.hand).advance else c.advance

/-- The clock after that many frames that are no victims. -/
def pass (evictable : Nat → Bool) : (steps : Nat) → Clock → Clock
  | 0, c => c
  | steps + 1, c => pass evictable steps (c.skip evictable)

theorem sweep_succ (evictable : Nat → Bool) (k : Nat) (c : Clock) : sweep evictable (k + 1) c =
    if evictable c.hand = true ∧ c.bit c.hand = false then (some c.hand, c.advance)
    else sweep evictable k (c.skip evictable) := by
  rw [sweep, skip]
  cases evictable c.hand <;> cases c.bit c.hand <;> rfl

@[simp] theorem size_skip (evictable : Nat → Bool) (c : Clock) : (c.skip evictable).size = c.size := by
  unfold skip
  split <;> rfl

theorem hand_skip (evictable : Nat → Bool) (c : Clock) : (c.skip evictable).hand = c.advance.hand := by
  unfold skip
  split <;> rfl

theorem bit_skip (evictable : Nat → Bool) (c : Clock) (f : Nat) :
    (c.skip evictable).bit f = (c.bit f && !(evictable f && decide (f = c.hand))) := by
  unfold skip
  split
  · rename_i may
    by_cases here : f = c.hand
    · simp [here, may]
    · simp [here]
  · rename_i spared
    by_cases here : f = c.hand
    · simp [here, spared]
    · simp [here]

theorem ahead_skip (evictable : Nat → Bool) (c : Clock) (d : Nat) :
    (c.skip evictable).ahead d = c.ahead (d + 1) := by
  rw [← ahead_advance, ahead_congr (hand_skip evictable c) (size_skip evictable c)]

theorem skip_on (on : c.hand < c.size) (evictable : Nat → Bool) :
    (c.skip evictable).hand < (c.skip evictable).size := by
  rw [hand_skip, size_skip]
  exact ahead_lt on 1

@[simp] theorem size_pass (evictable : Nat → Bool) (k : Nat) (c : Clock) :
    (pass evictable k c).size = c.size := by
  induction k generalizing c with
  | zero => rfl
  | succ k ih => rw [pass, ih, size_skip]

theorem hand_pass (on : c.hand < c.size) (evictable : Nat → Bool) (k : Nat) :
    (pass evictable k c).hand = c.ahead k := by
  induction k generalizing c with
  | zero => exact (ahead_zero on).symm
  | succ k ih => rw [pass, ih (skip_on on evictable), ahead_skip]

theorem ahead_round (on : c.hand < c.size) (evictable : Nat → Bool) :
    (pass evictable c.size c).ahead = c.ahead := by
  refine ahead_congr ?_ (size_pass evictable c.size c)
  rw [hand_pass on, ahead_size on]

theorem on_round (on : c.hand < c.size) (evictable : Nat → Bool) :
    (pass evictable c.size c).hand < (pass evictable c.size c).size := by
  rwa [hand_pass on, ahead_size on, size_pass]

/-- Of the frames that the hand passes the evictable ones lose their bits, and no others. -/
theorem bit_pass (on : c.hand < c.size) (evictable : Nat → Bool) (k f : Nat) :
    (pass evictable k c).bit f = (c.bit f && !(evictable f && decide (f ∈ c.path k))) := by
  induction k generalizing c with
  | zero => simp [pass, path]
  | succ k ih =>
    have same : (c.skip evictable).path k = c.advance.path k :=
      path_congr (ahead_congr (hand_skip evictable c) (size_skip evictable c)) k
    rw [pass, ih (skip_on on evictable), bit_skip, same, path_succ on]
    by_cases here : f = c.hand
    · subst here
      cases evictable c.hand <;> simp
    · simp [here]

/-- The hand goes on as long as every evictable frame that it comes to has its bit set. -/
theorem sweep_eq_pass (on : c.hand < c.size) (round : k ≤ c.size)
    (held : ∀ d < k, evictable (c.ahead d) = true → c.bit (c.ahead d) = true) (m : Nat) :
    sweep evictable (k + m) c = sweep evictable m (pass evictable k c) := by
  induction k generalizing c with
  | zero => rw [Nat.zero_add, pass]
  | succ k ih =>
    rw [Nat.succ_add, sweep_succ, if_neg, pass]
    · refine ih (skip_on on evictable) (by rw [size_skip]; omega) fun d below may => ?_
      -- it is another frame than the one that has just lost its bit
      have other := ahead_succ_ne on (show d + 1 < c.size by omega)
      rw [ahead_skip] at may ⊢
      simp [bit_skip, other, held (d + 1) (by omega) may]
    · rintro ⟨may, clear⟩
      have set := held 0 (Nat.succ_pos k)
      rw [ahead_zero on, clear] at set
      exact absurd (set may) Bool.false_ne_true

/-- The first evictable frame with a clear bit is the victim if the hand gets that far. -/
theorem sweep_eq_some (on : c.hand < c.size) (below : d < c.size) (enough : d < k)
    (may : evictable (c.ahead d) = true) (clear : c.bit (c.ahead d) = false)
    (held : ∀ e < d, evictable (c.ahead e) = true → c.bit (c.ahead e) = true) :
    sweep evictable k c = (some (c.ahead d), (pass evictable d c).advance) := by
  obtain ⟨m, rfl⟩ := Nat.exists_eq_add_of_lt enough
  have still : (pass evictable d c).bit (c.ahead d) = false := by rw [bit_pass on, clear, Bool.false_and]
  rw [Nat.add_assoc, sweep_eq_pass on (Nat.le_of_lt below) held, sweep_succ, hand_pass on, if_pos ⟨may, still⟩]

/-- The bits of frames that may not be evicted do not matter and stay. -/
theorem pass_of_none (none : ∀ d < k, evictable (c.ahead d) = false) (on : c.hand < c.size) :
    pass evictable k c = { c with hand := c.ahead k } := by
  induction k generalizing c with
  | zero =>
    rw [ahead_zero on]
    rfl
  | succ k ih =>
    have here := none 0 (Nat.succ_pos k)
    rw [ahead_zero on] at here
    have skips : c.skip evictable = c.advance := by
      rw [skip, if_neg]
      simp [here]
    rw [pass, skips, ih (fun d below => ?_) (ahead_lt on 1), ahead_advance]
    · rfl
    · rw [ahead_advance]
      exact none (d + 1) (Nat.succ_lt_succ below)

/-! The victim -/

/-- What the clock can choose, and what becomes of it. -/
inductive Chooses (c : Clock) (evictable : Nat → Bool) : Option Nat × Clock → Prop
  /-- No frame is evictable. -/
  | nothing (idle : ∀ f < c.size, evictable f = false) : Chooses c evictable (none, c)
  /-- The first evictable frame with a clear bit. -/
  | clear {d : Nat} (on : c.hand < c.size) (below : d < c.size) (may : evictable (c.ahead d) = true)
      (clear : c.bit (c.ahead d) = false)
      (held : ∀ e < d, evictable (c.ahead e) = true → c.bit (c.ahead e) = true) :
      Chooses c evictable (some (c.ahead d), (pass evictable d c).advance)
  /-- The first evictable frame, when all had their bits set. -/
  | second {d : Nat} (on : c.hand < c.size) (below : d < c.size) (may : evictable (c.ahead d) = true)
      (held : ∀ f < c.size, evictable f = true → c.bit f = true)
      (first : ∀ e < d, evictable (c.ahead e) = false) :
      Chooses c evictable (some (c.ahead d), (pass evictable d (pass evictable c.size c)).advance)

theorem victim_of_idle (on : c.HandOn) (idle : ∀ f < c.size, evictable f = false) :
    c.victim evictable = (none, c) := by
  rcases on with empty | on
  · rw [victim, empty, Nat.mul_zero, sweep]
  · have idle : ∀ d < c.size, evictable (c.ahead d) = false := fun d _ => idle _ (ahead_lt on d)
    have back : pass evictable c.size c = c := by rw [pass_of_none idle on, ahead_size on]
    have round (m : Nat) : sweep evictable (c.size + m) c = sweep evictable m c := by
      rw [sweep_eq_pass on (Nat.le_refl _) fun d below may => absurd may (by simp [idle d below]), back]
    rw [victim, Nat.two_mul, round, ← Nat.add_zero c.size, round, sweep]

/-- If all evictable frames have their bits set then the first round clears these and the second is decided by
the order alone. -/
theorem victim_of_held (on : c.hand < c.size) (below : d < c.size) (may : evictable (c.ahead d) = true)
    (held : ∀ f < c.size, evictable f = true → c.bit f = true)
    (first : ∀ e < d, evictable (c.ahead e) = false) :
    c.victim evictable = (some (c.ahead d), (pass evictable d (pass evictable c.size c)).advance) := by
  have same := ahead_round on evictable
  have cleared : (pass evictable c.size c).bit (c.ahead d) = false := by
    simp [bit_pass on, may, mem_path_size on, ahead_lt on]
  rw [victim, Nat.two_mul, sweep_eq_pass on (Nat.le_refl _) fun d _ => held _ (ahead_lt on d)]
  rw [← same] at may cleared first
  rw [sweep_eq_some (on_round on evictable) (by rwa [size_pass]) below may cleared, same]
  intro e less may
  rw [first e less] at may
  cases may

theorem victim_chooses (on : c.HandOn) (evictable : Nat → Bool) : c.Chooses evictable (c.victim evictable) := by
  by_cases idle : ∀ f < c.size, evictable f = false
  · rw [victim_of_idle on idle]
    exact .nothing idle
  · have on : c.hand < c.size := on.resolve_left fun empty => idle fun f below => absurd below (by omega)
    cases clear : (List.range c.size).find? fun d => evictable (c.ahead d) && !c.bit (c.ahead d) with
    | some d =>
      obtain ⟨here, inside, before⟩ := List.find?_range_eq_some.mp clear
      have below := List.mem_range.mp inside
      simp only [Bool.and_eq_true, Bool.not_eq_true'] at here
      have held : ∀ e < d, evictable (c.ahead e) = true → c.bit (c.ahead e) = true := by
        intro e less may
        simpa [may] using before e less
      rw [victim, sweep_eq_some on below (by omega) here.1 here.2 held]
      exact .clear on below here.1 here.2 held
    | none =>
      have held : ∀ f < c.size, evictable f = true → c.bit f = true := by
        intro f inside may
        obtain ⟨d, below, rfl⟩ := exists_ahead on inside
        simpa [may] using List.find?_eq_none.mp clear d (List.mem_range.mpr below)
      cases first : (List.range c.size).find? fun d => evictable (c.ahead d) with
      | some d =>
        obtain ⟨may, inside, before⟩ := List.find?_range_eq_some.mp first
        have below := List.mem_range.mp inside
        have none : ∀ e < d, evictable (c.ahead e) = false := fun e less => by simpa using before e less
        rw [victim_of_held on below may held none]
        exact .second on below may held none
      | none =>
        refine absurd (fun f inside => ?_) idle
        obtain ⟨d, below, rfl⟩ := exists_ahead on inside
        simpa using List.find?_eq_none.mp first d (List.mem_range.mpr below)

theorem evictable_of_victim (on : c.HandOn) (found : (c.victim evictable).1 = some f) :
    f < c.size ∧ evictable f = true := by
  have chooses := victim_chooses on evictable
  generalize c.victim evictable = choice at chooses found
  cases chooses with
  | nothing => cases found
  | clear on below may =>
    cases found
    exact ⟨ahead_lt on _, may⟩
  | second on below may =>
    cases found
    exact ⟨ahead_lt on _, may⟩

/-- If there is no victim then nothing has changed. -/
theorem idle_of_victim (on : c.HandOn) (none : (c.victim evictable).1 = none) :
    (∀ f < c.size, evictable f = false) ∧ (c.victim evictable).2 = c := by
  have chooses := victim_chooses on evictable
  generalize c.victim evictable = choice at chooses none
  cases chooses with
  | nothing idle => exact ⟨idle, rfl⟩
  | clear => cases none
  | second => cases none

theorem victim_eq_none_iff (on : c.HandOn) :
    (c.victim evictable).1 = none ↔ ∀ f < c.size, evictable f = false := by
  constructor
  · exact fun none => (idle_of_victim on none).1
  · intro idle
    cases found : (c.victim evictable).1 with
    | none => rfl
    | some f =>
      obtain ⟨below, may⟩ := evictable_of_victim on found
      simp [idle f below] at may

/-- The hand stops behind the victim. -/
theorem hand_of_victim (on : c.HandOn) (found : (c.victim evictable).1 = some f) :
    (c.victim evictable).2.hand = (f + 1) % c.size := by
  have chooses := victim_chooses on evictable
  generalize c.victim evictable = choice at chooses found
  cases chooses with
  | nothing => cases found
  | clear on =>
    cases found
    simp [advance, hand_pass on]
  | second on =>
    cases found
    simp [advance, hand_pass (on_round on evictable), ahead_round on]

/-- Where in a round of the hand the victim is, and which bits it has cost. -/
theorem bit_victim (on : c.HandOn) (found : (c.victim evictable).1 = some v) :
    ∃ passed rest, c.path c.size = passed ++ v :: rest ∧
      (c.bit v = false ∧ (∀ f ∈ passed, evictable f = true → c.bit f = true) ∧
          (∀ f, (c.victim evictable).2.bit f = (c.bit f && !(evictable f && decide (f ∈ passed)))) ∨
        (∀ f < c.size, evictable f = true → c.bit f = true) ∧ (∀ f ∈ passed, evictable f = false) ∧
          ∀ f, (c.victim evictable).2.bit f = (c.bit f && !(evictable f && decide (f ∈ c.path c.size)))) := by
  have chooses := victim_chooses on evictable
  generalize c.victim evictable = choice at chooses found
  have split : ∀ d < c.size, ∃ rest, c.path c.size = c.path d ++ c.ahead d :: rest := by
    intro d below
    obtain ⟨m, same⟩ := Nat.exists_eq_add_of_lt below
    rw [same, Nat.add_assoc, path_add, List.range_succ_eq_map]
    exact ⟨_, rfl⟩
  cases chooses with
  | nothing => cases found
  | @clear d on below may clear held =>
    cases found
    obtain ⟨rest, round⟩ := split d below
    refine ⟨_, rest, round, Or.inl ⟨clear, ?_, bit_pass on evictable d⟩⟩
    simpa [path] using held
  | @second d on below may held first =>
    cases found
    obtain ⟨rest, round⟩ := split d below
    have spared : ∀ f ∈ c.path d, evictable f = false := by simpa [path] using first
    refine ⟨_, rest, round, Or.inr ⟨held, spared, fun f => ?_⟩⟩
    rw [bit_advance, bit_pass (on_round on evictable), bit_pass on, path_congr (ahead_round on evictable)]
    by_cases there : f ∈ c.path d
    · simp [spared f there]
    · simp [there]

theorem size_victim (on : c.HandOn) (evictable : Nat → Bool) : (c.victim evictable).2.size = c.size := by
  have chooses := victim_chooses on evictable
  generalize c.victim evictable = choice at chooses
  cases chooses <;> simp

theorem handOn_victim (on : c.HandOn) (evictable : Nat → Bool) : (c.victim evictable).2.HandOn := by
  cases found : (c.victim evictable).1 with
  | none =>
    rw [(idle_of_victim on found).2]
    exact on
  | some f =>
    obtain ⟨below, -⟩ := evictable_of_victim on found
    right
    rw [hand_of_victim on found, size_victim on]
    exact Nat.mod_lt _ (Nat.zero_lt_of_lt below)

end HeapStore.Clock
