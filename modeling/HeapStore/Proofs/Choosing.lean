import HeapStore.Proofs.Serving

/-! A full pool gives up the frame that the clock chooses among those with clean pages, and gives up none
if all its pages are dirty. -/
namespace HeapStore.Pool

variable {p q : Pool} {f r : Nat} {id : PageId}

/-- Every frame holds an image. -/
def Full (p : Pool) : Prop := ∀ f < p.capacity, ∃ r, p.inFrame? f = some r

instance (p : Pool) : Decidable p.Full := decidable_of_iff
  (∀ f < p.capacity, (p.inFrame? f).isSome = true) (by simp [Full, Option.isSome_iff_exists])

theorem Sound.findFrame_of_full (h : p.Sound) (full : p.Full) : p.findFrame =
    match p.clock.victim p.evictable with
    | (some f, clock) => (some f, { p with clock }.vacate f)
    | (none, clock) => (none, { p with clock }) := by
  have occupied : p.frames.findIdx? Option.isNone = none := by
    rw [Array.findIdx?_eq_none_iff]
    intro x there
    obtain ⟨f, below, rfl⟩ := Array.getElem_of_mem there
    obtain ⟨r, here⟩ := full f (Nat.lt_of_lt_of_le below h.room)
    rw [inFrame?, Array.getD_eq_getD_getElem?, Array.getElem?_eq_getElem below, Option.getD_some] at here
    rw [here]
    rfl
  have no_room : ¬p.frames.size < p.capacity := by
    intro room
    obtain ⟨r, here⟩ := full p.frames.size room
    rw [inFrame?_eq_none_of_le (Nat.le_refl _)] at here
    cases here
  rw [findFrame, occupied]
  exact if_neg no_room

theorem evictable_iff : p.evictable f = true ↔ ∃ r, p.inFrame? f = some r ∧ (p.page r).isDirty = false := by
  unfold evictable
  cases p.inFrame? f with
  | none => simp
  | some r => simp

/-- A pool in which every page is dirty is left as it is. -/
theorem Sound.findFrame_of_allDirty (h : p.Sound) (dirty : p.AllDirty) : p.findFrame = (none, p) := by
  have full : p.Full := fun f below => (dirty f below).imp fun _ => And.left
  have stuck : (p.clock.victim p.evictable).1 = none := by
    rw [Clock.victim_eq_none_iff h.hand, h.clock]
    intro f below
    obtain ⟨r, here, dirty⟩ := dirty f below
    simp [evictable, here, dirty]
  have still := (Clock.idle_of_victim h.hand stuck).2
  rw [h.findFrame_of_full full]
  generalize p.clock.victim p.evictable = choice at stuck still
  obtain ⟨_, _⟩ := choice
  cases stuck
  cases still
  rfl

/-- Otherwise the page in the frame that the clock chooses goes, and it is clean. -/
theorem Sound.findFrame_of_clean (h : p.Sound) (full : p.Full) (clean : ¬p.AllDirty) :
    ∃ f r q, p.findFrame = (some f, q) ∧ (p.clock.victim p.evictable).1 = some f ∧
      q.clock = (p.clock.victim p.evictable).2.clear f ∧
      p.inFrame? f = some r ∧ (p.page r).isDirty = false ∧
      (∀ g, q.inFrame? g = if g = f then none else p.inFrame? g) ∧
      ∀ id, q.resident? id = if id = (p.page r).id then none else p.resident? id := by
  have size := Clock.size_victim h.hand p.evictable
  have on := Clock.handOn_victim h.hand p.evictable
  have found := h.findFrame_of_full full
  cases victim : p.clock.victim p.evictable with
  | mk f? clock =>
    rw [victim] at found size on
    cases f? with
    | none =>
      have none : p.findFrame.1 = none := by rw [found]
      obtain ⟨-, sheds, dirty⟩ := h.findFrame_none none
      exact absurd (sheds.full dirty).1 clean
    | some f =>
      obtain ⟨-, may⟩ := Clock.evictable_of_victim (f := f) h.hand (by rw [victim])
      obtain ⟨r, here, spotless⟩ := evictable_iff.mp may
      have sound := h.withClock size on
      refine ⟨f, r, _, found, rfl, rfl, here, spotless, ?_, ?_⟩
      · exact inFrame?_vacate { p with clock } here
      · exact sound.resident?_vacate here

/-- The clock picks the first evictable frame with a clear bit in the order in which its hand comes to them, or
else, if all have their bits set, the first evictable one, and clears the bits that it passes. So a full pool
gives up a clean page, if it has one, and nothing otherwise. -/
theorem victim_is_first_in_turn :
    (∀ (c : Clock) (evictable : Nat → Bool), c.HandOn →
      ((c.victim evictable).1 = none ↔ ∀ f < c.size, evictable f = false) ∧
      ((c.victim evictable).1 = none → (c.victim evictable).2 = c) ∧
      ∀ v, (c.victim evictable).1 = some v → evictable v = true ∧
        (c.victim evictable).2.hand = (v + 1) % c.size ∧ (c.victim evictable).2.size = c.size ∧
        ∃ passed rest, c.path c.size = passed ++ v :: rest ∧
          (c.bit v = false ∧ (∀ f ∈ passed, evictable f = true → c.bit f = true) ∧
              (∀ f, (c.victim evictable).2.bit f = (c.bit f && !(evictable f && decide (f ∈ passed)))) ∨
            (∀ f < c.size, evictable f = true → c.bit f = true) ∧ (∀ f ∈ passed, evictable f = false) ∧
              ∀ f, (c.victim evictable).2.bit f = (c.bit f && !(evictable f && decide (f < c.size))))) ∧
    ∀ p : Pool, p.Sound → p.Full →
      (p.findFrame.1 = none ↔ p.AllDirty) ∧ (p.AllDirty → p.findFrame = (none, p)) ∧
      (¬p.AllDirty → ∃ f r q, p.findFrame = (some f, q) ∧ (p.clock.victim p.evictable).1 = some f ∧
        q.clock = (p.clock.victim p.evictable).2.clear f ∧
        p.inFrame? f = some r ∧ (p.page r).isDirty = false ∧
        (∀ g, q.inFrame? g = if g = f then none else p.inFrame? g) ∧
        ∀ id, q.resident? id = if id = (p.page r).id then none else p.resident? id) := by
  refine ⟨fun c evictable on => ⟨Clock.victim_eq_none_iff on, fun none => (Clock.idle_of_victim on none).2,
    fun v found => ?_⟩, fun p sound full => ⟨?_, sound.findFrame_of_allDirty, sound.findFrame_of_clean full⟩⟩
  · obtain ⟨below, may⟩ := Clock.evictable_of_victim on found
    obtain ⟨passed, rest, round, first | second⟩ := Clock.bit_victim on found
    · exact ⟨may, Clock.hand_of_victim on found, Clock.size_victim on evictable, passed, rest, round,
        Or.inl first⟩
    · obtain ⟨held, spared, bits⟩ := second
      refine ⟨may, Clock.hand_of_victim on found, Clock.size_victim on evictable, passed, rest, round,
        Or.inr ⟨held, spared, fun f => ?_⟩⟩
      rw [bits f]
      simp only [Clock.mem_path_size (on.resolve_left (by omega))]
  · constructor
    · intro none
      by_contra clean
      obtain ⟨f, r, q, found, -⟩ := sound.findFrame_of_clean full clean
      rw [found] at none
      cases none
    · intro dirty
      rw [sound.findFrame_of_allDirty dirty]

/-- Two of three frames may be chosen and both have their bits set, so that the second round decides. Of two
cached pages the one that is clean goes, though the hand is on the other. -/
theorem victim_is_first_in_turn_again :
    let c : Clock := { size := 3, marked := [0, 1, 2], hand := 1 }
    let evictable (f : Nat) : Bool := f ≠ 1
    let schema : Schema := ⟨[⟨.integer, some "n"⟩]⟩
    let insert (n : Int32) : Request := .insert 1 1 ⟨schema, [.integer n], none⟩
    (c.victim evictable).1 = some 2 ∧ (c.victim evictable).2.hand = 0 ∧
      (c.victim evictable).2.bit 0 = false ∧ (c.victim evictable).2.bit 1 = true ∧
    ∃ s, (Store.new { pageSize := 16, poolPages := 2 }).serveAll
        [.addTable (.create "odd" "odd" schema "n"), insert 1, insert 2, insert 3, insert 4,
          .complete 1 true, .delete 2 (some ⟨⟨1, 0⟩, 0⟩)] = some s ∧
      s.pool.Full ∧ s.pool.clock.hand = 0 ∧ ∃ f r q, s.pool.findFrame = (some f, q) ∧
        s.pool.inFrame? f = some r ∧ (s.pool.page r).isDirty = false ∧ (s.pool.page r).id = ⟨1, 1⟩ ∧
        q.resident? ⟨1, 1⟩ = none := by
  intro c evictable schema insert
  have picked : (c.victim evictable).1 = some 2 := by decide
  have facts : ((Store.new { pageSize := 16, poolPages := 2 }).serveAll
      [.addTable (.create "odd" "odd" schema "n"), insert 1, insert 2, insert 3, insert 4,
        .complete 1 true, .delete 2 (some ⟨⟨1, 0⟩, 0⟩)]).any (fun s => s.pool.Full ∧ s.pool.clock.hand = 0 ∧
          ¬s.pool.AllDirty ∧ s.pool.inFrame? 0 = some 0 ∧ (s.pool.page 0).isDirty = true ∧
          s.pool.inFrame? 1 = some 1 ∧ (s.pool.page 1).id = ⟨1, 1⟩ ∧ s.pool.capacity = 2) = true := by
    decide +kernel
  obtain ⟨s, served, facts⟩ := (Option.any_eq_true _ _).mp facts
  obtain ⟨full, hand, clean, first, dirty, second, id, capacity⟩ := of_decide_eq_true facts
  have sound := (Store.serveAll_pooled (Store.pooled_new _ _) served).1.sound
  obtain ⟨clock, pools⟩ := victim_is_first_in_turn
  obtain ⟨-, -, choice⟩ := clock c evictable (Or.inr (by decide))
  obtain ⟨-, stops, -, passed, rest, round, skipped | again⟩ := choice 2 picked
  · exact absurd skipped.1 (by decide)
  · obtain ⟨-, -, bits⟩ := again
    obtain ⟨-, -, evicts⟩ := pools s.pool sound full
    obtain ⟨f, r, q, found, -, -, here, spotless, -, gone⟩ := evicts clean
    have inside : f < 2 := capacity ▸ Nat.lt_of_lt_of_le (lt_of_inFrame? here) sound.room
    have other : f ≠ 0 := by
      rintro rfl
      rw [first] at here
      cases here
      rw [dirty] at spotless
      cases spotless
    obtain rfl : f = 1 := by omega
    rw [second] at here
    cases here
    have lost : (c.victim evictable).2.bit 0 = false := (bits 0).trans (by decide)
    have kept : (c.victim evictable).2.bit 1 = true := (bits 1).trans (by decide)
    refine ⟨picked, stops.trans (by decide), lost, kept, s, served, full, hand, 1, 1, q, found, second, spotless,
      id, ?_⟩
    rw [gone, if_pos id.symm]

end HeapStore.Pool
