import HeapStore.Pool
import HeapStore.Proofs.Eviction

/-! Frames and the index of cached pages agree. `resident?` is what a client sees of both: the
image that a page is cached in. The operations on the pool are described by what they do to it. -/
namespace HeapStore.Pool

variable {p q : Pool} {f r : Nat} {id : PageId}

/-- The frames and the index are inverse to each other, so no page is cached twice. -/
structure Sound (p : Pool) : Prop where
  clock : p.clock.size = p.capacity
  hand : p.clock.HandOn
  room : p.frames.size ≤ p.capacity
  valid : ∀ f r, p.inFrame? f = some r → r < p.images.size
  index : ∀ id f, p.frameOf[id]? = some f ↔ ∃ r, p.inFrame? f = some r ∧ (p.page r).id = id

/-- The image that a page is cached in. -/
def resident? (p : Pool) (id : PageId) : Option PageRef := (p.cached? id).map Prod.snd

/-- Nothing can be evicted and nothing is free. -/
def AllDirty (p : Pool) : Prop :=
  ∀ f < p.capacity, ∃ r, p.inFrame? f = some r ∧ (p.page r).isDirty = true

instance (p : Pool) : Decidable p.AllDirty := decidable_of_iff
  (∀ f < p.capacity, (p.inFrame? f).any (fun r => (p.page r).isDirty) = true)
  (by simp [AllDirty, Option.any_eq_true])

theorem inFrame?_eq_none_of_le (h : p.frames.size ≤ f) : p.inFrame? f = none := by
  simp [inFrame?, Array.getElem?_eq_none h]

theorem lt_of_inFrame? (h : p.inFrame? f = some r) : f < p.frames.size := by
  apply Nat.lt_of_not_le
  intro beyond
  rw [inFrame?_eq_none_of_le beyond] at h
  cases h

theorem Sound.resident?_eq_some_iff (h : p.Sound) :
    p.resident? id = some r ↔ ∃ f, p.inFrame? f = some r ∧ (p.page r).id = id := by
  simp only [resident?, cached?, Option.map_eq_some_iff, Option.bind_eq_some_iff, h.index]
  constructor
  · rintro ⟨⟨f, r'⟩, ⟨g, ⟨r'', here, same⟩, t, there, pair⟩, rfl⟩
    cases pair
    rw [there] at here
    cases here
    exact ⟨_, there, same⟩
  · rintro ⟨f, here, same⟩
    exact ⟨(f, r), ⟨f, ⟨r, here, same⟩, r, here, rfl⟩, rfl⟩

theorem Sound.resident?_of_inFrame? (h : p.Sound) (here : p.inFrame? f = some r) :
    p.resident? (p.page r).id = some r :=
  h.resident?_eq_some_iff.mpr ⟨f, here, rfl⟩

theorem Sound.id_of_resident? (h : p.Sound) (there : p.resident? id = some r) :
    (p.page r).id = id := by
  obtain ⟨_, _, same⟩ := h.resident?_eq_some_iff.mp there
  exact same

theorem Sound.lt_of_resident? (h : p.Sound) (there : p.resident? id = some r) :
    r < p.images.size := by
  obtain ⟨f, here, _⟩ := h.resident?_eq_some_iff.mp there
  exact h.valid f r here

theorem Sound.frame_unique (h : p.Sound) {g s : Nat} (hf : p.inFrame? f = some r)
    (hg : p.inFrame? g = some s) (same : (p.page r).id = (p.page s).id) : f = g := by
  have to_f := (h.index (p.page r).id f).mpr ⟨r, hf, rfl⟩
  have to_g := (h.index (p.page r).id g).mpr ⟨s, hg, same.symm⟩
  exact Option.some.inj (to_f.symm.trans to_g)

theorem cached?_eq_none_iff : p.cached? id = none ↔ p.resident? id = none := by
  simp [resident?]

theorem cached?_eq_some (h : p.cached? id = some (f, r)) : p.resident? id = some r := by
  simp [resident?, h]

/-- In a sound pool the index alone tells whether a page is cached. -/
theorem Sound.frameOf_eq_none_iff (h : p.Sound) :
    p.frameOf[id]? = none ↔ p.resident? id = none := by
  rw [Option.eq_none_iff_forall_ne_some, Option.eq_none_iff_forall_ne_some]
  constructor
  · intro none r there
    obtain ⟨f, here, same⟩ := h.resident?_eq_some_iff.mp there
    exact none f ((h.index id f).mpr ⟨r, here, same⟩)
  · intro none f there
    obtain ⟨r, here, same⟩ := (h.index id f).mp there
    exact none r (h.resident?_eq_some_iff.mpr ⟨f, here, same⟩)

theorem sound_new (capacity : Nat) : (Pool.new capacity).Sound where
  clock := rfl
  hand := (Nat.eq_zero_or_pos capacity).imp (fun h => h) (fun h => h)
  room := Nat.zero_le _
  valid f r h := by simp [new, inFrame?] at h
  index id f := by
    constructor
    · intro h
      simp [new] at h
    · rintro ⟨r, h, -⟩
      simp [new, inFrame?] at h

@[simp] theorem resident?_new (capacity : Nat) (id : PageId) :
    (Pool.new capacity).resident? id = none := by
  simp [resident?, cached?, new]

/-! Images -/

@[simp] theorem resident?_update (p : Pool) (r : PageRef) (g : Page → Page) (id : PageId) :
    (p.update r g).resident? id = p.resident? id := rfl

@[simp] theorem resident?_addImage (p : Pool) (page : Page) (id : PageId) :
    (p.addImage page).2.resident? id = p.resident? id := rfl

theorem page_update (p : Pool) (r s : PageRef) (g : Page → Page) :
    (p.update r g).page s = if s = r ∧ r < p.images.size then g (p.page r) else p.page s := by
  simp only [page, update, Array.getD_eq_getD_getElem?, Array.getElem?_modify]
  by_cases here : s = r
  · subst here
    by_cases valid : s < p.images.size
    · simp [valid]
    · simp [valid]
  · simp [here, Ne.symm here]

theorem page_addImage (p : Pool) (page : Page) (s : PageRef) :
    (p.addImage page).2.page s = if s = p.images.size then page else p.page s := by
  simp only [Pool.page, addImage, Array.getD_eq_getD_getElem?, Array.getElem?_push]
  split <;> rfl

@[simp] theorem size_update (p : Pool) (r : PageRef) (g : Page → Page) :
    (p.update r g).images.size = p.images.size := by
  simp [update]

@[simp] theorem size_addImage (p : Pool) (page : Page) :
    (p.addImage page).2.images.size = p.images.size + 1 := by
  simp [addImage]

theorem update_update (p : Pool) (r : PageRef) (f g : Page → Page) :
    (p.update r f).update r g = p.update r fun page => g (f page) := by
  unfold update
  congr 1
  apply Array.ext
  · simp
  · intro i below below'
    simp only [Array.getElem_modify]
    split <;> rfl

/-- A change of one image leaves the others and the frames as they are. -/
theorem Sound.update (h : p.Sound) (r : PageRef) {g : Page → Page}
    (same : (g (p.page r)).id = (p.page r).id) : (p.update r g).Sound where
  clock := h.clock
  hand := h.hand
  room := h.room
  valid f s here := by
    rw [size_update]
    exact h.valid f s here
  index id f := by
    have ids : ∀ s, ((p.update r g).page s).id = (p.page s).id := by
      intro s
      rw [page_update]
      split
      · rename_i here
        rw [here.1, same]
      · rfl
    simp only [ids]
    exact h.index id f

theorem Sound.addImage (h : p.Sound) (page : Page) : (p.addImage page).2.Sound where
  clock := h.clock
  hand := h.hand
  room := h.room
  valid f s here := by
    rw [size_addImage]
    exact Nat.lt_succ_of_lt (h.valid f s here)
  index id f := by
    refine (h.index id f).trans ?_
    constructor
    · rintro ⟨s, here, same⟩
      refine ⟨s, here, ?_⟩
      rw [page_addImage, if_neg (Nat.ne_of_lt (h.valid f s here)), same]
    · rintro ⟨s, here, same⟩
      refine ⟨s, here, ?_⟩
      rwa [page_addImage, if_neg (Nat.ne_of_lt (h.valid f s here))] at same

theorem Sound.allDirty_addImage (h : p.Sound) (page : Page) :
    (p.addImage page).2.AllDirty → p.AllDirty := by
  intro full f lt
  obtain ⟨r, here, dirty⟩ := full f lt
  rw [page_addImage, if_neg (Nat.ne_of_lt (h.valid f r here))] at dirty
  exact ⟨r, here, dirty⟩

/-! Frames -/

theorem Sound.touch (h : p.Sound) (f : Nat) : (p.touch f).Sound where
  clock := h.clock
  hand := h.hand
  room := h.room
  valid := h.valid
  index := h.index

@[simp] theorem resident?_touch (p : Pool) (f : Nat) (id : PageId) :
    (p.touch f).resident? id = p.resident? id := rfl

@[simp] theorem page_touch (p : Pool) (f : Nat) (r : PageRef) : (p.touch f).page r = p.page r := rfl

@[simp] theorem page_install (p : Pool) (f : Nat) (r s : PageRef) :
    (p.install f r).page s = p.page s := rfl

theorem inFrame?_setIfInBounds (p : Pool) (f g : Nat) (x : Option PageRef)
    (valid : f < p.frames.size) :
    (p.frames.setIfInBounds f x).getD g none = if g = f then x else p.inFrame? g := by
  simp only [inFrame?, Array.getD_eq_getD_getElem?, Array.getElem?_setIfInBounds]
  by_cases h : f = g
  · subst h
    simp [valid]
  · simp [h, Ne.symm h]

/-- An image can be put where its page is cached already, or into a free frame if its page is
cached nowhere. -/
structure Fits (p : Pool) (f : Nat) (r : PageRef) : Prop where
  frame : f < p.frames.size
  image : r < p.images.size
  alone : ∀ g s, p.inFrame? g = some s → (g = f ↔ (p.page s).id = (p.page r).id)

theorem Fits.inFrame?_install (h : p.Fits f r) (g : Nat) :
    (p.install f r).inFrame? g = if g = f then some r else p.inFrame? g :=
  inFrame?_setIfInBounds p f g (some r) h.frame

theorem Sound.install (h : p.Sound) (fits : p.Fits f r) : (p.install f r).Sound where
  clock := h.clock
  hand := h.hand
  room := by
    have := h.room
    simpa [Pool.install] using this
  valid g s here := by
    rw [fits.inFrame?_install] at here
    split at here
    · cases here
      exact fits.image
    · exact h.valid g s here
  index id g := by
    have page : ∀ s, (p.install f r).page s = p.page s := fun _ => rfl
    have frameOf : (p.install f r).frameOf = p.frameOf.insert (p.page r).id f := rfl
    simp only [page, frameOf, PageMap.getElem?_insert, fits.inFrame?_install]
    by_cases mine : id = (p.page r).id
    · subst mine
      rw [if_pos rfl]
      constructor
      · intro same
        cases same
        exact ⟨r, if_pos rfl, rfl⟩
      · rintro ⟨s, here, same⟩
        split at here
        · rename_i same
          rw [same]
        · rw [(fits.alone g s here).mpr same]
    · rw [if_neg mine, h.index]
      constructor
      · rintro ⟨s, here, same⟩
        refine ⟨s, ?_, same⟩
        rw [if_neg, here]
        intro there
        exact mine (same.symm.trans ((fits.alone g s here).mp there))
      · rintro ⟨s, here, same⟩
        split at here
        · cases here
          exact absurd same.symm mine
        · exact ⟨s, here, same⟩

theorem Sound.resident?_install (h : p.Sound) (fits : p.Fits f r) (id : PageId) :
    (p.install f r).resident? id = if id = (p.page r).id then some r else p.resident? id := by
  apply Option.ext
  intro s
  have page : ∀ t, (p.install f r).page t = p.page t := fun _ => rfl
  rw [(h.install fits).resident?_eq_some_iff]
  simp only [fits.inFrame?_install, page]
  by_cases mine : id = (p.page r).id
  · rw [if_pos mine]
    constructor
    · rintro ⟨g, here, same⟩
      split at here
      · exact here
      · rename_i elsewhere
        exact absurd ((fits.alone g s here).mpr (same.trans mine)) elsewhere
    · intro here
      cases here
      exact ⟨f, if_pos rfl, mine.symm⟩
  · rw [if_neg mine, h.resident?_eq_some_iff]
    constructor
    · rintro ⟨g, here, same⟩
      split at here
      · cases here
        exact absurd same.symm mine
      · exact ⟨g, here, same⟩
    · rintro ⟨g, here, same⟩
      refine ⟨g, ?_, same⟩
      rw [if_neg, here]
      intro there
      exact mine (same.symm.trans ((fits.alone g s here).mp there))

theorem Sound.fits_of_free (h : p.Sound) (frame : f < p.frames.size) (free : p.inFrame? f = none)
    (image : r < p.images.size) (uncached : p.resident? (p.page r).id = none) : p.Fits f r where
  frame := frame
  image := image
  alone g s here := by
    constructor
    · intro same
      rw [same, free] at here
      cases here
    · intro same
      have cached := h.resident?_of_inFrame? here
      rw [same, uncached] at cached
      cases cached

theorem Sound.fits_of_index (h : p.Sound) (image : r < p.images.size)
    (there : p.frameOf[(p.page r).id]? = some f) : p.Fits f r := by
  obtain ⟨s, here, same⟩ := (h.index _ f).mp there
  exact {
    frame := lt_of_inFrame? here
    image := image
    alone := fun g t at_g => by
      constructor
      · intro eq
        rw [eq, here] at at_g
        cases at_g
        exact same
      · intro eq
        exact h.frame_unique at_g here (eq.trans same.symm) }

theorem inFrame?_vacate (p : Pool) (here : p.inFrame? f = some r) (g : Nat) :
    (p.vacate f).inFrame? g = if g = f then none else p.inFrame? g :=
  inFrame?_setIfInBounds p f g none (lt_of_inFrame? here)

theorem frameOf_vacate (p : Pool) (here : p.inFrame? f = some r) :
    (p.vacate f).frameOf = p.frameOf.erase (p.page r).id := by
  simp only [vacate, here]

theorem Sound.vacate (h : p.Sound) (here : p.inFrame? f = some r) : (p.vacate f).Sound where
  clock := h.clock
  hand := h.hand
  room := by
    have := h.room
    simpa [Pool.vacate] using this
  valid g s there := by
    rw [inFrame?_vacate p here] at there
    split at there
    · cases there
    · exact h.valid g s there
  index id g := by
    have page : ∀ s, (p.vacate f).page s = p.page s := fun _ => rfl
    simp only [page, frameOf_vacate p here, PageMap.getElem?_erase, inFrame?_vacate p here]
    by_cases mine : id = (p.page r).id
    · subst mine
      rw [if_pos rfl]
      constructor
      · intro none
        cases none
      · rintro ⟨s, there, same⟩
        split at there
        · cases there
        · rename_i elsewhere
          exact absurd (h.frame_unique there here same) elsewhere
    · rw [if_neg mine, h.index]
      constructor
      · rintro ⟨s, there, same⟩
        refine ⟨s, ?_, same⟩
        rw [if_neg, there]
        intro eq
        rw [eq, here] at there
        cases there
        exact mine same.symm
      · rintro ⟨s, there, same⟩
        split at there
        · cases there
        · exact ⟨s, there, same⟩

theorem Sound.resident?_vacate (h : p.Sound) (here : p.inFrame? f = some r) (id : PageId) :
    (p.vacate f).resident? id = if id = (p.page r).id then none else p.resident? id := by
  have page : ∀ s, (p.vacate f).page s = p.page s := fun _ => rfl
  apply Option.ext
  intro s
  rw [(h.vacate here).resident?_eq_some_iff]
  simp only [inFrame?_vacate p here, page]
  by_cases mine : id = (p.page r).id
  · rw [if_pos mine]
    constructor
    · rintro ⟨g, there, same⟩
      split at there
      · cases there
      · rename_i elsewhere
        exact absurd (h.frame_unique there here (same.trans mine)) elsewhere
    · intro none
      cases none
  · rw [if_neg mine, h.resident?_eq_some_iff]
    constructor
    · rintro ⟨g, there, same⟩
      split at there
      · cases there
      · exact ⟨g, there, same⟩
    · rintro ⟨g, there, same⟩
      refine ⟨g, ?_, same⟩
      rw [if_neg, there]
      intro eq
      rw [eq, here] at there
      cases there
      exact mine same.symm

theorem Sound.remove_eq_vacate (h : p.Sound) (there : p.frameOf[id]? = some f) :
    p.remove id = p.vacate f := by
  obtain ⟨r, here, same⟩ := (h.index id f).mp there
  simp only [remove, there, Pool.vacate, here, same]

theorem remove_of_uncached (h : p.frameOf[id]? = none) : p.remove id = p := by
  simp only [remove, h]

theorem Sound.remove (h : p.Sound) (id : PageId) : (p.remove id).Sound := by
  cases there : p.frameOf[id]? with
  | none => rwa [remove_of_uncached there]
  | some f =>
    obtain ⟨r, here, _⟩ := (h.index id f).mp there
    rw [h.remove_eq_vacate there]
    exact h.vacate here

@[simp] theorem images_remove (p : Pool) (id : PageId) : (p.remove id).images = p.images := by
  unfold remove
  split <;> rfl

@[simp] theorem capacity_remove (p : Pool) (id : PageId) :
    (p.remove id).capacity = p.capacity := by
  unfold remove
  split <;> rfl

@[simp] theorem page_remove (p : Pool) (id : PageId) (r : PageRef) :
    (p.remove id).page r = p.page r := by
  simp only [page, images_remove]

theorem Sound.resident?_remove (h : p.Sound) (id other : PageId) :
    (p.remove id).resident? other = if other = id then none else p.resident? other := by
  cases there : p.frameOf[id]? with
  | none =>
    rw [remove_of_uncached there]
    split
    · rename_i same
      rw [same, h.frameOf_eq_none_iff.mp there]
    · rfl
  | some f =>
    obtain ⟨r, here, same⟩ := (h.index id f).mp there
    rw [h.remove_eq_vacate there, h.resident?_vacate here, same]

/-! Finding a frame -/

/-- The same images, and the same ones cached, but for clean ones that may have been evicted. If
nothing can be evicted now then nothing was. -/
structure Sheds (p q : Pool) : Prop where
  capacity : q.capacity = p.capacity
  images : q.images = p.images
  kept : ∀ id, q.resident? id = p.resident? id ∨
    q.resident? id = none ∧ ∃ r, p.resident? id = some r ∧ (p.page r).isDirty = false
  full : q.AllDirty → p.AllDirty ∧ ∀ id, q.resident? id = p.resident? id

theorem Sheds.page (h : p.Sheds q) (r : PageRef) : q.page r = p.page r := by
  simp only [Pool.page, h.images]

/-- A pool in which a page can be put into frame `f`. -/
structure Ready (p q : Pool) (f : Nat) : Prop where
  sound : q.Sound
  sheds : p.Sheds q
  frame : f < q.frames.size
  free : q.inFrame? f = none

theorem Sheds.page_addImage (h : p.Sheds q) (page : Page) :
    (q.addImage page).2.page p.images.size = page := by
  rw [Pool.page_addImage, h.images, if_pos rfl]

theorem Ready.fits (h : p.Ready q f) (page : Page) (uncached : p.resident? page.id = none) :
    (q.addImage page).2.Fits f p.images.size := by
  apply (h.sound.addImage page).fits_of_free h.frame h.free
  · rw [Pool.size_addImage, h.sheds.images]
    exact Nat.lt_succ_self _
  · rw [h.sheds.page_addImage, Pool.resident?_addImage]
    exact (h.sheds.kept page.id).elim (·.trans uncached) And.left

theorem not_allDirty_of_free (frame : f < p.capacity) (free : p.inFrame? f = none) : ¬p.AllDirty := by
  intro full
  obtain ⟨r, here, -⟩ := full f frame
  rw [free] at here
  cases here

theorem Sound.grow (h : p.Sound) (room : p.frames.size < p.capacity) :
    p.Ready { p with frames := p.frames.push none } p.frames.size := by
  have inFrame? : ∀ g, ({ p with frames := p.frames.push none } : Pool).inFrame? g = p.inFrame? g := by
    intro g
    simp only [Pool.inFrame?, Array.getD_eq_getD_getElem?, Array.getElem?_push]
    split
    · rename_i last
      simp [last]
    · rfl
  have resident? : ∀ id,
      ({ p with frames := p.frames.push none } : Pool).resident? id = p.resident? id := by
    intro id
    simp only [Pool.resident?, cached?, inFrame?]
  exact {
    sound := {
      clock := h.clock
      hand := h.hand
      room := by
        rw [Array.size_push]
        exact room
      valid := fun g s here => h.valid g s ((inFrame? g).symm.trans here)
      index := fun id g => by
        simp only [inFrame?]
        exact h.index id g }
    sheds := ⟨rfl, rfl, fun id => Or.inl (resident? id), fun full =>
      absurd full (not_allDirty_of_free room
        ((inFrame? _).trans (inFrame?_eq_none_of_le (Nat.le_refl _))))⟩
    frame := by
      rw [Array.size_push]
      exact Nat.lt_succ_self _
    free := (inFrame? _).trans (inFrame?_eq_none_of_le (Nat.le_refl _)) }

theorem Sound.withClock (h : p.Sound) {c : Clock} (size : c.size = p.clock.size)
    (hand : c.HandOn) : ({ p with clock := c } : Pool).Sound where
  clock := size.trans h.clock
  hand := hand
  room := h.room
  valid := h.valid
  index := h.index

theorem Sound.evict (h : p.Sound) {r : PageRef} (here : p.inFrame? f = some r)
    (clean : (p.page r).isDirty = false) : p.Ready (p.vacate f) f where
  sound := h.vacate here
  sheds := ⟨rfl, rfl, fun id => by
    rw [h.resident?_vacate here]
    split
    · rename_i same
      exact Or.inr ⟨rfl, r, same ▸ h.resident?_of_inFrame? here, clean⟩
    · exact Or.inl rfl, fun full =>
    absurd full (not_allDirty_of_free (Nat.lt_of_lt_of_le (lt_of_inFrame? here) h.room)
      (by rw [inFrame?_vacate p here, if_pos rfl]))⟩
  frame := by
    have := lt_of_inFrame? here
    simpa [Pool.vacate] using this
  free := by rw [inFrame?_vacate p here, if_pos rfl]

theorem Sound.findFrame_some (h : p.Sound) (found : p.findFrame.1 = some f) :
    p.Ready p.findFrame.2 f := by
  unfold findFrame at found ⊢
  split
  · rename_i g first
    rw [first] at found
    cases found
    obtain ⟨lt, none, -⟩ := Array.findIdx?_eq_some_iff_getElem.mp first
    have free : p.inFrame? f = .none := by
      rw [inFrame?, Array.getD_eq_getD_getElem?, Array.getElem?_eq_getElem lt, Option.getD_some]
      exact Option.isNone_iff_eq_none.mp none
    exact ⟨h, ⟨rfl, rfl, fun _ => Or.inl rfl, fun full => ⟨full, fun _ => rfl⟩⟩, lt, free⟩
  · rename_i full
    simp only [full] at found
    split
    · rename_i room
      rw [if_pos room] at found
      cases found
      exact h.grow room
    · rename_i no_room
      rw [if_neg no_room] at found
      have keeps := And.intro (Clock.size_victim h.hand p.evictable) (Clock.handOn_victim h.hand p.evictable)
      split
      · rename_i g c victim
        simp only [victim] at found keeps
        cases found
        obtain ⟨-, evictable⟩ := Clock.evictable_of_victim (f := f) h.hand (by rw [victim])
        unfold Pool.evictable at evictable
        split at evictable
        · rename_i r here
          have clean : (p.page r).isDirty = false := by simpa using evictable
          have ready := (h.withClock keeps.1 keeps.2).evict here clean
          exact ⟨ready.sound, ⟨ready.sheds.1, ready.sheds.2, ready.sheds.3, ready.sheds.4⟩, ready.frame,
            ready.free⟩
        · cases evictable
      · rename_i c victim
        simp only [victim] at found
        cases found

theorem Sound.findFrame_none (h : p.Sound) (none : p.findFrame.1 = none) :
    p.findFrame.2.Sound ∧ p.Sheds p.findFrame.2 ∧ p.findFrame.2.AllDirty := by
  unfold findFrame at none ⊢
  split at none
  · cases none
  · rename_i full
    split at none
    · cases none
    · rename_i no_room
      rw [if_neg no_room]
      have keeps := And.intro (Clock.size_victim h.hand p.evictable) (Clock.handOn_victim h.hand p.evictable)
      split at none
      · cases none
      · rename_i c victim
        simp only [victim] at keeps ⊢
        refine ⟨h.withClock keeps.1 keeps.2,
          ⟨rfl, rfl, fun _ => Or.inl rfl, fun full => ⟨full, fun _ => rfl⟩⟩, ?_⟩
        intro f lt
        have stuck := (Clock.victim_eq_none_iff h.hand).mp (by rw [victim]) f (by rw [h.clock]; exact lt)
        have below : f < p.frames.size := Nat.lt_of_lt_of_le lt (Nat.le_of_not_lt no_room)
        have occupied := Array.findIdx?_eq_none_iff.mp full _ (Array.getElem_mem below)
        obtain ⟨r, here⟩ := Option.ne_none_iff_exists'.mp (Option.isNone_eq_false_iff.mp occupied |>
          fun some => Option.isSome_iff_ne_none.mp some)
        have at_f : p.inFrame? f = some r := by
          rw [inFrame?, Array.getD_eq_getD_getElem?, Array.getElem?_eq_getElem below,
            Option.getD_some, here]
        refine ⟨r, at_f, ?_⟩
        change (p.page r).isDirty = true
        unfold Pool.evictable at stuck
        rw [at_f] at stuck
        simpa using stuck

/-! Cached images -/

/-- What a page is cached as. -/
def image? (p : Pool) (id : PageId) : Option Page := (p.resident? id).map p.page

theorem image?_eq_some_iff {page : Page} :
    p.image? id = some page ↔ ∃ r, p.resident? id = some r ∧ p.page r = page :=
  Option.map_eq_some_iff

theorem image?_eq_none_iff : p.image? id = none ↔ p.resident? id = none :=
  Option.map_eq_none_iff

@[simp] theorem image?_new (capacity : Nat) (id : PageId) : (Pool.new capacity).image? id = none := by
  simp [image?]

@[simp] theorem image?_touch (p : Pool) (f : Nat) (id : PageId) :
    (p.touch f).image? id = p.image? id := rfl

theorem Sound.image?_addImage (h : p.Sound) (page : Page) (id : PageId) :
    (p.addImage page).2.image? id = p.image? id := by
  unfold image?
  rw [resident?_addImage]
  cases there : p.resident? id with
  | none => rfl
  | some r =>
    rw [Option.map_some, Option.map_some, page_addImage,
      if_neg (Nat.ne_of_lt (h.lt_of_resident? there))]

theorem Sound.image?_install (h : p.Sound) (fits : p.Fits f r) (id : PageId) :
    (p.install f r).image? id = if id = (p.page r).id then some (p.page r) else p.image? id := by
  unfold image?
  rw [h.resident?_install fits]
  split <;> rfl

theorem Sound.image?_remove (h : p.Sound) (id other : PageId) :
    (p.remove id).image? other = if other = id then none else p.image? other := by
  unfold image?
  rw [h.resident?_remove]
  split
  · rfl
  · cases p.resident? other with
    | none => rfl
    | some r => rw [Option.map_some, Option.map_some, page_remove]

/-- Changing an image shows at its own page, if it is the cached one. -/
theorem Sound.image?_update (h : p.Sound) (r : PageRef) (g : Page → Page) (id : PageId) :
    (p.update r g).image? id =
      if p.resident? id = some r then some (g (p.page r)) else p.image? id := by
  unfold image?
  rw [resident?_update]
  cases there : p.resident? id with
  | none => rfl
  | some s =>
    rw [Option.map_some, Option.map_some, page_update]
    by_cases same : s = r
    · subst same
      rw [if_pos rfl, if_pos ⟨rfl, h.lt_of_resident? there⟩]
    · rw [if_neg (fun both => same both.1), if_neg (fun eq => same (Option.some.inj eq))]

theorem Sheds.image? (h : p.Sheds q) (id : PageId) : q.image? id = p.image? id ∨
    q.image? id = none ∧ ∃ page, p.image? id = some page ∧ page.isDirty = false := by
  rcases h.kept id with same | ⟨gone, r, there, clean⟩
  · refine Or.inl ?_
    unfold Pool.image?
    rw [same]
    cases p.resident? id with
    | none => rfl
    | some r => rw [Option.map_some, Option.map_some, h.page]
  · exact Or.inr ⟨image?_eq_none_iff.mpr gone, p.page r, image?_eq_some_iff.mpr ⟨r, there, rfl⟩, clean⟩

theorem Sheds.image?_of_full (h : p.Sheds q) (full : q.AllDirty) (id : PageId) :
    q.image? id = p.image? id := by
  unfold Pool.image?
  rw [(h.full full).2]
  cases p.resident? id with
  | none => rfl
  | some r => rw [Option.map_some, Option.map_some, h.page]

/-- Every image is still there, as one of the same page. -/
def Retains (p q : Pool) : Prop := ∀ r < p.images.size, r < q.images.size ∧ (q.page r).id = (p.page r).id

theorem Retains.refl (p : Pool) : p.Retains p := fun _ valid => ⟨valid, rfl⟩

theorem Retains.trans {k : Pool} (first : p.Retains q) (second : q.Retains k) : p.Retains k := by
  intro r valid
  obtain ⟨valid, same⟩ := first r valid
  obtain ⟨valid', same'⟩ := second r valid
  exact ⟨valid', same'.trans same⟩

theorem retains_of_images (same : q.images = p.images) : p.Retains q := by
  intro r valid
  unfold page
  rw [same]
  exact ⟨valid, rfl⟩

theorem retains_update (p : Pool) (s : PageRef) {g : Page → Page} (same : (g (p.page s)).id = (p.page s).id) :
    p.Retains (p.update s g) := by
  intro r valid
  rw [size_update, page_update]
  refine ⟨valid, ?_⟩
  split
  · rename_i here
    rw [same, here.1]
  · rfl

theorem retains_addImage (p : Pool) (page : Page) : p.Retains (p.addImage page).2 := by
  intro r valid
  rw [size_addImage, page_addImage, if_neg (Nat.ne_of_lt valid)]
  exact ⟨Nat.lt_succ_of_lt valid, rfl⟩

/-- The page is cached as this image, which is dirty and therefore can not be evicted. -/
structure Pins (p : Pool) (id : PageId) (r : PageRef) : Prop where
  resident : p.resident? id = some r
  dirty : (p.page r).isDirty = true

theorem Pins.sheds (h : p.Pins id r) (sheds : p.Sheds q) : q.Pins id r := by
  refine ⟨?_, sheds.page r ▸ h.dirty⟩
  rcases sheds.kept id with same | ⟨-, s, there, clean⟩
  · exact same.trans h.resident
  · cases there.symm.trans h.resident
    rw [h.dirty] at clean
    cases clean

theorem Pins.touch (h : p.Pins id r) (f : Nat) : (p.touch f).Pins id r := by
  refine ⟨?_, ?_⟩
  · rw [resident?_touch]
    exact h.resident
  · rw [page_touch]
    exact h.dirty

theorem Pins.addImage (h : p.Pins id r) (sound : p.Sound) (page : Page) : (p.addImage page).2.Pins id r := by
  refine ⟨?_, ?_⟩
  · rw [resident?_addImage]
    exact h.resident
  · rw [page_addImage, if_neg (Nat.ne_of_lt (sound.lt_of_resident? h.resident))]
    exact h.dirty

/-- No other image of the page is put in its place. -/
theorem Pins.install (h : p.Pins id r) (sound : p.Sound) {s : PageRef} (fits : p.Fits f s)
    (only : (p.page s).id = id → s = r) : (p.install f s).Pins id r := by
  refine ⟨?_, ?_⟩
  · rw [sound.resident?_install fits]
    split
    · rename_i here
      rw [only here.symm]
    · exact h.resident
  · rw [page_install]
    exact h.dirty

/-- Whatever is done to the image, it stays dirty. -/
theorem Pins.update (h : p.Pins id r) (s : PageRef) {g : Page → Page}
    (dirty : s = r → (g (p.page r)).isDirty = true) : (p.update s g).Pins id r := by
  refine ⟨?_, ?_⟩
  · rw [resident?_update]
    exact h.resident
  · rw [page_update]
    split
    · rename_i here
      obtain ⟨rfl, -⟩ := here
      exact dirty rfl
    · exact h.dirty

end HeapStore.Pool
