import HeapStore.Proofs.Closing

/-! Reference bits. A bit that is set belongs to a frame in use: a frame is marked only with an image
in it, and loses its bit together with the image. What no flush and no rollback can end (`Lasting`)
is shown once for this and for other such properties of a pool. -/
namespace HeapStore

theorem Clock.bit_of_sweep {evictable : Nat → Bool} {steps f : Nat} {c : Clock}
    (set : (sweep evictable steps c).2.bit f = true) : c.bit f = true := by
  induction steps generalizing c with
  | zero => exact set
  | succ steps ih =>
    unfold sweep at set
    split at set
    · split at set
      · have before := ih set
        rw [bit_advance, bit_clear, Bool.and_eq_true] at before
        exact before.1
      · exact set
    · have before := ih set
      rwa [bit_advance] at before

namespace Pool

variable {p q : Pool} {f r : Nat} {id : PageId}

/-- The frames whose bits are set hold images. -/
def Marked (p : Pool) : Prop := ∀ f, p.clock.bit f = true → ∃ r, p.inFrame? f = some r

theorem marked_new (capacity : Nat) : (Pool.new capacity).Marked := fun f set => by
  simp [new, Clock.bit] at set

theorem Marked.congr (h : p.Marked) (clock : q.clock = p.clock) (frames : q.frames = p.frames) :
    q.Marked := by
  intro f set
  rw [clock] at set
  simpa only [inFrame?, frames] using h f set

theorem Marked.update (h : p.Marked) (r : PageRef) (g : Page → Page) : (p.update r g).Marked :=
  h.congr rfl rfl

theorem Marked.addImage (h : p.Marked) (page : Page) : (p.addImage page).2.Marked := h.congr rfl rfl

theorem Marked.touch (h : p.Marked) (here : p.inFrame? f = some r) : (p.touch f).Marked := by
  intro g set
  have set : (p.clock.touch f).bit g = true := set
  rw [Clock.bit_touch, Bool.or_eq_true, decide_eq_true_eq] at set
  rcases set with rfl | before
  · exact ⟨r, here⟩
  · exact h g before

theorem Marked.install (h : p.Marked) (inside : f < p.frames.size) (r : PageRef) :
    (p.install f r).Marked := by
  intro g set
  have inFrame? : (p.install f r).inFrame? g = if g = f then some r else p.inFrame? g :=
    inFrame?_setIfInBounds p f g (some r) inside
  have set : (p.clock.touch f).bit g = true := set
  rw [Clock.bit_touch, Bool.or_eq_true, decide_eq_true_eq] at set
  rw [inFrame?]
  split
  · exact ⟨r, rfl⟩
  · rename_i other
    exact h g (set.resolve_left other)

theorem Marked.empty (h : p.Marked) (frames : q.frames = p.frames.setIfInBounds f none)
    (clock : q.clock = p.clock.clear f) : q.Marked := by
  intro g set
  rw [clock, Clock.bit_clear, Bool.and_eq_true, decide_eq_true_eq] at set
  obtain ⟨r, here⟩ := h g set.1
  refine ⟨r, ?_⟩
  simpa [Pool.inFrame?, frames, Array.getD_eq_getD_getElem?, Array.getElem?_setIfInBounds,
    Ne.symm set.2] using here

theorem Marked.remove (h : p.Marked) (id : PageId) : (p.remove id).Marked := by
  unfold Pool.remove
  split
  · exact h.empty rfl rfl
  · exact h

theorem Marked.findFrame (h : p.Marked) : p.findFrame.2.Marked := by
  have swept : ({ p with clock := (p.clock.victim p.evictable).2 } : Pool).Marked :=
    fun f set => h f (Clock.bit_of_sweep set)
  unfold Pool.findFrame
  split
  · exact h
  · split
    · intro f set
      obtain ⟨r, here⟩ := h f set
      refine ⟨r, ?_⟩
      have below := lt_of_inFrame? here
      simpa [Pool.inFrame?, Array.getD_eq_getD_getElem?, Array.getElem?_push, Nat.ne_of_lt below]
        using here
    · split
      · rename_i picked
        rw [picked] at swept
        exact swept.empty rfl rfl
      · rename_i none
        rwa [none] at swept

/-- A property of a pool that does not depend on the bytes of its images, nor on what is cached. -/
structure Lasting (P : Pool → Prop) : Prop where
  update : ∀ p r g, (∀ page, (g page).id = page.id) → P p → P (p.update r g)
  remove : ∀ p id, P p → P (p.remove id)

theorem lasting_marked : Lasting Marked := ⟨fun _ r g _ h => h.update r g, fun _ id h => h.remove id⟩

theorem lasting_retains (p : Pool) : Lasting p.Retains where
  update _ r _ same h := h.trans (retains_update _ r (same _))
  remove _ _ h := h.trans (retains_of_images (images_remove _ _))

end Pool

namespace Store

variable {s : Store} {id : PageId} {r : PageRef} {must : Bool}

theorem fetch_marks (h : s.pool.Sound) (marked : s.pool.Marked) (id : PageId) (must : Bool) :
    (fetch id must).Ends s fun _ t => t.pool.Marked := by
  unfold fetch
  rw [Action.ends_bind, Action.ends_get, Action.andThen]
  cases cached : s.pool.cached? id with
  | some found =>
    obtain ⟨frame, -, image⟩ := Option.bind_eq_some_iff.mp cached
    obtain ⟨r, here, rfl⟩ := Option.map_eq_some_iff.mp image
    exact marked.touch here
  | none =>
    unfold fetchNew
    rw [Action.ends_bind, ends_findFrame]
    have kept := marked.findFrame
    cases found : s.pool.findFrame.1 with
    | some f =>
      simp only [Action.andThen, Action.ends_bind, ends_load]
      split
      · exact (kept.addImage _).install (h.findFrame_some found).frame _
      · exact kept
    | none =>
      simp only [Action.andThen]
      split
      · exact kept
      · rw [ends_load]
        split
        · exact kept.addImage _
        · exact kept

theorem keepDirty_marks (h : s.pool.Sound) (marked : s.pool.Marked) (tx : TxId) (r : PageRef) :
    (keepDirty tx r).Ends s fun _ t => t.pool.Marked := by
  have changed : (s.pool.update r (·.mark (some tx))).Marked := marked.update _ _
  have sound : (s.pool.update r (·.mark (some tx))).Sound := h.update r rfl
  unfold keepDirty cacheChanged
  simp only [Action.ends_bind, ends_mark, Action.andThen, Action.ends_get, ends_page]
  split
  · rename_i f index
    obtain ⟨k, here, -⟩ := (sound.index _ f).mp index
    exact changed.install (Pool.lt_of_inFrame? here) r
  · simp only [Action.ends_bind, ends_findFrame]
    cases found : (s.pool.update r (·.mark (some tx))).findFrame.1 with
    | some f => exact changed.findFrame.install (sound.findFrame_some found).frame r
    | none =>
      rw [Action.andThen, ends_writePage]
      split
      · exact changed.findFrame.update r _
      · exact changed.findFrame

variable {P : Pool → Prop} (lasting : Pool.Lasting P) (holds : P s.pool)
include lasting holds

theorem writePage_lasts (r : PageRef) : (writePage r).Ends s fun _ t => P t.pool := by
  rw [ends_writePage]
  split
  · exact lasting.update _ _ _ (fun _ => rfl) holds
  · exact holds

theorem writePages_lasts (rs : List PageRef) : (writePages rs).Ends s fun _ t => P t.pool := by
  induction rs generalizing s with
  | nil => exact holds
  | cons r rs ih =>
    unfold writePages
    rw [Action.ends_bind]
    refine (writePage_lasts lasting holds r).mono ?_
    rintro (e | _) t holds
    · exact holds
    · exact ih holds

theorem flushPage_lasts (id : PageId) : (flushPage id).Ends s fun _ t => P t.pool := by
  unfold flushPage
  rw [Action.ends_bind, Action.ends_get, Action.andThen]
  dsimp only
  split
  · split
    · exact writePage_lasts lasting holds _
    · exact holds
  · exact holds

theorem restorePage_lasts (r : PageRef) : (restorePage r).Ends s fun _ t => P t.pool := by
  rw [ends_restorePage]
  split
  · split
    · exact lasting.update _ _ _ (fun _ => rfl) holds
    · exact holds
  · exact lasting.remove _ _ holds
  · exact holds

theorem restorePages_lasts (rs : List PageRef) : (restorePages rs).Ends s fun _ t => P t.pool := by
  induction rs generalizing s with
  | nil => exact holds
  | cons r rs ih =>
    unfold restorePages
    rw [Action.ends_bind]
    refine (restorePage_lasts lasting holds r).mono ?_
    rintro (e | _) t holds
    · exact holds
    · rw [Action.andThen, Action.ends_bind]
      refine (ih holds).mono ?_
      rintro (e | _) u holds
      · exact holds
      · exact holds

theorem restoreDirtiedBy_lasts (tx : TxId) : (restoreDirtiedBy tx).Ends s fun _ t => P t.pool := by
  unfold restoreDirtiedBy
  rw [Action.ends_bind, Action.ends_get, Action.andThen, Action.ends_bind]
  refine (restorePages_lasts lasting holds _).mono ?_
  rintro (e | _ | f) t holds
  · exact holds
  · exact holds
  · exact holds

end Store
end HeapStore
