import HeapStore.Proofs.Endings
import HeapStore.Proofs.Frames

/-! What a look-up in the pool can come to, and what keeping a changed image can come to. Later
proofs go through these cases and do not open the actions again. -/
namespace HeapStore.Store

variable {s s' : Store} {id : PageId} {r : PageRef} {must : Bool}

/-- The ways in which the fetch of a page can end. -/
inductive Fetched (s : Store) (id : PageId) (must : Bool) : Except Stop PageRef → Store → Prop where
  | hit {r : PageRef} (f : Nat) (cached : s.pool.resident? id = some r) :
      Fetched s id must (.ok r) { s with pool := s.pool.touch f }
  | exhausted {q : Pool} (uncached : s.pool.resident? id = none) (needed : must = true)
      (full : q.AllDirty) (sheds : s.pool.Sheds q) (sound : q.Sound) :
      Fetched s id must (.error (.ofCause (.poolExhausted s.settings.poolPages))) { s with pool := q }
  | missing {q : Pool} {e : Stop} (uncached : s.pool.resident? id = none)
      (sheds : s.pool.Sheds q) (sound : q.Sound) (unreadable : s.loadable id = .error e) :
      Fetched s id must (.error e) { s with pool := q }
  | loaded {q : Pool} {f : Nat} {bytes : Bytes} (uncached : s.pool.resident? id = none)
      (ready : s.pool.Ready q f) (read : s.loadable id = .ok bytes) :
      Fetched s id must (.ok s.pool.images.size)
        { s with pool := (q.addImage ⟨id, bytes, none⟩).2.install f s.pool.images.size }
  | outside {q : Pool} {bytes : Bytes} (uncached : s.pool.resident? id = none)
      (optional : must = false) (full : s.pool.AllDirty) (sheds : s.pool.Sheds q) (sound : q.Sound)
      (read : s.loadable id = .ok bytes) :
      Fetched s id must (.ok s.pool.images.size)
        { s with pool := (q.addImage ⟨id, bytes, none⟩).2 }

theorem ends_findFrame (Q : Except Stop (Option Nat) → Store → Prop) :
    findFrame.Ends s Q ↔ Q (.ok s.pool.findFrame.1) { s with pool := s.pool.findFrame.2 } := Iff.rfl

theorem fetchNew_ends (h : s.pool.Sound) (uncached : s.pool.resident? id = none) :
    (fetchNew id must).Ends s (Fetched s id must) := by
  unfold fetchNew
  rw [Action.ends_bind, ends_findFrame]
  cases found : s.pool.findFrame.1 with
  | some f =>
    have ready := h.findFrame_some found
    simp only [Action.andThen, Action.ends_bind, ends_load]
    have read : Store.loadable { s with pool := s.pool.findFrame.2 } id = s.loadable id := rfl
    rw [read]
    cases loaded : s.loadable id with
    | error e => exact .missing uncached ready.sheds ready.sound loaded
    | ok bytes =>
      have size := congrArg Array.size ready.sheds.images
      simp only [Action.andThen, ends_updatePool, Action.ends_pure, size]
      exact .loaded uncached ready loaded
  | none =>
    obtain ⟨sound, sheds, full⟩ := h.findFrame_none found
    cases must with
    | true => exact .exhausted uncached rfl full sheds sound
    | false =>
      have size := congrArg Array.size sheds.images
      simp only [Action.andThen, Bool.false_eq_true, if_false, ends_load, size]
      have read : Store.loadable { s with pool := s.pool.findFrame.2 } id = s.loadable id := rfl
      rw [read]
      cases loaded : s.loadable id with
      | error e => exact .missing uncached sheds sound loaded
      | ok bytes => exact .outside uncached rfl (sheds.full full).1 sheds sound loaded

theorem fetch_ends (h : s.pool.Sound) (id : PageId) (must : Bool) :
    (fetch id must).Ends s (Fetched s id must) := by
  unfold fetch
  rw [Action.ends_bind, Action.ends_get, Action.andThen]
  cases cached : s.pool.cached? id with
  | none => exact fetchNew_ends h (Pool.cached?_eq_none_iff.mp cached)
  | some found =>
    obtain ⟨f, r⟩ := found
    exact .hit f (Pool.cached?_eq_some cached)

/-- The pool may have evicted clean pages and loaded others; nothing else has happened. If nothing
can be evicted now then nothing was. -/
structure Recached (s s' : Store) : Prop where
  rest : s' = { s with pool := s'.pool }
  sound : s'.pool.Sound
  capacity : s'.pool.capacity = s.pool.capacity
  image? : ∀ id, s'.pool.image? id = s.pool.image? id ∨
    (s'.pool.image? id = none ∧ ∃ page, s.pool.image? id = some page ∧ page.isDirty = false) ∨
    s.pool.image? id = none ∧
      ∃ bytes, s.loadable id = .ok bytes ∧ s'.pool.image? id = some ⟨id, bytes, none⟩
  full : s'.pool.AllDirty → s.pool.AllDirty ∧ ∀ id, s'.pool.image? id = s.pool.image? id

theorem recached_of_sheds {q : Pool} (sheds : s.pool.Sheds q) (sound : q.Sound) :
    Recached s { s with pool := q } where
  rest := rfl
  sound := sound
  capacity := sheds.capacity
  image? id := (sheds.image? id).imp_right Or.inl
  full all := ⟨(sheds.full all).1, sheds.image?_of_full all⟩

theorem Fetched.recached (h : s.pool.Sound) {x : Except Stop PageRef}
    (fetched : Fetched s id must x s') : Recached s s' := by
  cases fetched with
  | hit f cached => exact ⟨rfl, h.touch f, rfl, fun _ => Or.inl rfl, fun full => ⟨full, fun _ => rfl⟩⟩
  | exhausted uncached needed full sheds sound => exact recached_of_sheds sheds sound
  | missing uncached sheds sound unreadable => exact recached_of_sheds sheds sound
  | @loaded q f bytes uncached ready read =>
    have added := ready.sound.addImage ⟨id, bytes, none⟩
    have page := ready.sheds.page_addImage ⟨id, bytes, none⟩
    have fits := ready.fits ⟨id, bytes, none⟩ uncached
    refine ⟨rfl, added.install fits, ready.sheds.capacity, fun other => ?_, fun full => ?_⟩
    · dsimp only
      rw [added.image?_install fits, page]
      split
      · rename_i here
        subst here
        exact Or.inr (Or.inr ⟨Pool.image?_eq_none_iff.mpr uncached, bytes, read, rfl⟩)
      · rw [ready.sound.image?_addImage]
        exact (ready.sheds.image? other).imp_right Or.inl
    · -- the frame of the new image does not hold a dirty one
      obtain ⟨k, here, dirty⟩ := full f (Nat.lt_of_lt_of_le ready.frame ready.sound.room)
      rw [fits.inFrame?_install, if_pos rfl] at here
      cases here
      rw [Pool.page_install, page] at dirty
      cases dirty
  | @outside q bytes uncached optional full sheds sound read =>
    refine ⟨rfl, sound.addImage _, sheds.capacity, fun other => ?_,
      fun all => ⟨full, fun other => ?_⟩⟩
    · dsimp only
      rw [sound.image?_addImage]
      exact (sheds.image? other).imp_right Or.inl
    · dsimp only
      rw [sound.image?_addImage]
      exact sheds.image?_of_full (sound.allDirty_addImage _ all) other

/-- An image that stands for a page: the cached one, or a copy of what is on disk. -/
structure Stands (s : Store) (id : PageId) (r : PageRef) : Prop where
  valid : r < s.pool.images.size
  same : (s.pool.page r).id = id
  place : s.pool.resident? id = some r ∨
    s.pool.resident? id = none ∧ ∃ bytes, s.loadable id = .ok bytes ∧ s.pool.page r = ⟨id, bytes, none⟩

theorem Fetched.stands (h : s.pool.Sound) (fetched : Fetched s id must (.ok r) s') :
    Stands s' id r := by
  cases fetched with
  | hit f cached => exact ⟨h.lt_of_resident? cached, h.id_of_resident? cached, Or.inl cached⟩
  | @loaded q f bytes uncached ready read =>
    have page := ready.sheds.page_addImage ⟨id, bytes, none⟩
    have fits := ready.fits ⟨id, bytes, none⟩ uncached
    refine ⟨fits.image, congrArg Page.id page, Or.inl ?_⟩
    dsimp only
    rw [(ready.sound.addImage _).resident?_install fits, page, if_pos rfl]
  | @outside q bytes uncached optional full sheds sound read =>
    have page := sheds.page_addImage ⟨id, bytes, none⟩
    refine ⟨?_, congrArg Page.id page, Or.inr ⟨?_, bytes, read, page⟩⟩
    · dsimp only
      rw [Pool.size_addImage, sheds.images]
      exact Nat.lt_succ_self _
    · exact (sheds.kept id).elim (·.trans uncached) And.left

theorem Fetched.resident (fetched : Fetched s id true (.ok r) s') :
    s'.pool.resident? id = some r := by
  cases fetched with
  | hit f cached => simpa using cached
  | @loaded q f bytes uncached ready read =>
    have fits := ready.fits ⟨id, bytes, none⟩ uncached
    dsimp only
    rw [(ready.sound.addImage _).resident?_install fits, ready.sheds.page_addImage, if_pos rfl]
  | outside uncached optional full sheds sound read => cases optional

/-- The bytes that the next one to get a page finds there. -/
def Reads (s : Store) (id : PageId) (bytes : Bytes) : Prop :=
  match s.pool.image? id with
  | some page => page.bytes = bytes
  | none => s.loadable id = .ok bytes

theorem Reads.unique {bytes bytes' : Bytes} (h : s.Reads id bytes) (h' : s.Reads id bytes') :
    bytes = bytes' := by
  unfold Reads at h h'
  cases cached : s.pool.image? id with
  | some page =>
    rw [cached] at h h'
    exact h.symm.trans h'
  | none =>
    rw [cached] at h h'
    exact Except.ok.inj (h.symm.trans h')

theorem Fetched.reads (fetched : Fetched s id must (.ok r) s') :
    s.Reads id (s'.pool.page r).bytes := by
  unfold Reads
  cases fetched with
  | hit f cached => rw [Pool.image?_eq_some_iff.mpr ⟨r, cached, rfl⟩]; rfl
  | @loaded q f bytes uncached ready read =>
    have page : ((q.addImage ⟨id, bytes, none⟩).2.install f s.pool.images.size).page s.pool.images.size =
        ⟨id, bytes, none⟩ := by
      rw [Pool.page_install, ready.sheds.page_addImage]
    rw [Pool.image?_eq_none_iff.mpr uncached, page]
    exact read
  | @outside q bytes uncached optional full sheds sound read =>
    have page := sheds.page_addImage ⟨id, bytes, none⟩
    rw [Pool.image?_eq_none_iff.mpr uncached, page]
    exact read

/-- A page that reads the same as long as nobody changes anything, also if the pool lets go of it and
loads it again. -/
structure Firm (s : Store) (id : PageId) (bytes : Bytes) : Prop where
  reads : s.Reads id bytes
  clean : ∀ page, s.pool.image? id = some page → page.isDirty = false → s.loadable id = .ok bytes

theorem Recached.firm {bytes : Bytes} (h : Recached s s') (firm : s.Firm id bytes) :
    s'.Firm id bytes := by
  have loadable : s'.loadable id = s.loadable id := by
    rw [h.rest]
    rfl
  obtain ⟨reads, clean⟩ := firm
  rw [← loadable] at clean
  unfold Reads at reads
  rcases h.image? id with same | ⟨gone, page, there, idle⟩ | ⟨none, bytes', read, now⟩
  · refine ⟨?_, same.symm ▸ clean⟩
    unfold Reads
    rwa [same, loadable]
  · refine ⟨?_, fun _ there' => ?_⟩
    · unfold Reads
      rw [gone]
      exact clean page there idle
    · rw [gone] at there'
      cases there'
  · rw [none] at reads
    cases reads.symm.trans read
    refine ⟨?_, fun _ _ _ => loadable.trans read⟩
    unfold Reads
    rw [now]

/-- The table file and the catalog once a page was written. -/
def writable (s : Store) (p : Page) : Except Stop (Catalog × Disk) :=
  match s.catalog.ref p.id.table with
  | .error c => .error (.ofCause c)
  | .ok ref =>
    match (s.catalog.table ref).write s.disk p with
    | .ok (t, disk) => .ok (s.catalog.update ref t, disk)
    | .error e => Action.inside (.flushing p.id) (.error e)

theorem ends_writePage (r : PageRef) (Q : Except Stop Unit → Store → Prop) :
    (writePage r).Ends s Q ↔
      match s.writable (s.pool.page r) with
      | .ok (catalog, disk) =>
        Q (.ok ()) { s with catalog, disk, pool := s.pool.update r (·.mark none) }
      | .error e => Q (.error e) s := by
  unfold writePage writable
  simp only [Action.ends_bind, ends_page, Action.andThen, Action.ends_get, Action.ends_ofCause]
  cases s.catalog.ref (s.pool.page r).id.table with
  | error c => rfl
  | ok ref =>
    simp only [Action.mapError_ok, Action.andThen, Action.ends_bind, Action.ends_within, writeTable,
      Action.ends_get, Action.ends_ofStop]
    cases (s.catalog.table ref).write s.disk (s.pool.page r) with
    | ok written => rfl
    | error e => cases e <;> rfl

/-- The ways in which a changed image can be kept for its transaction. -/
inductive Kept (s : Store) (tx : TxId) (r : PageRef) : Except Stop Unit → Store → Prop where
  | replaced {f : Nat} (fits : (s.pool.update r (·.mark (some tx))).Fits f r)
      (cached : s.pool.resident? (s.pool.page r).id ≠ none) :
      Kept s tx r (.ok ()) { s with pool := (s.pool.update r (·.mark (some tx))).install f r }
  | placed {q : Pool} {f : Nat} (uncached : s.pool.resident? (s.pool.page r).id = none)
      (ready : (s.pool.update r (·.mark (some tx))).Ready q f) :
      Kept s tx r (.ok ()) { s with pool := q.install f r }
  | through {q : Pool} {catalog : Catalog} {disk : Disk}
      (uncached : s.pool.resident? (s.pool.page r).id = none)
      (full : (s.pool.update r (·.mark (some tx))).AllDirty)
      (sheds : (s.pool.update r (·.mark (some tx))).Sheds q) (sound : q.Sound)
      (written : s.writable ((s.pool.page r).mark (some tx)) = .ok (catalog, disk)) :
      Kept s tx r (.ok ()) { s with catalog, disk, pool := q.update r (·.mark none) }
  | refused {q : Pool} {e : Stop} (unwritable : s.writable ((s.pool.page r).mark (some tx)) = .error e) :
      Kept s tx r (.error e) { s with pool := q }

theorem page_update_mark (valid : r < s.pool.images.size) (owner : Option TxId) :
    (s.pool.update r (·.mark owner)).page r = (s.pool.page r).mark owner := by
  rw [Pool.page_update, if_pos ⟨rfl, valid⟩]

theorem keepDirty_ends (h : s.pool.Sound) (valid : r < s.pool.images.size) (tx : TxId) :
    (keepDirty tx r).Ends s (Kept s tx r) := by
  have marked : (s.pool.update r (·.mark (some tx))).Sound := h.update r rfl
  have page := page_update_mark valid (some tx)
  unfold keepDirty cacheChanged
  simp only [Action.ends_bind, ends_mark, Action.andThen, Action.ends_get, ends_page, page]
  cases index : (s.pool.update r (·.mark (some tx))).frameOf[((s.pool.page r).mark (some tx)).id]? with
  | some f =>
    refine Kept.replaced (marked.fits_of_index (by rwa [Pool.size_update]) ?_) ?_
    · rw [page]
      exact index
    · intro uncached
      have := marked.frameOf_eq_none_iff.mpr uncached
      rw [show (s.pool.page r).id = ((s.pool.page r).mark (some tx)).id from rfl, index] at this
      cases this
  | none =>
    have uncached : s.pool.resident? (s.pool.page r).id = none := marked.frameOf_eq_none_iff.mp index
    simp only [Action.ends_bind, ends_findFrame]
    cases found : (s.pool.update r (·.mark (some tx))).findFrame.1 with
    | some f => exact .placed uncached (marked.findFrame_some found)
    | none =>
      obtain ⟨sound, sheds, full⟩ := marked.findFrame_none found
      simp only [Action.andThen, ends_writePage, sheds.page, page]
      have write : Store.writable { s with pool := (s.pool.update r (·.mark (some tx))).findFrame.2 }
        ((s.pool.page r).mark (some tx)) = s.writable ((s.pool.page r).mark (some tx)) := rfl
      rw [write]
      cases written : s.writable ((s.pool.page r).mark (some tx)) with
      | ok changed => exact .through uncached (sheds.full full).1 sheds sound written
      | error e => exact .refused written

/-- The ways in which new bytes of a page can be kept for the transaction that wrote them. The page
is cached as dirty, or else it goes to disk and the pool has no part in it. -/
inductive Changed (s : Store) (id : PageId) (tx : TxId) (bytes : Bytes) :
    Except Stop Unit → Store → Prop where
  | cached {q : Pool} (sound : q.Sound) (capacity : q.capacity = s.pool.capacity)
      (mine : q.image? id = some ⟨id, bytes, some tx⟩)
      (others : ∀ other ≠ id, q.image? other = s.pool.image? other ∨
        q.image? other = none ∧ ∃ page, s.pool.image? other = some page ∧ page.isDirty = false) :
      Changed s id tx bytes (.ok ()) { s with pool := q }
  | through {q : Pool} {catalog : Catalog} {disk : Disk} (uncached : s.pool.image? id = none)
      (full : s.pool.AllDirty) (sound : q.Sound) (capacity : q.capacity = s.pool.capacity)
      (gone : q.image? id = none)
      (others : ∀ other ≠ id, q.image? other = s.pool.image? other ∨
        q.image? other = none ∧ ∃ page, s.pool.image? other = some page ∧ page.isDirty = false)
      (written : s.writable ⟨id, bytes, some tx⟩ = .ok (catalog, disk)) :
      Changed s id tx bytes (.ok ()) { s with catalog, disk, pool := q }
  | refused {q : Pool} {e : Stop} (unwritable : s.writable ⟨id, bytes, some tx⟩ = .error e) :
      Changed s id tx bytes (.error e) { s with pool := q }

theorem Stands.alone (stands : Stands s id r) (h : s.pool.Sound) {other : PageId}
    (ne : other ≠ id) : s.pool.resident? other ≠ some r := by
  intro there
  exact ne ((h.id_of_resident? there).symm.trans stands.same)

theorem Stands.image?_update (stands : Stands s id r) (h : s.pool.Sound) (g : Page → Page)
    {other : PageId} (ne : other ≠ id) :
    (s.pool.update r g).image? other = s.pool.image? other := by
  rw [h.image?_update, if_neg (stands.alone h ne)]

theorem changed_of_kept (h : s.pool.Sound) (stands : Stands s id r) {tx : TxId} {bytes : Bytes}
    {x : Except Stop Unit}
    (kept : Kept { s with pool := s.pool.update r fun p => { p with bytes } } tx r x s') :
    Changed s id tx bytes x s' := by
  let written := s.pool.update r fun p => { p with bytes }
  have sound : written.Sound := h.update r rfl
  have marked : (written.update r (·.mark (some tx))).Sound := sound.update r rfl
  have page : (written.page r).mark (some tx) = ⟨id, bytes, some tx⟩ := by
    rw [Pool.page_update, if_pos ⟨rfl, stands.valid⟩, ← stands.same]
    rfl
  have same_id : (written.page r).id = id := congrArg Page.id page
  have dirty : (written.update r (·.mark (some tx))).page r = ⟨id, bytes, some tx⟩ := by
    rw [Pool.page_update, if_pos ⟨rfl, by rw [Pool.size_update]; exact stands.valid⟩, page]
  have others : ∀ other ≠ id,
      (written.update r (·.mark (some tx))).image? other = s.pool.image? other := by
    intro other ne
    rw [sound.image?_update, Pool.resident?_update, if_neg (stands.alone h ne),
      stands.image?_update h _ ne]
  cases kept with
  | @replaced f fits cached =>
    refine .cached (marked.install fits) rfl ?_ ?_
    · rw [marked.image?_install fits, dirty, if_pos rfl]
    · intro other ne
      rw [marked.image?_install fits, dirty, if_neg ne]
      exact Or.inl (others other ne)
  | @placed q f uncached ready =>
    have uncached : written.resident? id = none := same_id ▸ uncached
    have dirty' : q.page r = ⟨id, bytes, some tx⟩ := (ready.sheds.page r).trans dirty
    have fits : q.Fits f r := by
      apply ready.sound.fits_of_free ready.frame ready.free
      · rw [ready.sheds.images, Pool.size_update, Pool.size_update]
        exact stands.valid
      · rw [dirty']
        exact (ready.sheds.kept id).elim (·.trans uncached) And.left
    refine .cached (ready.sound.install fits) ready.sheds.capacity ?_ ?_
    · rw [ready.sound.image?_install fits, dirty', if_pos rfl]
    · intro other ne
      rw [ready.sound.image?_install fits, dirty', if_neg ne, ← others other ne]
      exact ready.sheds.image? other
  | @through q catalog disk uncached full sheds sound' done =>
    have uncached : written.resident? id = none := same_id ▸ uncached
    have gone : q.resident? id = none := (sheds.kept id).elim (·.trans uncached) And.left
    -- the image is in no frame, so the dirty pages are those of the other images
    have full : s.pool.AllDirty := by
      intro f below
      obtain ⟨k, here, is_dirty⟩ := full f below
      refine ⟨k, here, ?_⟩
      have ne : k ≠ r := by
        intro eq
        have cached := h.resident?_of_inFrame? (eq ▸ here)
        rw [stands.same] at cached
        exact absurd (cached.symm.trans uncached) (by simp)
      rwa [Pool.page_update, if_neg (fun both => ne both.1), Pool.page_update,
        if_neg (fun both => ne both.1)] at is_dirty
    refine .through (Pool.image?_eq_none_iff.mpr uncached) full (sound'.update r rfl)
      sheds.capacity ?_ ?_ (page ▸ done)
    · rw [Pool.image?_eq_none_iff, Pool.resident?_update]
      exact gone
    · intro other ne
      have not_r : q.resident? other ≠ some r := by
        intro there
        have eq := sound'.id_of_resident? there
        rw [sheds.page, dirty] at eq
        exact ne eq.symm
      rw [sound'.image?_update, if_neg not_r, ← others other ne]
      exact sheds.image? other
  | refused unwritable => exact .refused (page ▸ unwritable)

theorem change_ends (h : s.pool.Sound) (stands : Stands s id r) (tx : TxId) (bytes : Bytes) :
    (keepDirty tx r).Ends { s with pool := s.pool.update r fun p => { p with bytes } }
      (Changed s id tx bytes) := by
  have sound : (s.pool.update r fun p => { p with bytes }).Sound := h.update r rfl
  have valid : r < (s.pool.update r fun p => { p with bytes }).images.size := by
    rw [Pool.size_update]
    exact stands.valid
  exact (keepDirty_ends (s := { s with pool := _ }) sound valid tx).mono
    fun _ _ kept => changed_of_kept h stands kept

/-! What becomes of images -/

theorem Fetched.retains {x : Except Stop PageRef} (fetched : Fetched s id must x s') :
    s.pool.Retains s'.pool := by
  cases fetched with
  | hit f cached => exact Pool.retains_of_images rfl
  | exhausted uncached needed full sheds sound => exact Pool.retains_of_images sheds.images
  | missing uncached sheds sound unreadable => exact Pool.retains_of_images sheds.images
  | loaded uncached ready read =>
    exact ((Pool.retains_of_images ready.sheds.images).trans (Pool.retains_addImage _ _)).trans
      (Pool.retains_of_images rfl)
  | outside uncached optional full sheds sound read =>
    exact (Pool.retains_of_images sheds.images).trans (Pool.retains_addImage _ _)

theorem Kept.retains {tx : TxId} (kept : Kept s tx r (.ok ()) s') : s.pool.Retains s'.pool := by
  have marked : s.pool.Retains (s.pool.update r (·.mark (some tx))) := Pool.retains_update _ _ rfl
  cases kept with
  | replaced fits cached => exact marked.trans (Pool.retains_of_images rfl)
  | placed uncached ready => exact marked.trans (Pool.retains_of_images ready.sheds.images)
  | through uncached full sheds sound written =>
    exact (marked.trans (Pool.retains_of_images sheds.images)).trans (Pool.retains_update _ _ rfl)

theorem Fetched.pins {x : Except Stop PageRef} (fetched : Fetched s id must x s') {other : PageId}
    {k : PageRef} (pins : s.pool.Pins other k) : s'.pool.Pins other k := by
  cases fetched with
  | hit f cached => exact pins.touch f
  | exhausted uncached needed full sheds sound => exact pins.sheds sheds
  | missing uncached sheds sound unreadable => exact pins.sheds sheds
  | @loaded q f bytes uncached ready read =>
    have fits := ready.fits ⟨id, bytes, none⟩ uncached
    refine ((pins.sheds ready.sheds).addImage ready.sound _).install (ready.sound.addImage _) fits ?_
    rw [ready.sheds.page_addImage]
    rintro rfl
    rw [pins.resident] at uncached
    cases uncached
  | outside uncached optional full sheds sound read => exact (pins.sheds sheds).addImage sound _

/-- A page that can not be evicted is the same image after a change of it, or of any other page. -/
theorem pins_of_kept (h : s.pool.Sound) (stands : Stands s id r) {tx : TxId} {bytes : Bytes}
    (kept : Kept { s with pool := s.pool.update r fun p => { p with bytes } } tx r (.ok ()) s')
    {other : PageId} {k : PageRef} (pins : s.pool.Pins other k) : s'.pool.Pins other k := by
  let written := s.pool.update r fun p => { p with bytes }
  have sound : written.Sound := h.update r rfl
  have marked : (written.update r (·.mark (some tx))).Sound := sound.update r rfl
  have id_written : (written.page r).id = id := by
    rw [Pool.page_update, if_pos ⟨rfl, stands.valid⟩]
    exact stands.same
  have valid : r < written.images.size := by
    rw [Pool.size_update]
    exact stands.valid
  have id_marked : ((written.update r (·.mark (some tx))).page r).id = id := by
    rw [page_update_mark (s := { s with pool := written }) valid]
    exact id_written
  have pins_written : written.Pins other k := pins.update r fun _ => pins.dirty
  have pins_marked : (written.update r (·.mark (some tx))).Pins other k :=
    pins_written.update r fun _ => rfl
  cases kept with
  | @replaced f fits cached =>
    refine pins_marked.install marked fits fun same => ?_
    rw [id_marked] at same
    subst same
    rcases stands.place with there | ⟨uncached, -⟩
    · exact Option.some.inj (there.symm.trans pins.resident)
    · rw [pins.resident] at uncached
      cases uncached
  | @placed q f uncached ready =>
    have uncached : s.pool.resident? id = none := by
      rw [id_written] at uncached
      exact uncached
    have page : (q.page r).id = id := (ready.sheds.page r).symm ▸ id_marked
    have fits : q.Fits f r := by
      apply ready.sound.fits_of_free ready.frame ready.free
      · rw [ready.sheds.images, Pool.size_update]
        exact valid
      · rw [page]
        exact (ready.sheds.kept id).elim (·.trans uncached) And.left
    refine (pins_marked.sheds ready.sheds).install ready.sound fits fun same => ?_
    rw [page] at same
    rw [same, pins.resident] at uncached
    cases uncached
  | @through q catalog disk uncached full sheds sound' done =>
    refine (pins_marked.sheds sheds).update r ?_
    rintro rfl
    have same := h.id_of_resident? pins.resident
    rw [stands.same] at same
    rw [id_written, same, Pool.resident?_update, pins.resident] at uncached
    cases uncached

end HeapStore.Store
