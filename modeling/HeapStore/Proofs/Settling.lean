import HeapStore.Proofs.Contents

/-! What commits and aborts do to contents. A commit takes the pages of its transaction to disk as
they are, an abort takes them back to what they are on disk. Neither touches other pages. -/
namespace HeapStore.Store

variable {s s' t : Store} {id : PageId} {tx : TxId} {r : PageRef} {p q : PageId → Prop}
  {b : PageId → Bytes}

/-- The pages in `p` are now the same in memory and on disk, and hold what `b` tells. Nothing else
has changed. -/
structure Landed (p : PageId → Prop) (b : PageId → Bytes) (s s' : Store) : Prop where
  coherent : s'.Coherent
  rest : s' = { s with disk := s'.disk, pool := s'.pool }
  landed : ∀ id, p id → s'.owner id = none ∧ s'.content id = b id ∧ s'.saved id = b id
  others : ∀ id, ¬p id →
    s'.owner id = s.owner id ∧ s'.content id = s.content id ∧ s'.saved id = s.saved id
  files : ∀ name, (∀ id ref, p id → s.catalog.ref id.table = .ok ref →
    (s.catalog.table ref).file ≠ name) → s'.disk.get? name = s.disk.get? name

theorem Landed.refl (h : s.Coherent) (none : ∀ id, ¬p id) : Landed p b s s :=
  ⟨h, rfl, fun id taken => absurd taken (none id), fun _ _ => ⟨rfl, rfl, rfl⟩, fun _ _ => rfl⟩

theorem Landed.trans (first : Landed p b s t) (second : Landed q b t s') :
    Landed (fun id => p id ∨ q id) b s s' where
  coherent := second.coherent
  rest := by
    rw [second.rest, first.rest]
  landed id either := by
    by_cases later : q id
    · exact second.landed id later
    · obtain ⟨owner, content, saved⟩ := second.others id later
      rw [owner, content, saved]
      exact first.landed id (either.resolve_right later)
  others id neither := by
    obtain ⟨owner, content, saved⟩ := second.others id fun later => neither (Or.inr later)
    rw [owner, content, saved]
    exact first.others id fun before => neither (Or.inl before)
  files name others := by
    have catalog : t.catalog = s.catalog := by rw [first.rest]
    rw [second.files name fun id ref later known => ?_,
      first.files name fun id ref before => others id ref (Or.inl before)]
    rw [catalog] at known ⊢
    exact others id ref (Or.inr later) known

theorem Landed.congr (h : Landed p b s s') (same : ∀ id, q id ↔ p id) : Landed q b s s' := by
  have eq : q = p := funext fun id => propext (same id)
  rwa [eq]

/-- It is enough to know what the pages in question hold. -/
theorem Landed.holding {b' : PageId → Bytes} (h : Landed p b s s') (same : ∀ id, p id → b id = b' id) :
    Landed p b' s s' where
  coherent := h.coherent
  rest := h.rest
  landed id taken := by
    rw [← same id taken]
    exact h.landed id taken
  others := h.others
  files := h.files

/-- What a change of the cached image of a page shows. -/
theorem image?_update_resident (h : s.Coherent) (there : s.pool.resident? id = some r)
    (g : Page → Page) (other : PageId) : (s.pool.update r g).image? other =
      if other = id then some (g (s.pool.page r)) else s.pool.image? other := by
  rw [h.guarded.pool.image?_update]
  by_cases here : other = id
  · rw [if_pos here, if_pos (here ▸ there)]
  · rw [if_neg here, if_neg]
    intro there'
    exact here ((h.guarded.pool.id_of_resident? there').symm.trans
      (h.guarded.pool.id_of_resident? there))

/-- A cached page gets clean and is the same on disk by then. -/
theorem landed_of_update (h : s.Coherent) (there : s.pool.resident? id = some r) {g : Page → Page}
    (same : ∀ page, (g page).id = page.id) (clean : ∀ page, (g page).dirtiedBy = none)
    (bytes : (g (s.pool.page r)).bytes = b id) (whole : (b id).size = (s.saved id).size) {disk : Disk}
    (backed : ∀ id ref, s.catalog.ref id = .ok ref → (s.catalog.table ref).Backed disk)
    (saved : ∀ pool other, Store.saved { s with disk, pool } other =
      if other = id then b id else s.saved other)
    (files : ∀ name, (∀ ref, s.catalog.ref id.table = .ok ref → (s.catalog.table ref).file ≠ name) →
      disk.get? name = s.disk.get? name) :
    Landed (· = id) b s { s with disk, pool := s.pool.update r g } := by
  have cached := image?_of_resident there
  have images := image?_update_resident h there g
  have keeps := calm_of_clean s r g same clean h.guarded
  have written : Guarded { s with disk, pool := s.pool.update r g } :=
    ⟨keeps.guarded.pool, keeps.guarded.locks, keeps.guarded.keyed, keeps.guarded.owned,
      keeps.guarded.known⟩
  have kept : ∀ other image, (s.pool.update r g).image? other = some image →
      other = id ∧ image = g (s.pool.page r) ∨ other ≠ id ∧ s.pool.image? other = some image := by
    intro other image there'
    rw [images] at there'
    split at there'
    · rename_i here
      cases there'
      exact Or.inl ⟨here, rfl⟩
    · rename_i elsewhere
      exact Or.inr ⟨elsewhere, there'⟩
  refine ⟨⟨written, h.capacity, h.apart, backed, h.named, ?_, ?_, ?_⟩, rfl, ?_, ?_, ?_⟩
  · intro other image there'
    rcases kept other image there' with ⟨rfl, -⟩ | ⟨-, before⟩
    · exact h.has other _ cached
    · exact h.has other image before
  · intro other image there'
    rw [saved]
    rcases kept other image there' with ⟨rfl, rfl⟩ | ⟨ne, before⟩
    · rw [if_pos rfl, bytes]
    · rw [if_neg ne]
      exact h.whole other image before
  · intro other image there' unowned
    rw [saved]
    rcases kept other image there' with ⟨rfl, rfl⟩ | ⟨ne, before⟩
    · rw [if_pos rfl, bytes]
    · rw [if_neg ne]
      exact h.clean other image before unowned
  · rintro other rfl
    unfold owner content
    rw [saved, if_pos rfl]
    dsimp only
    rw [images, if_pos rfl]
    exact ⟨clean _, bytes, rfl⟩
  · intro other ne
    unfold owner content
    rw [saved, if_neg ne]
    dsimp only
    rw [images, if_neg ne]
    exact ⟨rfl, rfl, rfl⟩
  · intro name others
    exact files name fun ref known => others id ref rfl known

/-- The pages of images that are handled one after the other. -/
theorem resident_cons (h : s.Coherent) (there : s.pool.resident? id = some r)
    (residents : ∀ other, t.pool.resident? other = s.pool.resident? other) {rs : List PageRef}
    (other : PageId) : (∃ k ∈ r :: rs, s.pool.resident? other = some k) ↔
      other = id ∨ ∃ k ∈ rs, t.pool.resident? other = some k := by
  constructor
  · rintro ⟨k, listed, there'⟩
    rcases List.mem_cons.mp listed with rfl | later
    · exact Or.inl ((h.guarded.pool.id_of_resident? there').symm.trans
        (h.guarded.pool.id_of_resident? there))
    · exact Or.inr ⟨k, later, (residents other).trans there'⟩
  · rintro (rfl | ⟨k, later, there'⟩)
    · exact ⟨r, List.mem_cons_self .., there⟩
    · exact ⟨k, List.mem_cons_of_mem _ later, (residents other).symm.trans there'⟩

/-! Commits -/

theorem writePage_lands (h : s.Coherent) (there : s.pool.resident? id = some r) :
    (writePage r).Ends s fun answer s' => answer = .ok () ∧ Landed (· = id) s.content s s' ∧
      ∀ other, s'.pool.resident? other = s.pool.resident? other := by
  have cached := image?_of_resident there
  have same : (s.pool.page r).id = id := h.guarded.pool.id_of_resident? there
  obtain ⟨disk, writable, backed, files, saved⟩ :=
    h.writable_eq (h.has id _ cached) (h.whole id _ cached) (s.pool.page r).dirtiedBy
  have page : s.pool.page r = ⟨id, (s.pool.page r).bytes, (s.pool.page r).dirtiedBy⟩ := by
    rw [← same]
  have content := content_of_resident there
  rw [← page] at writable
  rw [ends_writePage, writable]
  refine ⟨rfl, landed_of_update h there (g := (·.mark none)) (fun _ => rfl)
    (fun _ => rfl) content.symm
    (h.size_content id) backed ?_ files, fun _ => rfl⟩
  rw [content]
  exact saved

theorem Landed.content_eq (h : Landed p s.content s s') (id : PageId) :
    s'.content id = s.content id := by
  by_cases taken : p id
  · exact (h.landed id taken).2.1
  · exact (h.others id taken).2.1

theorem writePages_lands (h : s.Coherent) (rs : List PageRef)
    (cached : ∀ r ∈ rs, ∃ id, s.pool.resident? id = some r) :
    (writePages rs).Ends s fun answer s' => answer = .ok () ∧
      Landed (fun id => ∃ r ∈ rs, s.pool.resident? id = some r) s.content s s' := by
  induction rs generalizing s with
  | nil => exact ⟨rfl, .refl h fun id => by simp⟩
  | cons r rs ih =>
    obtain ⟨id, there⟩ := cached r (List.mem_cons_self ..)
    unfold writePages
    rw [Action.ends_bind]
    refine (writePage_lands h there).mono ?_
    rintro answer t ⟨rfl, landed, residents⟩
    rw [Action.andThen]
    refine (ih landed.coherent fun k later => ?_).mono ?_
    · obtain ⟨other, there'⟩ := cached k (List.mem_cons_of_mem _ later)
      exact ⟨other, (residents other).trans there'⟩
    · rintro answer u ⟨rfl, landed'⟩
      have both := landed.trans (landed'.holding fun id _ => landed.content_eq id)
      exact ⟨rfl, both.congr fun other => resident_cons h there residents other⟩

theorem flushDirtiedBy_lands (h : s.Coherent) (tx : TxId) :
    (flushDirtiedBy tx).Ends s fun answer t => answer = .ok () ∧
      Landed (fun id => s.owner id = some tx) s.content s t := by
  unfold flushDirtiedBy
  rw [Action.ends_bind, Action.ends_get, Action.andThen]
  refine (writePages_lands h _ fun r listed => ⟨_, resident?_of_dirtiedBy h.guarded.pool listed⟩).mono ?_
  rintro answer t ⟨rfl, landed⟩
  exact ⟨rfl, landed.congr fun id => (dirtiedBy_iff_owner h.guarded.pool).symm⟩

/-! Aborts -/

theorem restorePage_lands (h : s.Coherent) (there : s.pool.resident? id = some r) :
    (restorePage r).Ends s fun answer s' => answer = .ok none ∧ Landed (· = id) s.saved s s' ∧
      s'.disk = s.disk ∧ ∀ other, s'.pool.resident? other = s.pool.resident? other := by
  have cached := image?_of_resident there
  have same : (s.pool.page r).id = id := h.guarded.pool.id_of_resident? there
  rw [ends_restorePage, same, h.onDisk_eq (h.has id _ cached)]
  dsimp only [Action.inside]
  rw [if_pos (h.whole id _ cached).symm]
  refine ⟨rfl, landed_of_update h there
    (g := fun p => { p with bytes := s.saved id, dirtiedBy := none }) (fun _ => rfl)
    (fun _ => rfl) rfl rfl h.backed ?_ (fun _ _ => rfl), rfl, fun _ => rfl⟩
  intro pool other
  split
  · rename_i here
    rw [here]
    rfl
  · rfl

theorem saved_congr (disk : s'.disk = s.disk) (catalog : s'.catalog = s.catalog) :
    s'.saved = s.saved := by
  funext id
  simp only [saved, disk, catalog]

theorem restorePages_lands (h : s.Coherent) (rs : List PageRef)
    (cached : ∀ r ∈ rs, ∃ id, s.pool.resident? id = some r) :
    (restorePages rs).Ends s fun answer s' => answer = .ok none ∧
      Landed (fun id => ∃ r ∈ rs, s.pool.resident? id = some r) s.saved s s' ∧
      s'.disk = s.disk := by
  induction rs generalizing s with
  | nil => exact ⟨rfl, .refl h fun id => by simp, rfl⟩
  | cons r rs ih =>
    obtain ⟨id, there⟩ := cached r (List.mem_cons_self ..)
    unfold restorePages
    rw [Action.ends_bind]
    refine (restorePage_lands h there).mono ?_
    rintro answer t ⟨rfl, landed, disk, residents⟩
    have catalog : t.catalog = s.catalog := by rw [landed.rest]
    rw [Action.andThen, Action.ends_bind]
    refine (ih landed.coherent fun k later => ?_).mono ?_
    · obtain ⟨other, there'⟩ := cached k (List.mem_cons_of_mem _ later)
      exact ⟨other, (residents other).trans there'⟩
    · rintro answer u ⟨rfl, landed', disk'⟩
      rw [saved_congr disk catalog] at landed'
      exact ⟨rfl, (landed.trans landed').congr fun other => resident_cons h there residents other,
        disk'.trans disk⟩

theorem restoreDirtiedBy_lands (h : s.Coherent) (tx : TxId) :
    (restoreDirtiedBy tx).Ends s fun answer t => answer = .ok () ∧
      Landed (fun id => s.owner id = some tx) s.saved s t ∧ t.disk = s.disk := by
  unfold restoreDirtiedBy
  rw [Action.ends_bind, Action.ends_get, Action.andThen, Action.ends_bind]
  refine (restorePages_lands h _ fun r listed => ⟨_, resident?_of_dirtiedBy h.guarded.pool listed⟩).mono ?_
  rintro answer t ⟨rfl, landed, disk⟩
  exact ⟨rfl, landed.congr fun id => (dirtiedBy_iff_owner h.guarded.pool).symm, disk⟩

/-! Ends of transactions -/

/-- A transaction has ended, and the pages that it owned hold what `b` tells. -/
structure Completed (tx : TxId) (b : PageId → Bytes) (s s' : Store) : Prop where
  coherent : s'.Coherent
  rest : s' = { s with disk := s'.disk, pool := s'.pool, locks := s.locks.releaseAll tx }
  landed : ∀ id, s.owner id = some tx → s'.owner id = none ∧ s'.content id = b id ∧ s'.saved id = b id
  others : ∀ id, s.owner id ≠ some tx →
    s'.owner id = s.owner id ∧ s'.content id = s.content id ∧ s'.saved id = s.saved id
  files : ∀ name, (∀ id ref, s.owner id = some tx → s.catalog.ref id.table = .ok ref →
    (s.catalog.table ref).file ≠ name) → s'.disk.get? name = s.disk.get? name

theorem Landed.completed (h : Landed (fun id => s.owner id = some tx) b s t) :
    s.Completed tx b { t with locks := t.locks.releaseAll tx } := by
  have locks : t.locks = s.locks := by rw [h.rest]
  have owned : ∀ id u, t.owner id = some u → (t.locks.releaseAll tx).Held u id .exclusive := by
    intro id u owner
    refine Locks.held_releaseAll.mpr ⟨h.coherent.guarded.owned id u owner, ?_⟩
    rintro rfl
    by_cases mine : s.owner id = some u
    · rw [(h.landed id mine).1] at owner
      cases owner
    · rw [(h.others id mine).1] at owner
      exact mine owner
  refine ⟨⟨⟨h.coherent.guarded.pool, h.coherent.guarded.locks.releaseAll tx,
    h.coherent.guarded.keyed, owned, h.coherent.guarded.known⟩, h.coherent.capacity,
    h.coherent.apart, h.coherent.backed, h.coherent.named, h.coherent.has, h.coherent.whole,
    h.coherent.clean⟩, ?_, h.landed, h.others, h.files⟩
  rw [locks, h.rest]

theorem commit_completes (h : s.Coherent) (tx : TxId) :
    (commit tx).Ends s fun answer t => answer = .ok () ∧ s.Completed tx s.content t := by
  unfold commit complete
  rw [Action.ends_bind, Action.ends_attempt]
  refine (flushDirtiedBy_lands h tx).mono ?_
  rintro answer t ⟨rfl, landed⟩
  exact ⟨rfl, landed.completed⟩

theorem abort_completes (h : s.Coherent) (tx : TxId) :
    (abort tx).Ends s fun answer t =>
      answer = .ok () ∧ s.Completed tx s.saved t ∧ t.disk = s.disk := by
  unfold abort complete
  rw [Action.ends_bind, Action.ends_attempt]
  refine (restoreDirtiedBy_lands h tx).mono ?_
  rintro answer t ⟨rfl, landed, disk⟩
  exact ⟨rfl, landed.completed, disk⟩

theorem drop_completes (h : s.Coherent) (tx : TxId) :
    (drop tx).Ends s fun answer t =>
      answer = .ok () ∧ s.Completed tx s.saved t ∧ t.disk = s.disk := by
  unfold drop
  rw [Action.ends_bind, Action.ends_attempt]
  refine (abort_completes h tx).mono ?_
  rintro answer t ⟨rfl, done⟩
  exact ⟨rfl, done⟩

/-! Flushes and discards -/

theorem flushAll_lands (h : s.Coherent) :
    flushAll.Ends s fun answer t => answer = .ok () ∧
      Landed (fun id => ∃ r ∈ s.pool.dirty, s.pool.resident? id = some r) s.content s t := by
  unfold flushAll
  rw [Action.ends_bind, Action.ends_get, Action.andThen]
  refine writePages_lands h _ fun r listed => ?_
  obtain ⟨f, here⟩ := mem_residents_iff.mp (List.mem_filter.mp listed).1
  exact ⟨_, h.guarded.pool.resident?_of_inFrame? here⟩

theorem flushPage_lands (h : s.Coherent) (id : PageId) :
    (flushPage id).Ends s fun answer t => answer = .ok () ∧
      ∃ p : PageId → Prop, (∀ other, p other → other = id) ∧ Landed p s.content s t := by
  unfold flushPage
  rw [Action.ends_bind, Action.ends_get, Action.andThen]
  dsimp only
  split
  · rename_i f r found
    split
    · refine (writePage_lands h (Pool.cached?_eq_some found)).mono ?_
      rintro answer t ⟨rfl, landed, -⟩
      exact ⟨rfl, _, fun _ here => here, landed⟩
    · exact ⟨rfl, fun _ => False, fun _ => False.elim, .refl h fun _ never => never⟩
  · exact ⟨rfl, fun _ => False, fun _ => False.elim, .refl h fun _ never => never⟩

/-- A page that is dropped is the one on disk again. -/
theorem discard_lands (h : s.Coherent) (id : PageId) :
    Landed (· = id) s.saved s { s with pool := s.pool.remove id } := by
  have image? := h.guarded.pool.image?_remove id
  have kept : ∀ other page, (s.pool.remove id).image? other = some page →
      s.pool.image? other = some page := by
    intro other page there
    rw [image?] at there
    split at there
    · cases there
    · exact there
  refine ⟨⟨(calm_of_remove s id h.guarded).guarded, (Pool.capacity_remove _ _).trans h.capacity,
    h.apart, h.backed, h.named,
    fun other page there => h.has other page (kept other page there),
    fun other page there => h.whole other page (kept other page there),
    fun other page there => h.clean other page (kept other page there)⟩, rfl, ?_, ?_,
    fun _ _ => rfl⟩
  · rintro other rfl
    simp only [owner, content, image?, if_true]
    exact ⟨rfl, rfl, rfl⟩
  · intro other ne
    simp only [owner, content, image?, if_neg ne]
    exact ⟨trivial, rfl, rfl⟩

end HeapStore.Store
