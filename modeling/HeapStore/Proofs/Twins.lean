import HeapStore.Proofs.Performing
import HeapStore.Proofs.Settling

/-! Two stores that look the same, whatever is cached in each. Where one of them has a page on disk
already that is still dirty in the other, a commit makes up for that, and an abort does not. -/
namespace HeapStore.Store

variable {s s' u u' : Store} {w w' : PageId → TxId → Prop} {tx : TxId} {id : PageId} {bytes : Bytes}

/-- Nobody else has the page dirty. -/
def OwnedBy (s : Store) (id : PageId) (tx : TxId) : Prop := ∀ v, s.owner id = some v → v = tx

/-- There is no difference to see. Files and dirty pages differ only where `w` tells that a change
may have gone through to the file. -/
structure Twins (w : PageId → TxId → Prop) (s u : Store) : Prop where
  view : u.view = s.view
  pages : ∀ id, u.owner id = s.owner id ∧ u.saved id = s.saved id ∨
    ∃ tx, w id tx ∧ s.OwnedBy id tx ∧ u.OwnedBy id tx
  files : ∀ name, (∀ id ref, s.catalog.ref id = .ok ref → (s.catalog.table ref).pageSize ≠ 0 →
    (s.catalog.table ref).file ≠ name) → u.disk.get? name = s.disk.get? name

theorem Twins.catalog (h : Twins w s u) : u.catalog = s.catalog := congrArg Plain.catalog h.view

theorem Twins.content (h : Twins w s u) (id : PageId) : u.content id = s.content id :=
  congrFun (congrArg Plain.bytes h.view) id

theorem Twins.mono (h : Twins w s u) (le : ∀ id tx, w id tx → w' id tx) : Twins w' s u where
  view := h.view
  pages id := (h.pages id).imp_right fun ⟨tx, wrote, rest⟩ => ⟨tx, le id tx wrote, rest⟩
  files := h.files

theorem Coherent.owner_of_lacks (h : s.Coherent) (lacks : ¬s.catalog.Has id) : s.owner id = none := by
  cases cached : s.pool.image? id with
  | none => simp [owner, cached]
  | some page => exact absurd (h.has id page cached) lacks

theorem Twins.upkeep (h : Twins w s u) (coherent : s.Coherent) (coherent' : u.Coherent)
    (first : s.Upkeep tx s') (second : u.Upkeep tx u') (view : u'.view = s'.view) :
    Twins w s' u' := by
  have catalog := h.catalog
  have catalog' : u'.catalog = s'.catalog := congrArg Plain.catalog view
  refine ⟨view, fun id => ?_, fun name others => ?_⟩
  · by_cases fresh : ¬s.catalog.Has id ∧ s'.catalog.Has id
    · -- an empty page was added on both sides
      have owner := coherent.owner_of_lacks fresh.1
      have owner' := coherent'.owner_of_lacks (catalog ▸ fresh.1)
      have saved := second.fresh id (catalog ▸ fresh.1) (catalog' ▸ fresh.2)
      exact Or.inl (by simp [first.owner, second.owner, owner, owner', saved, catalog,
        first.fresh id fresh.1 fresh.2])
    · have old : s.catalog.Has id ∨ ¬s'.catalog.Has id := by
        by_cases has : s.catalog.Has id
        · exact Or.inl has
        · exact Or.inr fun later => fresh ⟨has, later⟩
      have old' : u.catalog.Has id ∨ ¬u'.catalog.Has id := by rwa [catalog, catalog']
      rcases h.pages id with ⟨owner, saved⟩ | ⟨v, wrote, mine, mine'⟩
      · exact Or.inl (by simp [first.owner, second.owner, owner, first.saved id old,
          second.saved id old', saved])
      · refine Or.inr ⟨v, wrote, ?_, ?_⟩
        · simpa [OwnedBy, first.owner] using mine
        · simpa [OwnedBy, second.owner] using mine'
  · have others' : ∀ id ref, s.catalog.ref id = .ok ref → (s.catalog.table ref).pageSize ≠ 0 →
        (s.catalog.table ref).file ≠ name := by
      intro id ref known some
      have later := others id ref ((first.catalog.ref id).trans known)
      rw [first.catalog.table] at later
      exact later some
    rw [first.files name others', second.files name (catalog ▸ others'), h.files name others']

/-- What is known of the pool when a page is changed was so before the step. -/
theorem Upkeep.through (h : s.Upkeep tx s') (full : s'.pool.image? id = none ∧ s'.pool.AllDirty) :
    s.pool.image? id = none ∧ s.pool.AllDirty := by
  obtain ⟨all, images⟩ := h.full full.2
  exact ⟨(images id).symm.trans full.1, all⟩

theorem Rewritten.ownedBy (h : s.Rewritten tx id bytes s') : s'.OwnedBy id tx := by
  intro v owner
  rcases h.kept with ⟨mine, -⟩ | ⟨none, -⟩
  · exact Option.some.inj (owner.symm.trans mine)
  · simp [none] at owner

theorem Rewritten.view (h : s.Rewritten tx id bytes s') :
    s'.view = s.view.changed (some (id, bytes)) := by
  have contents : s'.content = fun other => if other = id then bytes else s.content other :=
    funext h.content
  unfold Store.view Plain.changed
  rw [contents, h.rest]

/-- Both sides give a page the same new bytes. If one of them writes these through, `w'` tells. -/
theorem Twins.rewritten (h : Twins w s u) (first : s.Rewritten tx id bytes s')
    (second : u.Rewritten tx id bytes u') (mine : ∀ v, w id v → w' id tx)
    (others : ∀ other v, other ≠ id → w other v → w' other v)
    (through : s.pool.image? id = none ∧ s.pool.AllDirty ∨
      u.pool.image? id = none ∧ u.pool.AllDirty → w' id tx) : Twins w' s' u' := by
  have catalog : s'.catalog = s.catalog := by rw [first.rest]
  refine ⟨?_, fun other => ?_, fun name apart => ?_⟩
  · rw [first.view, second.view, h.view]
  · by_cases here : other = id
    · subst here
      have both : w' other tx → ∃ v, w' other v ∧ s'.OwnedBy other v ∧ u'.OwnedBy other v :=
        fun wrote => ⟨tx, wrote, first.ownedBy, second.ownedBy⟩
      rcases first.kept with ⟨owner, saved⟩ | ⟨-, -, gone⟩
      · rcases second.kept with ⟨owner', saved'⟩ | ⟨-, -, gone⟩
        · rcases h.pages other with ⟨-, same⟩ | ⟨v, wrote, -⟩
          · exact Or.inl ⟨owner'.trans owner.symm, by rw [saved, saved', same]⟩
          · exact Or.inr (both (mine v wrote))
        · exact Or.inr (both (through (Or.inr gone)))
      · exact Or.inr (both (through (Or.inl gone)))
    · obtain ⟨owner, saved⟩ := first.others other here
      obtain ⟨owner', saved'⟩ := second.others other here
      rcases h.pages other with same | ⟨v, wrote, alone, alone'⟩
      · exact Or.inl (by simpa [owner, saved, owner', saved'] using same)
      · refine Or.inr ⟨v, others other v here wrote, ?_, ?_⟩
        · simpa [OwnedBy, owner] using alone
        · simpa [OwnedBy, owner'] using alone'
  · rw [catalog] at apart
    have untouched : ∀ ref, s.catalog.ref id.table = .ok ref → (s.catalog.table ref).file ≠ name := by
      intro ref known
      obtain ⟨ref', known', below⟩ := first.has
      cases known.symm.trans known'
      exact apart _ _ known (Nat.ne_of_gt (Table.pageSize_pos_of_lt below))
    rw [first.files name untouched, second.files name (h.catalog ▸ untouched), h.files name apart]

/-! Ends of transactions -/

theorem Completed.view {b : PageId → Bytes} (h : s.Completed tx b s') : s'.view = { s.view with
    locks := s.locks.releaseAll tx
    bytes := fun id => if s.owner id = some tx then b id else s.content id } := by
  have contents : s'.content = fun id => if s.owner id = some tx then b id else s.content id := by
    funext id
    split
    · rename_i mine
      exact (h.landed id mine).2.1
    · rename_i others
      exact (h.others id others).2.1
  unfold Store.view
  rw [contents, h.rest]

theorem Completed.view_of_commit (h : s.Completed tx s.content s') :
    s'.view = { s.view with locks := s.locks.releaseAll tx } := by
  simpa [Store.view] using h.view

/-- A transaction that has ended owns no page, and its pages are the same in memory and on disk. -/
theorem Completed.settled (h : s.Completed tx s.content s') (coherent : s.Coherent)
    (mine : s.OwnedBy id tx) : s'.owner id = none ∧ s'.saved id = s.content id := by
  by_cases owned : s.owner id = some tx
  · obtain ⟨owner, -, saved⟩ := h.landed id owned
    exact ⟨owner, saved⟩
  · have clean : s.owner id = none := by
      cases owner : s.owner id with
      | none => rfl
      | some v => exact absurd (mine v owner ▸ owner) owned
    obtain ⟨owner, -, saved⟩ := h.others id owned
    exact ⟨owner.trans clean, by rw [saved, coherent.content_of_clean clean]⟩

theorem OwnedBy.ne {v : TxId} (mine : s.OwnedBy id v) (other : v ≠ tx) : s.owner id ≠ some tx :=
  fun owner => other (mine tx owner).symm

theorem Completed.files_of_twins (h : Twins w s u) {b b' : PageId → Bytes}
    (first : s.Completed tx b s') (second : u.Completed tx b' u') (coherent : s.Coherent)
    (coherent' : u.Coherent) (name : String)
    (others : ∀ id ref, s.catalog.ref id = .ok ref → (s.catalog.table ref).pageSize ≠ 0 →
      (s.catalog.table ref).file ≠ name) : u'.disk.get? name = s'.disk.get? name := by
  -- only files of pages that the transaction owns are written
  have untouched : ∀ id ref, s.catalog.Has id → s.catalog.ref id.table = .ok ref →
      (s.catalog.table ref).file ≠ name := by
    rintro id ref ⟨ref', known', below⟩ known
    cases known.symm.trans known'
    exact others _ _ known (Nat.ne_of_gt (Table.pageSize_pos_of_lt below))
  have has : ∀ {s : Store}, s.Coherent → ∀ id, s.owner id = some tx → s.catalog.Has id := by
    intro s coherent id owner
    obtain ⟨page, cached, -⟩ := Option.bind_eq_some_iff.mp owner
    exact coherent.has id page cached
  rw [first.files name fun id ref owner => untouched id ref (has coherent id owner),
    second.files name, h.files name others]
  intro id ref owner known
  rw [h.catalog] at known ⊢
  exact untouched id ref (h.catalog ▸ has coherent' id owner) known

/-- After a commit there are no differences left in what the transaction has changed. -/
theorem Twins.committed (h : Twins w s u) (coherent : s.Coherent) (coherent' : u.Coherent)
    (first : s.Completed tx s.content s') (second : u.Completed tx u.content u')
    (others : ∀ id v, v ≠ tx → w id v → w' id v) : Twins w' s' u' := by
  have catalog : s'.catalog = s.catalog := by rw [first.rest]
  refine ⟨?_, fun id => ?_, fun name apart => ?_⟩
  · rw [first.view_of_commit, second.view_of_commit, h.view]
    exact congrArg (fun v : Plain => { s.view with locks := v.locks.releaseAll tx }) h.view
  · have alone : s.OwnedBy id tx → u.OwnedBy id tx →
        u'.owner id = s'.owner id ∧ u'.saved id = s'.saved id := by
      intro mine mine'
      obtain ⟨owner, saved⟩ := first.settled coherent mine
      obtain ⟨owner', saved'⟩ := second.settled coherent' mine'
      exact ⟨owner'.trans owner.symm, by rw [saved, saved', h.content]⟩
    rcases h.pages id with ⟨owner, saved⟩ | ⟨v, wrote, mine, mine'⟩
    · by_cases owned : s.owner id = some tx
      · refine Or.inl (alone ?_ ?_)
        · exact fun v owner => Option.some.inj (owner.symm.trans owned)
        · exact fun v there => Option.some.inj (there.symm.trans (owner.trans owned))
      · obtain ⟨first, -, kept⟩ := first.others id owned
        obtain ⟨second, -, kept'⟩ := second.others id (owner ▸ owned)
        exact Or.inl (by simp [first, second, owner, kept, kept', saved])
    · by_cases here : v = tx
      · subst here
        exact Or.inl (alone mine mine')
      · obtain ⟨owner, -, -⟩ := first.others id (mine.ne here)
        obtain ⟨owner', -, -⟩ := second.others id (mine'.ne here)
        refine Or.inr ⟨v, others id v here wrote, ?_, ?_⟩
        · simpa [OwnedBy, owner] using mine
        · simpa [OwnedBy, owner'] using mine'
  · exact first.files_of_twins h second coherent coherent' name (catalog ▸ apart)

/-- An abort takes both sides back to the same, if nothing was written through. -/
theorem Twins.aborted (h : Twins w s u) (coherent : s.Coherent) (coherent' : u.Coherent)
    (first : s.Completed tx s.saved s') (second : u.Completed tx u.saved u')
    (others : ∀ id v, w id v → v ≠ tx ∧ w' id v) : Twins w' s' u' := by
  have catalog : s'.catalog = s.catalog := by rw [first.rest]
  have same : ∀ id, (if u.owner id = some tx then u.saved id else u.content id) =
      if s.owner id = some tx then s.saved id else s.content id := by
    intro id
    rcases h.pages id with ⟨owner, saved⟩ | ⟨v, wrote, mine, mine'⟩
    · rw [owner, saved, h.content]
    · have other := (others id v wrote).1
      rw [if_neg (mine.ne other), if_neg (mine'.ne other), h.content]
  refine ⟨?_, fun id => ?_, fun name apart => ?_⟩
  · rw [first.view, second.view, h.view, funext same]
    exact congrArg (fun v : Plain => { s.view with
      locks := v.locks.releaseAll tx
      bytes := fun id => if s.owner id = some tx then s.saved id else s.content id }) h.view
  · rcases h.pages id with ⟨owner, saved⟩ | ⟨v, wrote, mine, mine'⟩
    · by_cases owned : s.owner id = some tx
      · obtain ⟨first, -, kept⟩ := first.landed id owned
        obtain ⟨second, -, kept'⟩ := second.landed id (owner.trans owned)
        exact Or.inl (by simp [first, second, kept, kept', saved])
      · obtain ⟨first, -, kept⟩ := first.others id owned
        obtain ⟨second, -, kept'⟩ := second.others id (owner ▸ owned)
        exact Or.inl (by simp [first, second, owner, kept, kept', saved])
    · obtain ⟨other, wrote⟩ := others id v wrote
      obtain ⟨owner, -, -⟩ := first.others id (mine.ne other)
      obtain ⟨owner', -, -⟩ := second.others id (mine'.ne other)
      refine Or.inr ⟨v, wrote, ?_, ?_⟩
      · simpa [OwnedBy, owner] using mine
      · simpa [OwnedBy, owner'] using mine'
  · exact first.files_of_twins h second coherent coherent' name (catalog ▸ apart)

/-! Bytes of files -/

/-- Pages that hold the same make up files that hold the same. -/
theorem Twins.toBytes_eq (h : Twins w s u) (coherent : s.Coherent) (coherent' : u.Coherent)
    (same : ∀ id, u.saved id = s.saved id) (name : String) :
    (u.disk.get? name).map File.toBytes = (s.disk.get? name).map File.toBytes := by
  by_cases table : ∃ id ref, s.catalog.ref id = .ok ref ∧ (s.catalog.table ref).pageSize ≠ 0 ∧
      (s.catalog.table ref).file = name
  · obtain ⟨id, ref, known, some, rfl⟩ := table
    have known' : u.catalog.ref id = .ok ref := h.catalog ▸ known
    obtain ⟨f, there, length⟩ := coherent.backed _ _ known
    obtain ⟨g, there', length'⟩ := coherent'.backed _ _ known'
    rw [h.catalog] at there' length'
    have bytes : ∀ i, g.byte i = f.byte i := by
      intro i
      have page := same ⟨id, i / (s.catalog.table ref).pageSize⟩
      rw [saved_of_ref known', saved_of_ref known, h.catalog, Table.bytes, Table.bytes, there, there']
        at page
      have inside : i % (s.catalog.table ref).pageSize < (s.catalog.table ref).pageSize :=
        Nat.mod_lt _ (Nat.pos_of_ne_zero some)
      have here := congrArg (fun b => Bytes.byte? b (i % (s.catalog.table ref).pageSize)) page
      simpa [File.byte?_span, inside, Nat.div_add_mod'] using here
    rw [there, there']
    simp only [Option.map_some, Option.some.injEq, File.toBytes, length, length']
    refine Bytes.eq_of_byte? fun i => ?_
    by_cases inside : i < (s.catalog.table ref).length
    · rw [File.byte?_span _ _ inside, File.byte?_span _ _ inside, bytes]
    · rw [Bytes.byte?_eq_none_iff.mpr, Bytes.byte?_eq_none_iff.mpr] <;> simp <;> omega
  · rw [h.files name fun id ref known some file => table ⟨id, ref, known, some, file⟩]

end HeapStore.Store
