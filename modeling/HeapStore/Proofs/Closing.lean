import HeapStore.Proofs.Guarding

/-! Commits and aborts. Both leave no page behind that the transaction has changed, so it can give
back its locks. A commit can not fail, and an abort fails only once all of its pages were handled. -/
namespace HeapStore.Store

variable {s s' t : Store} {id : PageId} {tx : TxId} {r : PageRef}

/-- An image gets clean. -/
theorem calm_of_clean (s : Store) (r : PageRef) (g : Page → Page) (same : ∀ p, (g p).id = p.id)
    (clean : ∀ p, (g p).dirtiedBy = none) : s.Calm { s with pool := s.pool.update r g } := by
  intro h
  have owner : ∀ id u, Store.owner { s with pool := s.pool.update r g } id = some u →
      s.owner id = some u := by
    intro id u now
    rw [Store.owner, h.pool.image?_update] at now
    split at now
    · rw [Option.bind_some, clean] at now
      cases now
    · exact now
  refine ⟨⟨h.pool.update r (same _), h.locks, h.keyed, fun id u now => h.owned id u (owner id u now),
    ?_⟩, fun _ _ _ held => held, owner, rfl, .refl _⟩
  intro id page cached
  dsimp only at cached
  rw [h.pool.image?_update] at cached
  split at cached
  · rename_i there
    exact h.known id _ (Pool.image?_eq_some_iff.mpr ⟨r, there, rfl⟩)
  · exact h.known id page cached

/-- A page leaves the pool. -/
theorem calm_of_remove (s : Store) (id : PageId) : s.Calm { s with pool := s.pool.remove id } := by
  intro h
  have image? : ∀ other page, (s.pool.remove id).image? other = some page →
      s.pool.image? other = some page := by
    intro other page there
    rw [h.pool.image?_remove] at there
    split at there
    · cases there
    · exact there
  have owner : ∀ other u, Store.owner { s with pool := s.pool.remove id } other = some u →
      s.owner other = some u := by
    intro other u now
    obtain ⟨page, there, dirty⟩ := Option.bind_eq_some_iff.mp now
    rw [Store.owner, image? other page there]
    exact dirty
  exact ⟨⟨h.pool.remove id, h.locks, h.keyed, fun other u now => h.owned other u (owner other u now),
    fun other page there => h.known other page (image? other page there)⟩, fun _ _ _ held => held,
    owner, rfl, .refl _⟩

/-- No other pages are cached than before, and those of these images are clean. -/
def Settled (rs : List PageRef) (p q : Pool) : Prop :=
  ∀ id r, q.resident? id = some r → p.resident? id = some r ∧ (r ∈ rs → (q.page r).dirtiedBy = none)

/-- What one step has made clean the steps after it leave so. -/
theorem Settled.cons {p : Pool} {rs : List PageRef} (first : Settled [r] p s.pool)
    (keeps : s.Keeps t) (later : Settled rs s.pool t.pool) : Settled (r :: rs) p t.pool := by
  intro id k there
  obtain ⟨before, clean⟩ := later id k there
  obtain ⟨start, clean'⟩ := first id k before
  refine ⟨start, fun listed => ?_⟩
  rcases List.mem_cons.mp listed with here | here
  · apply Option.eq_none_iff_forall_ne_some.mpr
    intro u dirty
    have was := keeps.owner id u (by rw [owner, Pool.image?, there]; exact dirty)
    rw [owner, Pool.image?, before, Option.map_some, Option.bind_some,
      clean' (List.mem_singleton.mpr here)] at was
    cases was
  · exact clean here

theorem writePage_ends (h : s.Guarded) (r : PageRef)
    (known : ∃ ref, s.catalog.ref (s.pool.page r).id.table = .ok ref) :
    (writePage r).Ends s fun answer s' => answer = .ok () ∧ s.Keeps s' ∧
      Settled [r] s.pool s'.pool ∧ (∀ id, s'.catalog.ref id = s.catalog.ref id) ∧
      ∀ k, (s'.pool.page k).id = (s.pool.page k).id := by
  obtain ⟨ref, known⟩ := known
  rw [ends_writePage, writable_of_known h.keyed known]
  have marked := calm_of_clean s r (·.mark none) (fun _ => rfl) (fun _ => rfl) h
  have written := calm_of_file { s with pool := s.pool.update r (·.mark none) } ref
    ((s.catalog.table ref).writeAt s.disk (s.pool.page r).id.number (s.pool.page r).bytes).1
    ((s.catalog.table ref).writeAt s.disk (s.pool.page r).id.number (s.pool.page r).bytes).2 rfl
    marked.guarded
  refine ⟨rfl, marked.trans written, fun id k there => ⟨there, fun listed => ?_⟩, fun _ => rfl,
    fun k => ?_⟩
  · cases List.mem_singleton.mp listed
    rw [page_update_mark (h.pool.lt_of_resident? there)]
    rfl
  · rw [Pool.page_update]
    split
    · rename_i here
      rw [here.1]
      rfl
    · rfl

theorem writePages_ends (h : s.Guarded) (rs : List PageRef)
    (known : ∀ r ∈ rs, ∃ ref, s.catalog.ref (s.pool.page r).id.table = .ok ref) :
    (writePages rs).Ends s fun answer s' => answer = .ok () ∧ s.Keeps s' ∧
      Settled rs s.pool s'.pool := by
  induction rs generalizing s with
  | nil => exact ⟨rfl, .refl h, fun id r there => ⟨there, fun never => by cases never⟩⟩
  | cons r rs ih =>
    unfold writePages
    rw [Action.ends_bind]
    refine (writePage_ends h r (known r (List.mem_cons_self ..))).mono ?_
    rintro answer t ⟨rfl, keeps, settled, refs, ids⟩
    rw [Action.andThen]
    refine (ih keeps.guarded fun k later => ?_).mono ?_
    · rw [refs, ids]
      exact known k (List.mem_cons_of_mem _ later)
    · rintro answer u ⟨rfl, keeps', settled'⟩
      exact ⟨rfl, keeps.trans keeps', settled.cons keeps' settled'⟩

/-- The bytes that a page has on disk, or why it has none. -/
def onDisk (s : Store) (id : PageId) : Except Stop Bytes :=
  match s.catalog.byId id.table with
  | .ok t => t.read s.disk id
  | .error c => .error (.ofCause c)

theorem readPage_eq (s : Store) (id : PageId) : readPage id s =
    match s.onDisk id with
    | .ok bytes => .ok bytes s
    | .error e => .error e s := by
  unfold onDisk
  simp only [readPage, table, Action.ofStop, bind, EStateM.bind, Action.get_eq]
  cases s.catalog.byId id.table with
  | error c => rfl
  | ok t =>
    simp only [Action.ofCause, pure, EStateM.pure]
    cases t.read s.disk id <;> rfl

theorem readPage_eq_ok_iff {bytes : Bytes} : readPage id s = .ok bytes s ↔ s.onDisk id = .ok bytes := by
  rw [readPage_eq]
  cases s.onDisk id <;> simp

theorem readPage_eq_error_iff {e : Stop} : readPage id s = .error e s ↔ s.onDisk id = .error e := by
  rw [readPage_eq]
  cases s.onDisk id <;> simp

theorem ends_restorePage (r : PageRef) (Q : Except Stop (Option Failure) → Store → Prop) :
    (restorePage r).Ends s Q ↔
      match Action.inside (.restoring (s.pool.page r).id) (s.onDisk (s.pool.page r).id) with
      | .ok bytes =>
        if bytes.size = (s.pool.page r).bytes.size then
          Q (.ok none) { s with pool := s.pool.update r fun p => { p with bytes, dirtiedBy := none } }
        else Q (.error .crashed) s
      | .error (.failed f) => Q (.ok (some f)) { s with pool := s.pool.remove (s.pool.page r).id }
      | .error .crashed => Q (.error .crashed) s := by
  unfold restorePage onDisk readPage
  simp only [Action.ends_bind, ends_page, Action.andThen, Action.ends_attempt, Action.ends_within,
    ends_table]
  cases s.catalog.byId (s.pool.page r).id.table with
  | error c => rfl
  | ok t =>
    simp only [Action.mapError_ok, Action.andThen, Action.ends_get, Action.ends_ofStop]
    cases t.read s.disk (s.pool.page r).id with
    | error e => cases e <;> rfl
    | ok bytes =>
      simp only [Action.inside, Action.attempted]
      split <;> rfl

theorem restorePage_ends (h : s.Guarded) (r : PageRef) :
    (restorePage r).Ends s fun answer s' => answer = .error .crashed ∨
      ∃ failed, answer = .ok failed ∧ s.Keeps s' ∧ Settled [r] s.pool s'.pool := by
  rw [ends_restorePage]
  split
  · split
    · rename_i bytes _ _
      refine Or.inr ⟨none, rfl, calm_of_clean s r _ (fun _ => rfl) (fun _ => rfl) h,
        fun id k there => ⟨there, fun listed => ?_⟩⟩
      cases List.mem_singleton.mp listed
      rw [Pool.page_update, if_pos ⟨rfl, h.pool.lt_of_resident? there⟩]
    · exact Or.inl rfl
  · rename_i f _
    refine Or.inr ⟨some f, rfl, calm_of_remove s _ h, fun id k there => ?_⟩
    dsimp only at there
    rw [h.pool.resident?_remove] at there
    split at there
    · cases there
    · rename_i ne
      refine ⟨there, fun listed => ?_⟩
      cases List.mem_singleton.mp listed
      exact absurd (h.pool.id_of_resident? there).symm ne
  · exact Or.inl rfl

theorem restorePages_ends (h : s.Guarded) (rs : List PageRef) :
    (restorePages rs).Ends s fun answer s' => answer = .error .crashed ∨
      ∃ failed, answer = .ok failed ∧ s.Keeps s' ∧ Settled rs s.pool s'.pool := by
  induction rs generalizing s with
  | nil => exact Or.inr ⟨none, rfl, .refl h, fun id r there => ⟨there, fun never => by cases never⟩⟩
  | cons r rs ih =>
    unfold restorePages
    rw [Action.ends_bind]
    refine (restorePage_ends h r).mono ?_
    rintro answer t (rfl | ⟨failed, rfl, keeps, settled⟩)
    · exact Or.inl rfl
    · rw [Action.andThen, Action.ends_bind]
      refine (ih keeps.guarded).mono ?_
      rintro answer u (rfl | ⟨failed', rfl, keeps', settled'⟩)
      · exact Or.inl rfl
      · exact Or.inr ⟨_, rfl, keeps.trans keeps', settled.cons keeps' settled'⟩

theorem mem_residents_iff {p : Pool} : r ∈ p.residents ↔ ∃ f, p.inFrame? f = some r := by
  simp only [Pool.residents, List.mem_filterMap, Array.mem_toList_iff, id, exists_eq_right,
    Array.mem_iff_getElem?, Pool.inFrame?, Array.getD_eq_getD_getElem?]
  constructor
  · rintro ⟨f, here⟩
    exact ⟨f, by rw [here]; rfl⟩
  · rintro ⟨f, here⟩
    refine ⟨f, ?_⟩
    cases at_f : p.frames[f]? with
    | none =>
      rw [at_f] at here
      cases here
    | some x =>
      rw [at_f] at here
      rw [← here]
      rfl

theorem mem_dirtiedBy_iff {p : Pool} :
    r ∈ p.dirtiedBy tx ↔ (∃ f, p.inFrame? f = some r) ∧ (p.page r).dirtiedBy = some tx := by
  rw [Pool.dirtiedBy, List.mem_filter, mem_residents_iff, decide_eq_true_eq]

theorem resident?_of_dirtiedBy (h : s.pool.Sound) (listed : r ∈ s.pool.dirtiedBy tx) :
    s.pool.resident? (s.pool.page r).id = some r := by
  obtain ⟨⟨f, here⟩, -⟩ := mem_dirtiedBy_iff.mp listed
  exact h.resident?_of_inFrame? here

/-- The images that a transaction has changed stand for the pages that it owns. -/
theorem dirtiedBy_iff_owner (h : s.pool.Sound) :
    (∃ r ∈ s.pool.dirtiedBy tx, s.pool.resident? id = some r) ↔ s.owner id = some tx := by
  rw [owner, Option.bind_eq_some_iff]
  constructor
  · rintro ⟨r, listed, there⟩
    exact ⟨_, Pool.image?_eq_some_iff.mpr ⟨r, there, rfl⟩, (mem_dirtiedBy_iff.mp listed).2⟩
  · rintro ⟨page, cached, mine⟩
    obtain ⟨r, there, rfl⟩ := Pool.image?_eq_some_iff.mp cached
    obtain ⟨f, here, -⟩ := h.resident?_eq_some_iff.mp there
    exact ⟨r, mem_dirtiedBy_iff.mpr ⟨⟨f, here⟩, mine⟩, there⟩

/-- Once its images are settled a transaction owns no page. -/
theorem Settled.disowned (settled : Settled (s.pool.dirtiedBy tx) s.pool t.pool) (h : s.Guarded)
    (keeps : s.Keeps t) (id : PageId) : t.owner id ≠ some tx := by
  intro dirty
  obtain ⟨page, cached, mine⟩ := Option.bind_eq_some_iff.mp dirty
  obtain ⟨r, there, rfl⟩ := Pool.image?_eq_some_iff.mp cached
  obtain ⟨before, clean⟩ := settled id r there
  have was := keeps.owner id tx dirty
  rw [owner, Pool.image?, before, Option.map_some, Option.bind_some] at was
  obtain ⟨f, here, -⟩ := h.pool.resident?_eq_some_iff.mp before
  rw [clean (mem_dirtiedBy_iff.mpr ⟨⟨f, here⟩, was⟩)] at mine
  cases mine

/-- A transaction has ended: it holds no locks and owns no page. -/
structure Ended (tx : TxId) (s s' : Store) : Prop where
  guarded : s'.Guarded
  locks : ∀ u id mode, u ≠ tx → s.locks.Held u id mode → s'.locks.Held u id mode
  released : ∀ id mode, ¬s'.locks.Held tx id mode
  owner : ∀ id u, s'.owner id = some u → u ≠ tx ∧ s.owner id = some u
  nextTx : s'.nextTx = s.nextTx
  catalog : s.catalog.Extends s'.catalog

theorem ended_of_settled (h : s.Guarded) (keeps : s.Keeps t)
    (settled : Settled (s.pool.dirtiedBy tx) s.pool t.pool) :
    s.Ended tx { t with locks := t.locks.releaseAll tx } := by
  have disowned := settled.disowned h keeps
  have others : ∀ id u, t.owner id = some u → u ≠ tx := by
    rintro id u owner rfl
    exact disowned id owner
  exact {
    guarded := ⟨keeps.guarded.pool, keeps.guarded.locks.releaseAll tx, keeps.guarded.keyed,
      fun id u owner => Locks.held_releaseAll.mpr ⟨keeps.guarded.owned id u owner, others id u owner⟩,
      keeps.guarded.known⟩
    locks := fun u id mode other held => Locks.held_releaseAll.mpr ⟨keeps.locks u id mode held, other⟩
    released := fun id mode held => (Locks.held_releaseAll.mp held).2 rfl
    owner := fun id u owner => ⟨others id u owner, keeps.owner id u owner⟩
    nextTx := keeps.nextTx
    catalog := keeps.catalog }

theorem flushDirtiedBy_ends (h : s.Guarded) (tx : TxId) :
    (flushDirtiedBy tx).Ends s fun answer t => answer = .ok () ∧ s.Keeps t ∧
      Settled (s.pool.dirtiedBy tx) s.pool t.pool := by
  unfold flushDirtiedBy
  rw [Action.ends_bind, Action.ends_get, Action.andThen]
  refine writePages_ends h _ fun r listed => ?_
  obtain ⟨f, here⟩ := (mem_dirtiedBy_iff.mp listed).1
  exact h.known _ _ (Pool.image?_eq_some_iff.mpr ⟨r, h.pool.resident?_of_inFrame? here, rfl⟩)

theorem restoreDirtiedBy_ends (h : s.Guarded) (tx : TxId) :
    (restoreDirtiedBy tx).Ends s fun answer t => answer = .error .crashed ∨ s.Keeps t ∧
      Settled (s.pool.dirtiedBy tx) s.pool t.pool := by
  unfold restoreDirtiedBy
  rw [Action.ends_bind, Action.ends_get, Action.andThen, Action.ends_bind]
  refine (restorePages_ends h _).mono ?_
  rintro answer t (rfl | ⟨failed, rfl, settled⟩)
  · exact Or.inl rfl
  · rw [Action.andThen]
    cases failed <;> exact Or.inr settled

/-- A commit can not fail. -/
theorem commit_ends (h : s.Guarded) (tx : TxId) :
    (commit tx).Ends s fun answer t => answer = .ok () ∧ s.Ended tx t := by
  unfold commit complete
  rw [Action.ends_bind, Action.ends_attempt]
  refine (flushDirtiedBy_ends h tx).mono ?_
  rintro answer t ⟨rfl, keeps, settled⟩
  exact ⟨rfl, ended_of_settled h keeps settled⟩

theorem abort_ends (h : s.Guarded) (tx : TxId) :
    (abort tx).Ends s fun answer t => answer = .error .crashed ∨ s.Ended tx t := by
  unfold abort complete
  rw [Action.ends_bind, Action.ends_attempt]
  refine (restoreDirtiedBy_ends h tx).mono ?_
  rintro answer t (rfl | ⟨keeps, settled⟩)
  · exact Or.inl rfl
  · have ended := ended_of_settled h keeps settled
    match answer with
    | .ok _ => exact Or.inr ended
    | .error .crashed => exact Or.inl rfl
    | .error (.failed f) => exact Or.inr ended

theorem drop_ends (h : s.Guarded) (tx : TxId) :
    (drop tx).Ends s fun answer t => answer = .error .crashed ∨ s.Ended tx t := by
  unfold drop
  rw [Action.ends_bind, Action.ends_attempt]
  refine (abort_ends h tx).mono ?_
  rintro answer t (rfl | ended)
  · exact Or.inl rfl
  · match answer with
    | .ok _ => exact Or.inr ended
    | .error .crashed => exact Or.inl rfl
    | .error (.failed f) => exact Or.inr ended

theorem quiet_flushAll : Quiet flushAll := by
  refine respects_of_guarded fun s h => ?_
  unfold flushAll
  rw [Action.ends_bind, Action.ends_get, Action.andThen]
  refine (writePages_ends h _ fun r listed => ?_).mono fun answer t done => Or.inr done.2.1
  obtain ⟨f, here⟩ := mem_residents_iff.mp (List.mem_filter.mp listed).1
  exact h.known _ _ (Pool.image?_eq_some_iff.mpr ⟨r, h.pool.resident?_of_inFrame? here, rfl⟩)

theorem quiet_flushPage (id : PageId) : Quiet (flushPage id) := by
  refine respects_of_guarded fun s h => ?_
  unfold flushPage
  rw [Action.ends_bind, Action.ends_get, Action.andThen]
  dsimp only
  split
  · rename_i f r found
    split
    · have there := Pool.cached?_eq_some found
      have known := h.known id _ (Pool.image?_eq_some_iff.mpr ⟨r, there, rfl⟩)
      rw [← h.pool.id_of_resident? there] at known
      exact (writePage_ends h r known).mono fun answer t done => Or.inr done.2.1
    · exact Or.inr (.refl h)
  · exact Or.inr (.refl h)

theorem quiet_discard (id : PageId) : Quiet (discard id) :=
  Action.respects_modify fun s => calm_of_remove s id

end HeapStore.Store
