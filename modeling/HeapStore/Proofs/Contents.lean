import HeapStore.Proofs.Closing
import HeapStore.Proofs.Filing
import HeapStore.Proofs.Naming

/-! What pages hold, wherever it is kept: the cached image if there is one, or else the bytes in the
table file. Look-ups in the pool, evictions and write-backs do not show in the contents. -/
namespace HeapStore

namespace Store

variable {s s' t : Store} {id other : PageId} {tx : TxId} {r : PageRef}

/-- The bytes of a page in its table file. -/
def saved (s : Store) (id : PageId) : Bytes :=
  match s.catalog.byId id.table with
  | .ok t => t.bytes s.disk id.number
  | .error _ => .empty

/-- The bytes that the next transaction to get a page finds there. -/
def content (s : Store) (id : PageId) : Bytes :=
  match s.pool.image? id with
  | some page => page.bytes
  | none => s.saved id

/-- Files, tables and cached pages go together: each table has a file of its own, by a name that it
can be found by, and knows how long that is, and a page that is cached and not dirty is the same on disk. -/
structure Coherent (s : Store) : Prop where
  guarded : s.Guarded
  capacity : s.pool.capacity = s.settings.poolPages
  apart : s.catalog.Apart
  backed : ∀ id ref, s.catalog.ref id = .ok ref → (s.catalog.table ref).Backed s.disk
  named : ∀ id ref, s.catalog.ref id = .ok ref → Disk.Nameable (s.catalog.table ref).file
  has : ∀ id page, s.pool.image? id = some page → s.catalog.Has id
  whole : ∀ id page, s.pool.image? id = some page → page.bytes.size = (s.saved id).size
  clean : ∀ id page, s.pool.image? id = some page → page.dirtiedBy = none → page.bytes = s.saved id

theorem image?_of_resident (there : s.pool.resident? id = some r) :
    s.pool.image? id = some (s.pool.page r) :=
  Pool.image?_eq_some_iff.mpr ⟨r, there, rfl⟩

theorem content_of_resident (there : s.pool.resident? id = some r) :
    s.content id = (s.pool.page r).bytes := by
  rw [content, image?_of_resident there]

theorem saved_of_ref {ref : TableRef} (known : s.catalog.ref id.table = .ok ref) :
    s.saved id = (s.catalog.table ref).bytes s.disk id.number := by
  simp only [saved, Catalog.byId, known, Except.map]

theorem size_saved {ref : TableRef} (known : s.catalog.ref id.table = .ok ref) :
    (s.saved id).size = (s.catalog.table ref).pageSize := by
  rw [saved_of_ref known, Table.size_bytes]

theorem Coherent.loadable_eq (h : s.Coherent) (id : PageId) : s.loadable id =
    match s.catalog.missing? id with
    | some e => .error e
    | none => .ok (s.saved id) := by
  unfold loadable Catalog.missing? saved Catalog.byId
  cases known : s.catalog.ref id.table with
  | error cause => rfl
  | ok ref =>
    simp only [Except.map]
    obtain ⟨-, key⟩ := h.guarded.keyed _ _ known
    rw [Table.read_eq (h.backed _ _ known) key.symm]
    cases (s.catalog.table ref).pageCount? with
    | none => rfl
    | some n =>
      dsimp only
      split <;> rfl

theorem Coherent.has_of_loadable (h : s.Coherent) {bytes : Bytes} (read : s.loadable id = .ok bytes) :
    s.catalog.Has id ∧ bytes = s.saved id := by
  rw [h.loadable_eq] at read
  cases missing : s.catalog.missing? id with
  | some e =>
    rw [missing] at read
    cases read
  | none =>
    rw [missing] at read
    cases read
    exact ⟨Catalog.missing?_eq_none_iff.mp missing, rfl⟩

theorem Coherent.onDisk_eq (h : s.Coherent) (has : s.catalog.Has id) :
    s.onDisk id = .ok (s.saved id) := by
  obtain ⟨ref, known, below⟩ := has
  obtain ⟨-, key⟩ := h.guarded.keyed _ _ known
  have some : (s.catalog.table ref).pageSize ≠ 0 := Nat.ne_of_gt (Table.pageSize_pos_of_lt below)
  simp only [onDisk, saved, Catalog.byId, known, Except.map]
  rw [Table.read_eq (h.backed _ _ known) key.symm, Table.pageCount?, if_neg some]
  exact if_neg (Nat.not_le_of_lt below)

theorem Coherent.content_of_clean (h : s.Coherent) (clean : s.owner id = none) :
    s.content id = s.saved id := by
  unfold content
  cases cached : s.pool.image? id with
  | none => rfl
  | some page =>
    rw [owner, cached] at clean
    exact h.clean id page cached clean

theorem Coherent.size_content (h : s.Coherent) (id : PageId) :
    (s.content id).size = (s.saved id).size := by
  unfold content
  cases cached : s.pool.image? id with
  | none => rfl
  | some page => exact h.whole id page cached

/-! Look-ups -/

theorem Recached.saved (recached : Recached s s') (id : PageId) : s'.saved id = s.saved id := by
  have disk : s'.disk = s.disk := by rw [recached.rest]
  have catalog : s'.catalog = s.catalog := by rw [recached.rest]
  simp only [Store.saved, disk, catalog]

theorem Recached.coherent (h : s.Coherent) (recached : Recached s s') : s'.Coherent := by
  have disk : s'.disk = s.disk := by rw [recached.rest]
  have catalog : s'.catalog = s.catalog := by rw [recached.rest]
  have saved := recached.saved
  have images : ∀ id page, s'.pool.image? id = some page → s.pool.image? id = some page ∨
      s.catalog.Has id ∧ page = ⟨id, s.saved id, none⟩ := by
    intro id page cached
    rcases recached.image? id with same | ⟨gone, -⟩ | ⟨-, bytes, read, now⟩
    · exact Or.inl (same ▸ cached)
    · rw [gone] at cached
      cases cached
    · obtain ⟨has, rfl⟩ := h.has_of_loadable read
      rw [now] at cached
      cases cached
      exact Or.inr ⟨has, rfl⟩
  have settings : s'.settings = s.settings := by rw [recached.rest]
  refine ⟨(recached.calm h.guarded).guarded, ?_, ?_, ?_, ?_, ?_, ?_, ?_⟩
  · rw [recached.capacity, h.capacity, settings]
  · rw [catalog]
    exact h.apart
  · rw [catalog, disk]
    exact h.backed
  · rw [catalog]
    exact h.named
  · intro id page cached
    rw [catalog]
    exact (images id page cached).elim (h.has id page) And.left
  · intro id page cached
    rw [saved]
    rcases images id page cached with before | ⟨-, rfl⟩
    · exact h.whole id page before
    · rfl
  · intro id page cached clean
    rw [saved]
    rcases images id page cached with before | ⟨-, rfl⟩
    · exact h.clean id page before clean
    · rfl

theorem Recached.content (h : s.Coherent) (recached : Recached s s') (id : PageId) :
    s'.content id = s.content id := by
  unfold Store.content
  rw [recached.saved]
  rcases recached.image? id with same | ⟨gone, page, was, clean⟩ | ⟨was, bytes, read, now⟩
  · rw [same]
  · rw [gone, was]
    refine (h.clean id page was ?_).symm
    exact Option.not_isSome_iff_eq_none.mp (by simpa [Page.isDirty] using clean)
  · rw [was, now]
    exact (h.has_of_loadable read).2

theorem Stands.bytes (h : s.Coherent) (stands : Stands s id r) :
    (s.pool.page r).bytes = s.content id := by
  unfold Store.content
  rcases stands.place with cached | ⟨uncached, bytes, read, image⟩
  · rw [Pool.image?, cached]
    rfl
  · rw [Pool.image?, uncached, image]
    exact (h.has_of_loadable read).2

theorem Stands.has (h : s.Coherent) (stands : Stands s id r) : s.catalog.Has id := by
  rcases stands.place with cached | ⟨-, bytes, read, -⟩
  · exact h.has id _ (Pool.image?_eq_some_iff.mpr ⟨r, cached, rfl⟩)
  · exact (h.has_of_loadable read).1

/-! Writing to table files -/

/-- What writing the bytes of one page to its table file makes of the bytes of all pages. -/
theorem saved_writeAt (h : s.Coherent) {ref : TableRef} (known : s.catalog.ref id.table = .ok ref)
    {bytes : Bytes} (whole : bytes.size = (s.catalog.table ref).pageSize) (pool : Pool)
    (other : PageId) :
    Store.saved { s with
      catalog := s.catalog.update ref ((s.catalog.table ref).writeAt s.disk id.number bytes).1
      disk := ((s.catalog.table ref).writeAt s.disk id.number bytes).2
      pool := pool } other = if other = id then bytes else s.saved other := by
  unfold Store.saved
  simp only [Catalog.byId, Catalog.ref_update]
  obtain ⟨valid, key⟩ := h.guarded.keyed _ _ known
  cases found : s.catalog.ref other.table with
  | error cause =>
    have ne : other ≠ id := by
      rintro rfl
      rw [known] at found
      cases found
    simp only [Except.map, if_neg ne]
  | ok ref' =>
    simp only [Except.map]
    rw [Catalog.table_update _ _ _ _ valid]
    obtain ⟨-, key'⟩ := h.guarded.keyed _ _ found
    by_cases same : ref' = ref
    · subst same
      have table : other.table = id.table := key'.symm.trans key
      rw [if_pos rfl, show ∀ d n, Table.bytes ((s.catalog.table ref').writeAt s.disk id.number bytes).1
        d n = (s.catalog.table ref').bytes d n from fun _ _ => rfl, Table.bytes_writeAt whole]
      by_cases here : other.number = id.number
      · have eq : other = id := by
          cases other
          cases id
          cases table
          cases here
          rfl
        rw [if_pos here, if_pos eq]
      · rw [if_neg here, if_neg (fun eq => here (congrArg PageId.number eq))]
    · rw [if_neg same, Table.bytes_writeAt_other]
      · rw [if_neg]
        rintro rfl
        rw [known] at found
        cases found
        exact same rfl
      · intro file
        have table := h.apart _ _ _ _ found known file
        rw [table, known] at found
        cases found
        exact same rfl

/-- A page that a table has can be written to its file. -/
theorem Coherent.writable_eq (h : s.Coherent) (has : s.catalog.Has id) {bytes : Bytes}
    (whole : bytes.size = (s.saved id).size) (owner : Option TxId) : ∃ disk,
    s.writable ⟨id, bytes, owner⟩ = .ok (s.catalog, disk) ∧
      (∀ id' ref, s.catalog.ref id' = .ok ref → (s.catalog.table ref).Backed disk) ∧
      (∀ name, (∀ ref, s.catalog.ref id.table = .ok ref → (s.catalog.table ref).file ≠ name) →
        disk.get? name = s.disk.get? name) ∧
      ∀ pool other, Store.saved { s with disk, pool } other =
        if other = id then bytes else s.saved other := by
  obtain ⟨ref, known, below⟩ := has
  rw [size_saved known] at whole
  have some : bytes.size ≠ 0 := by
    rw [whole]
    exact Nat.ne_of_gt (Table.pageSize_pos_of_lt below)
  have kept : s.catalog.update ref ((s.catalog.table ref).writeAt s.disk id.number bytes).1 =
      s.catalog := by
    rw [Table.writeAt_of_lt below whole, Catalog.update_table]
  refine ⟨((s.catalog.table ref).writeAt s.disk id.number bytes).2, ?_, ?_, ?_, ?_⟩
  · rw [writable_of_known h.guarded.keyed (p := ⟨id, bytes, owner⟩) known]
    exact congrArg (fun c => Except.ok (c, _)) kept
  · intro id' ref' known'
    by_cases same : ref' = ref
    · subst same
      have written := Table.backed_writeAt (n := id.number) (h.backed _ _ known) some
      rwa [Table.writeAt_of_lt below whole] at written
    · refine Table.backed_writeAt_other (h.backed _ _ known') fun file => ?_
      have table := h.apart _ _ _ _ known' known file
      rw [table, known] at known'
      cases known'
      exact same rfl
  · intro name others
    rw [Table.get?_writeAt, if_neg (others ref known).symm]
  · intro pool other
    have written := saved_writeAt h known whole pool other
    rwa [kept] at written

/-! Changes of pages -/

/-- A transaction has given a page new bytes. They are cached, or on disk if there was no room. -/
structure Rewritten (tx : TxId) (id : PageId) (bytes : Bytes) (s s' : Store) : Prop where
  coherent : s'.Coherent
  rest : s' = { s with disk := s'.disk, pool := s'.pool }
  content : ∀ other, s'.content other = if other = id then bytes else s.content other
  others : ∀ other ≠ id, s'.owner other = s.owner other ∧ s'.saved other = s.saved other
  kept : s'.owner id = some tx ∧ s'.saved id = s.saved id ∨
    s'.owner id = none ∧ s'.saved id = bytes ∧ s.pool.image? id = none ∧ s.pool.AllDirty
  files : ∀ name, (∀ ref, s.catalog.ref id.table = .ok ref → (s.catalog.table ref).file ≠ name) →
    s'.disk.get? name = s.disk.get? name
  disk : s'.owner id = some tx → s'.disk = s.disk
  has : s.catalog.Has id

/-- Some clean pages may be gone from a pool. -/
theorem owner_of_shed {q : Pool} (others : q.image? other = s.pool.image? other ∨
    q.image? other = none ∧ ∃ page, s.pool.image? other = some page ∧ page.isDirty = false) :
    (q.image? other).bind Page.dirtiedBy = s.owner other := by
  rcases others with same | ⟨gone, page, was, clean⟩
  · rw [same]
    rfl
  · rw [gone, owner_of_clean was clean]
    rfl

theorem Coherent.content_of_shed (h : s.Coherent) {q : Pool}
    (others : q.image? other = s.pool.image? other ∨
      q.image? other = none ∧ ∃ page, s.pool.image? other = some page ∧ page.isDirty = false)
    {disk : Disk} (same : Store.saved { s with disk, pool := q } other = s.saved other) :
    Store.content { s with disk, pool := q } other = s.content other := by
  rcases others with kept | ⟨gone, page, was, clean⟩
  · unfold content
    rw [same]
    dsimp only
    rw [kept]
  · rw [h.content_of_clean (owner_of_clean was clean)]
    unfold content
    rw [same]
    dsimp only
    rw [gone]

/-- Files, tables and cached pages go together after a change, under any locks that guard it. -/
theorem Coherent.of_changed (h : s.Coherent) (stands : Stands s id r) {bytes : Bytes}
    (whole : bytes.size = (s.saved id).size) (changed : Changed s id tx bytes (.ok ()) s') {locks : Locks}
    (guarded : Guarded { s' with locks }) : Coherent { s' with locks } := by
  have has := stands.has h
  cases changed with
  | @cached q sound capacity mine others =>
    have images : ∀ other page, q.image? other = some page →
        other = id ∧ page = ⟨id, bytes, some tx⟩ ∨ other ≠ id ∧ s.pool.image? other = some page := by
      intro other page cached
      by_cases here : other = id
      · rw [here, mine] at cached
        cases cached
        exact Or.inl ⟨here, rfl⟩
      · rcases others other here with same | ⟨gone, -⟩
        · exact Or.inr ⟨here, same ▸ cached⟩
        · rw [gone] at cached
          cases cached
    refine ⟨guarded, capacity.trans h.capacity, h.apart, h.backed, h.named, ?_, ?_, ?_⟩
    · intro other page cached
      rcases images other page cached with ⟨rfl, -⟩ | ⟨-, before⟩
      · exact has
      · exact h.has other page before
    · intro other page cached
      rcases images other page cached with ⟨rfl, rfl⟩ | ⟨-, before⟩
      · exact whole
      · exact h.whole other page before
    · intro other page cached clean
      rcases images other page cached with ⟨rfl, rfl⟩ | ⟨-, before⟩
      · cases clean
      · exact h.clean other page before clean
  | @through q catalog disk uncached full sound capacity gone others written =>
    obtain ⟨disk', writable, backed, -, saved⟩ := h.writable_eq has whole (some tx)
    rw [writable] at written
    cases written
    have images : ∀ other page, q.image? other = some page →
        other ≠ id ∧ s.pool.image? other = some page := by
      intro other page cached
      by_cases here : other = id
      · rw [here, gone] at cached
        cases cached
      · rcases others other here with same | ⟨shed, -⟩
        · exact ⟨here, same ▸ cached⟩
        · rw [shed] at cached
          cases cached
    refine ⟨guarded, capacity.trans h.capacity, h.apart, backed, h.named, ?_, ?_, ?_⟩
    · intro other page cached
      exact h.has other page (images other page cached).2
    · intro other page cached
      obtain ⟨ne, before⟩ := images other page cached
      exact (h.whole other page before).trans (congrArg ByteArray.size ((saved q other).trans (if_neg ne))).symm
    · intro other page cached clean
      obtain ⟨ne, before⟩ := images other page cached
      exact (h.clean other page before clean).trans ((saved q other).trans (if_neg ne)).symm

/-- Wherever the new bytes of a page went, they are what it holds now, and other pages hold what they held. -/
theorem Coherent.content_of_changed (h : s.Coherent) (has : s.catalog.Has id) {bytes : Bytes}
    (whole : bytes.size = (s.saved id).size) (changed : Changed s id tx bytes (.ok ()) s') (other : PageId) :
    s'.content other = if other = id then bytes else s.content other := by
  cases changed with
  | @cached q sound capacity mine others =>
    split
    · rename_i here
      rw [here]
      simp only [content, mine]
    · rename_i ne
      exact h.content_of_shed (others other ne) rfl
  | @through q catalog disk uncached full sound capacity gone others written =>
    obtain ⟨disk', writable, -, -, saved⟩ := h.writable_eq has whole (some tx)
    rw [writable] at written
    cases written
    split
    · rename_i here
      subst here
      have bytes := saved q other
      rw [if_pos rfl] at bytes
      unfold content
      rw [bytes]
      dsimp only
      rw [gone]
    · rename_i ne
      refine h.content_of_shed (others other ne) ?_
      rw [saved q other, if_neg ne]

theorem Coherent.rewritten (h : s.Coherent) (stands : Stands s id r)
    (held : s.locks.Held tx id .exclusive) {bytes : Bytes} (whole : bytes.size = (s.saved id).size)
    {answer : Except Stop Unit} (changed : Changed s id tx bytes answer s') :
    answer = .ok () ∧ s.Rewritten tx id bytes s' := by
  obtain ⟨rfl, alters⟩ := alters_of_changed h.guarded stands held changed
  have coherent : s'.Coherent := h.of_changed stands whole changed alters.guarded
  have has := stands.has h
  have content := h.content_of_changed has whole changed
  refine ⟨rfl, ?_⟩
  cases changed with
  | @cached q sound capacity mine others =>
    refine ⟨coherent, rfl, content, ?_, Or.inl ⟨?_, rfl⟩, fun _ _ => rfl, fun _ => rfl, has⟩
    · exact fun other ne => ⟨owner_of_shed (others other ne), rfl⟩
    · simp only [owner, mine]
      rfl
  | @through q catalog disk uncached full sound capacity gone others written =>
    obtain ⟨disk', writable, -, files, saved⟩ := h.writable_eq has whole (some tx)
    rw [writable] at written
    cases written
    refine ⟨coherent, rfl, content, ?_, Or.inr ⟨?_, ?_, uncached, full⟩, files, fun owner => ?_, has⟩
    · intro other ne
      refine ⟨owner_of_shed (others other ne), ?_⟩
      rw [saved q other, if_neg ne]
    · simp only [owner, gone]
      rfl
    · exact (saved q id).trans (if_pos rfl)
    · simp [Store.owner, gone] at owner

end Store
end HeapStore
