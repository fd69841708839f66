import HeapStore.Proofs.Growing
import HeapStore.Proofs.Marking
import HeapStore.Proofs.Opening

/-! What the pool is like whatever is asked of it. A lock that is given back before its transaction ends
leaves a changed page to others, so files, tables and cached pages may no longer go together under the
locks there are. They still do under those there should be. -/
namespace HeapStore

namespace Action

variable {α β : Type} {x : Action α} {f : α → Action β}

/-- An action that has nothing to do with locks ends in the same way under any, and leaves them. -/
def Blind (x : Action α) : Prop := ∀ s locks Q,
  x.Ends { s with locks } Q → x.Ends s fun r t => t.locks = s.locks ∧ Q r { t with locks }

theorem blind_bind (first : Blind x) (later : ∀ a, Blind (f a)) : Blind (x >>= f) := by
  intro s locks Q h
  rw [ends_bind] at h ⊢
  refine (first s locks _ h).mono ?_
  rintro (e | a) t ⟨kept, reached⟩
  · exact ⟨kept, reached⟩
  · rw [andThen]
    refine (later a t locks Q reached).mono ?_
    rintro r u ⟨kept', reached'⟩
    exact ⟨kept'.trans kept, reached'⟩

/-- What is looked up has nothing to do with locks. -/
theorem blind_get {g : Store → Action β} (same : ∀ s locks, g { s with locks } = g s)
    (later : ∀ s, Blind (g s)) : Blind (get >>= g) := by
  intro s locks Q h
  rw [ends_bind, ends_get, andThen] at h ⊢
  rw [same] at h
  exact later s s locks Q h

theorem blind_pure (a : α) : Blind (pure a : Action α) := fun _ _ _ h => ⟨rfl, h⟩

theorem blind_stop (e : Stop) : Blind (stop e : Action α) := fun _ _ _ h => ⟨rfl, h⟩

end Action

namespace Store
open HeapStore.Action

variable {s t u : Store} {id : PageId} {tx : TxId} {r : PageRef} {ref : TableRef} {number : Nat}
  {row : Row}

theorem blind_writePage (r : PageRef) : Blind (writePage r) := by
  intro s locks Q h
  rw [ends_writePage] at h ⊢
  have same : Store.writable { s with locks } (s.pool.page r) = s.writable (s.pool.page r) := rfl
  rw [same] at h
  cases written : s.writable (s.pool.page r) with
  | error e =>
    rw [written] at h
    exact ⟨rfl, h⟩
  | ok done =>
    rw [written] at h
    exact ⟨rfl, h⟩

theorem blind_writePages (rs : List PageRef) : Blind (writePages rs) := by
  induction rs with
  | nil => exact blind_pure ()
  | cons r rs ih => exact blind_bind (blind_writePage r) fun _ => ih

theorem blind_flushPage (id : PageId) : Blind (flushPage id) := by
  refine blind_get (fun _ _ => rfl) fun s => ?_
  dsimp only
  split
  · split
    · exact blind_writePage _
    · exact blind_pure ()
  · exact blind_pure ()

theorem blind_flushAll : Blind flushAll :=
  blind_get (fun _ _ => rfl) fun _ => blind_writePages _

theorem blind_flushDirtiedBy (tx : TxId) : Blind (flushDirtiedBy tx) :=
  blind_get (fun _ _ => rfl) fun _ => blind_writePages _

theorem blind_restorePage (r : PageRef) : Blind (restorePage r) := by
  intro s locks Q h
  rw [ends_restorePage] at h ⊢
  have same : onDisk { s with locks } (s.pool.page r).id = s.onDisk (s.pool.page r).id := rfl
  dsimp only at h
  rw [same] at h
  split
  · rename_i bytes found
    rw [found] at h
    dsimp only at h
    split
    · rename_i whole
      rw [if_pos whole] at h
      exact ⟨rfl, h⟩
    · rename_i partial'
      rw [if_neg partial'] at h
      exact ⟨rfl, h⟩
  · rename_i f found
    rw [found] at h
    exact ⟨rfl, h⟩
  · rename_i found
    rw [found] at h
    exact ⟨rfl, h⟩

theorem blind_restorePages (rs : List PageRef) : Blind (restorePages rs) := by
  induction rs with
  | nil => exact blind_pure none
  | cons r rs ih =>
    exact blind_bind (blind_restorePage r) fun _ => blind_bind ih fun _ => blind_pure _

theorem blind_restoreDirtiedBy (tx : TxId) : Blind (restoreDirtiedBy tx) := by
  refine blind_get (fun _ _ => rfl) fun _ => blind_bind (blind_restorePages _) fun failed => ?_
  cases failed with
  | none => exact blind_pure ()
  | some f => exact blind_stop _

/-- Every changed page is locked by whoever has changed it, and nothing else is locked. -/
def deserved (s : Store) : Locks where
  table := s.pool.frameOf.filterMap fun id _ => (s.owner id).map fun tx => { exclusive := [tx] }

theorem held_deserved (h : s.pool.Sound) {mode : LockMode} :
    s.deserved.Held tx id mode ↔ mode = .exclusive ∧ s.owner id = some tx := by
  have cached : s.owner id = some tx → s.pool.frameOf[id]? ≠ none := by
    intro owned none
    rw [h.frameOf_eq_none_iff, ← Pool.image?_eq_none_iff] at none
    rw [owner, none] at owned
    cases owned
  unfold Locks.Held Locks.holders deserved
  rw [PageMap.getElem?_filterMap]
  cases found : s.pool.frameOf[id]? with
  | none =>
    have unowned : ¬s.owner id = some tx := fun owned => cached owned found
    cases mode <;> simp [unowned]
  | some f =>
    cases s.owner id with
    | none => cases mode <;> simp
    | some u =>
      cases mode with
      | shared => simp
      | exclusive => simp [@eq_comm _ u tx]

/-- Under the locks that they deserve all changed pages are guarded. -/
theorem guarded_deserved (sound : s.pool.Sound) (keyed : s.catalog.Keyed)
    (known : ∀ id page, s.pool.image? id = some page → ∃ ref, s.catalog.ref id.table = .ok ref) :
    Guarded { s with locks := s.deserved } := by
  refine ⟨sound, fun tx u id mode exclusive held => ?_, keyed, fun id tx owned => ?_, known⟩
  · have mine := ((held_deserved sound).mp exclusive).2
    have theirs := ((held_deserved sound).mp held).2
    exact Option.some.inj (theirs.symm.trans mine)
  · exact (held_deserved sound).mpr ⟨rfl, owned⟩

/-- Files, tables and cached pages go together under some locks, and only frames in use are marked. -/
structure Pooled (s : Store) : Prop where
  coherent : ∃ locks, Coherent { s with locks }
  marked : s.pool.Marked

theorem pooled_new (settings : Settings) (disk : Disk) : (Store.new settings disk).Pooled :=
  ⟨⟨_, coherent_new settings disk⟩, Pool.marked_new _⟩

theorem Pooled.sound (h : s.Pooled) : s.pool.Sound := h.coherent.elim fun _ coherent => coherent.guarded.pool

theorem Pooled.keyed (h : s.Pooled) : s.catalog.Keyed :=
  h.coherent.elim fun _ coherent => coherent.guarded.keyed

theorem Pooled.withLocks (h : s.Pooled) (locks : Locks) : Pooled { s with locks } :=
  ⟨h.coherent, h.marked⟩

theorem Pooled.loadable_eq (h : s.Pooled) (id : PageId) : s.loadable id =
    match s.catalog.missing? id with
    | some e => .error e
    | none => .ok (s.saved id) := by
  obtain ⟨locks, coherent⟩ := h.coherent
  exact coherent.loadable_eq id

theorem Stands.withLocks (stands : s.Stands id r) (locks : Locks) : Stands { s with locks } id r :=
  ⟨stands.valid, stands.same, stands.place⟩

theorem Pooled.has_of_stands (h : s.Pooled) (stands : s.Stands id r) : s.catalog.Has id := by
  obtain ⟨locks, coherent⟩ := h.coherent
  have relocked := stands.withLocks locks
  have has := relocked.has coherent
  exact has

theorem Pooled.bytes_of_stands (h : s.Pooled) (stands : s.Stands id r) :
    (s.pool.page r).bytes = s.content id := by
  obtain ⟨locks, coherent⟩ := h.coherent
  have relocked := stands.withLocks locks
  have bytes := relocked.bytes coherent
  exact bytes

theorem Pooled.whole_of_stands (h : s.Pooled) (stands : s.Stands id r) {bytes : Bytes}
    (size : bytes.size = (s.pool.page r).bytes.size) : bytes.size = (s.saved id).size := by
  obtain ⟨locks, coherent⟩ := h.coherent
  have same : (s.content id).size = (s.saved id).size := coherent.size_content id
  rw [← same, ← h.bytes_of_stands stands]
  exact size

theorem Recached.withLocks (h : Recached s t) (locks : Locks) :
    Recached { s with locks } { t with locks } where
  rest := by rw [h.rest]
  sound := h.sound
  capacity := h.capacity
  image? := h.image?
  full := h.full

theorem Pooled.append (h : s.Pooled) {i : TableId} (known : s.catalog.ref i = .ok ref)
    (room : (s.catalog.table ref).Growable) : (s.appended ref).Pooled := by
  obtain ⟨locks, coherent⟩ := h.coherent
  exact ⟨⟨locks, coherent_append coherent known room⟩, h.marked⟩

/-- Pages were taken to what they are on disk, whatever the locks. Nothing else has changed. -/
structure Lands (may : (PageId → Prop) → (PageId → Bytes) → Prop) (s t : Store) : Prop where
  locks : t.locks = s.locks
  pooled : t.Pooled
  retains : s.pool.Retains t.pool
  landed : ∃ locks p b, may p b ∧ Landed p b { s with locks } { t with locks }

/-- Under the locks that there should be, what is done to the pages of a transaction or to all pages is
known. It is done in the same way under those there are. -/
theorem Pooled.lands {α : Type} {x : Action α} (h : s.Pooled) (blind : Blind x)
    (lasts : ∀ P, Pool.Lasting P → P s.pool → x.Ends s fun _ t => P t.pool) {Q : Except Stop α → Prop}
    {may : (PageId → Prop) → (PageId → Bytes) → Prop}
    (lands : ∀ locks, Coherent { s with locks } → x.Ends { s with locks } fun answer t =>
      Q answer ∧ ∃ p b, may p b ∧ Landed p b { s with locks } t) :
    x.Ends s fun answer t => Q answer ∧ s.Lands may t := by
  obtain ⟨locks, coherent⟩ := h.coherent
  have marks := lasts _ Pool.lasting_marked h.marked
  have retains := lasts _ (Pool.lasting_retains s.pool) (.refl s.pool)
  refine ((blind s locks _ (lands locks coherent)).and (marks.and retains)).mono ?_
  rintro answer t ⟨⟨kept, told, p, b, allowed, landed⟩, marked, retains⟩
  exact ⟨told, kept, ⟨⟨locks, landed.coherent⟩, marked⟩, retains, locks, p, b, allowed, landed⟩

theorem Lands.settings {may : (PageId → Prop) → (PageId → Bytes) → Prop} (lands : s.Lands may t) :
    t.settings = s.settings := by
  obtain ⟨locks, p, b, -, landed⟩ := lands.landed
  exact (congrArg Store.settings landed.rest :)

theorem Lands.catalog {may : (PageId → Prop) → (PageId → Bytes) → Prop} (lands : s.Lands may t) :
    t.catalog = s.catalog := by
  obtain ⟨locks, p, b, -, landed⟩ := lands.landed
  exact (congrArg Store.catalog landed.rest :)

theorem flushPage_lands_pooled (h : s.Pooled) (id : PageId) : (flushPage id).Ends s fun answer t =>
    answer = .ok () ∧ s.Lands (fun p b => (∀ other, p other → other = id) ∧ b = s.content) t := by
  refine h.lands (blind_flushPage id) (fun _ lasting holds => flushPage_lasts lasting holds id)
    fun locks coherent => ?_
  refine (flushPage_lands coherent id).mono ?_
  rintro answer t ⟨rfl, p, only, landed⟩
  exact ⟨rfl, p, _, ⟨only, rfl⟩, landed⟩

theorem flushAll_lands_pooled (h : s.Pooled) : flushAll.Ends s fun answer t =>
    answer = .ok () ∧ s.Lands (fun _ b => b = s.content) t := by
  refine h.lands blind_flushAll (fun _ lasting holds => writePages_lasts lasting holds _)
    fun locks coherent => ?_
  refine (flushAll_lands coherent).mono ?_
  rintro answer t ⟨rfl, landed⟩
  exact ⟨rfl, _, _, rfl, landed⟩

theorem flushDirtiedBy_lands_pooled (h : s.Pooled) (tx : TxId) : (flushDirtiedBy tx).Ends s fun answer t =>
    answer = .ok () ∧ s.Lands (fun p b => p = (fun id => s.owner id = some tx) ∧ b = s.content) t := by
  refine h.lands (blind_flushDirtiedBy tx) (fun _ lasting holds => writePages_lasts lasting holds _)
    fun locks coherent => ?_
  refine (flushDirtiedBy_lands coherent tx).mono ?_
  rintro answer t ⟨rfl, landed⟩
  exact ⟨rfl, _, _, ⟨rfl, rfl⟩, landed⟩

theorem restoreDirtiedBy_lands_pooled (h : s.Pooled) (tx : TxId) :
    (restoreDirtiedBy tx).Ends s fun answer t =>
      answer = .ok () ∧ s.Lands (fun p b => p = (fun id => s.owner id = some tx) ∧ b = s.saved) t := by
  refine h.lands (blind_restoreDirtiedBy tx) (fun _ lasting holds => restoreDirtiedBy_lasts lasting holds tx)
    fun locks coherent => ?_
  refine (restoreDirtiedBy_lands coherent tx).mono ?_
  rintro answer t ⟨rfl, landed, -⟩
  exact ⟨rfl, _, _, ⟨rfl, rfl⟩, landed⟩

theorem discard_lands_pooled (h : s.Pooled) (id : PageId) :
    s.Lands (fun p b => p = (· = id) ∧ b = s.saved) { s with pool := s.pool.remove id } := by
  obtain ⟨locks, coherent⟩ := h.coherent
  have landed := discard_lands coherent id
  exact ⟨rfl, ⟨⟨locks, landed.coherent⟩, h.marked.remove id⟩, Pool.retains_of_images (Pool.images_remove _ id),
    locks, _, _, ⟨rfl, rfl⟩, landed⟩

/-- The pages of a transaction that ends are taken to disk, or to what they are there, and its locks are
given back. -/
theorem complete_lands (h : s.Pooled) (tx : TxId) (commit : Bool) : (complete tx commit).Ends s fun answer t =>
    answer = .ok () ∧ ∃ u, s.Lands (fun p b => p = (fun id => s.owner id = some tx) ∧
      b = if commit then s.content else s.saved) u ∧ t = { u with locks := u.locks.releaseAll tx } := by
  have handled : Ends (if commit then flushDirtiedBy tx else restoreDirtiedBy tx) s fun answer t =>
      answer = .ok () ∧ s.Lands (fun p b => p = (fun id => s.owner id = some tx) ∧
        b = if commit then s.content else s.saved) t := by
    cases commit with
    | true => exact flushDirtiedBy_lands_pooled h tx
    | false => exact restoreDirtiedBy_lands_pooled h tx
  unfold complete
  rw [ends_bind, ends_attempt]
  refine handled.mono ?_
  rintro answer u ⟨rfl, lands⟩
  exact ⟨rfl, u, lands, rfl⟩

/-! Changing a page -/

/-- A change leaves the other pages in the pool, but for clean ones, and its own page belongs to whoever
has made it unless it was not cached before. -/
theorem Changed.parts {bytes : Bytes} (changed : Changed s id tx bytes (.ok ()) t) :
    t.pool.Sound ∧ t.settings = s.settings ∧ (t.owner id = some tx ∨ s.owner id = none) ∧
      ∀ other ≠ id, t.pool.image? other = s.pool.image? other ∨
        t.pool.image? other = none ∧ ∃ page, s.pool.image? other = some page ∧ page.isDirty = false := by
  cases changed with
  | cached sound capacity mine others =>
    refine ⟨sound, rfl, Or.inl ?_, others⟩
    rw [owner]
    dsimp only
    rw [mine]
    rfl
  | through uncached full sound capacity gone others written =>
    refine ⟨sound, rfl, Or.inr ?_, others⟩
    rw [owner, uncached]
    rfl

/-- A change of a page succeeds and has nothing to do with the tables and with locks. -/
theorem Pooled.change_is_blind (h : s.Pooled) (stands : s.Stands id r) {bytes : Bytes}
    (size : bytes.size = (s.pool.page r).bytes.size) {answer : Except Stop Unit}
    (changed : Changed s id tx bytes answer t) : answer = .ok () ∧ t.catalog = s.catalog ∧
      t.locks = s.locks ∧ ∀ locks, Changed { s with locks } id tx bytes answer { t with locks } := by
  obtain ⟨locks, coherent⟩ := h.coherent
  have whole := h.whole_of_stands stands size
  obtain ⟨disk, writable, -⟩ := coherent.writable_eq (h.has_of_stands stands) whole (some tx)
  cases changed with
  | cached sound capacity mine others => exact ⟨rfl, rfl, rfl, fun _ => .cached sound capacity mine others⟩
  | through uncached full sound capacity gone others written =>
    cases Except.ok.inj (writable.symm.trans written)
    exact ⟨rfl, rfl, rfl, fun _ => .through uncached full sound capacity gone others written⟩
  | refused unwritable => cases writable.symm.trans unwritable

/-- A page was changed by a transaction, which takes it over. The tables and the locks have no part in that. -/
structure Adjusts (tx : TxId) (s t : Store) : Prop where
  pooled : t.Pooled
  settings : t.settings = s.settings
  catalog : t.catalog = s.catalog
  locks : t.locks = s.locks
  owner : ∀ id u, s.owner id = some u → ∃ v, t.owner id = some v ∧ (v = u ∨ v = tx)
  retains : s.pool.Retains t.pool
  pins : ∀ id r, s.pool.Pins id r → t.pool.Pins id r

/-- A change keeps the pool as it should be, whoever else has changed the page before. -/
theorem Pooled.changed (h : s.Pooled) (stands : s.Stands id r) {bytes : Bytes}
    (size : bytes.size = (s.pool.page r).bytes.size) (changed : Changed s id tx bytes (.ok ()) t)
    (marked : t.pool.Marked) (retains : s.pool.Retains t.pool)
    (pins : ∀ id r, s.pool.Pins id r → t.pool.Pins id r) : s.Adjusts tx t := by
  obtain ⟨-, catalog, same, moved⟩ := h.change_is_blind stands size changed
  obtain ⟨locks, coherent⟩ := h.coherent
  have relocked := stands.withLocks locks
  have has := h.has_of_stands stands
  have whole := h.whole_of_stands stands size
  obtain ⟨sound, settings, mine, others⟩ := changed.parts
  have guarded : Guarded { t with locks := t.deserved } := by
    refine guarded_deserved sound (catalog ▸ h.keyed) fun other page cached => ?_
    rw [catalog]
    by_cases here : other = id
    · obtain ⟨ref, known, -⟩ := has
      exact ⟨ref, here ▸ known⟩
    · rcases others other here with same | ⟨gone, -⟩
      · exact coherent.guarded.known other page (same ▸ cached)
      · rw [gone] at cached
        cases cached
  refine ⟨⟨⟨_, coherent.of_changed relocked whole (moved locks) guarded⟩, marked⟩, settings, catalog,
    same, fun other u owned => ?_, retains, pins⟩
  by_cases here : other = id
  · subst here
    rcases mine with mine | none
    · exact ⟨tx, mine, Or.inr rfl⟩
    · rw [none] at owned
      cases owned
  · exact ⟨u, (owner_of_shed (others other here)).trans owned, Or.inl rfl⟩

theorem Pooled.content_of_changed (h : s.Pooled) (stands : s.Stands id r) {bytes : Bytes}
    (size : bytes.size = (s.pool.page r).bytes.size) (changed : Changed s id tx bytes (.ok ()) t)
    (other : PageId) : t.content other = if other = id then bytes else s.content other := by
  obtain ⟨-, -, -, moved⟩ := h.change_is_blind stands size changed
  have whole := h.whole_of_stands stands size
  have has := h.has_of_stands stands
  obtain ⟨locks, coherent⟩ := h.coherent
  have content := coherent.content_of_changed has whole (moved locks) other
  exact content

end Store
end HeapStore
