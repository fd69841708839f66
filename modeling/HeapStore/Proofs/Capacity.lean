import Mathlib.Algebra.Order.BigOperators.Group.List
import Mathlib.Algebra.Order.Group.Nat
import Mathlib.Data.List.Nodup
import Mathlib.Data.List.Perm.Subperm
import HeapStore.Proofs.Following

/-! A pool that has a frame for each page of each table never runs out of frames. -/
namespace HeapStore

namespace Catalog

variable {c c' : Catalog} {id : PageId}

/-- All pages of all tables. -/
def pageIds (c : Catalog) : List PageId := (List.range c.opened.size).flatMap fun ref =>
  (List.range (c.table ref).pages).map (PageId.mk (c.table ref).id)

theorem mem_pageIds_of_lists (lists : c.Lists id) : id ∈ c.pageIds := by
  obtain ⟨ref, table, below⟩ := lists
  refine List.mem_flatMap.mpr ⟨ref, List.mem_range.mpr (lt_of_pages below), ?_⟩
  refine List.mem_map.mpr ⟨id.number, List.mem_range.mpr below, ?_⟩
  rw [← table]

theorem length_pageIds_le (size : c'.opened.size = c.opened.size)
    (pages : ∀ ref, (c'.table ref).pages ≤ (c.table ref).pages) :
    c'.pageIds.length ≤ c.pageIds.length := by
  simp only [pageIds, List.length_flatMap, List.length_map, List.length_range, size]
  exact List.sum_le_sum fun ref _ => pages ref

end Catalog

namespace Store

variable {s : Store} {id : PageId}

theorem lists_of_has (h : s.Guarded) (has : s.catalog.Has id) : s.catalog.Lists id := by
  obtain ⟨ref, known, below⟩ := has
  exact ⟨ref, (h.keyed _ _ known).2.symm, below⟩

/-- The pages in the frames are all different. If every frame holds a dirty one there are no fewer dirty
pages than frames. -/
theorem Coherent.frames_le (h : s.Coherent) (full : s.pool.AllDirty) (ids : List PageId)
    (dirty : ∀ id tx, s.owner id = some tx → id ∈ ids) : s.settings.poolPages ≤ ids.length := by
  let cached (f : Nat) : PageId := (s.pool.page ((s.pool.inFrame? f).getD 0)).id
  have sound := h.guarded.pool
  have image : ∀ f < s.pool.capacity, s.pool.frameOf[cached f]? = some f ∧
      ∃ tx, s.owner (cached f) = some tx := by
    intro f below
    obtain ⟨r, here, dirty⟩ := full f below
    obtain ⟨tx, mine⟩ := Option.isSome_iff_exists.mp dirty
    have same : cached f = (s.pool.page r).id := by simp [cached, here]
    rw [same]
    refine ⟨(sound.index _ f).mpr ⟨r, here, rfl⟩, tx, ?_⟩
    rw [owner, image?_of_resident (sound.resident?_of_inFrame? here)]
    exact mine
  have once : ((List.range s.pool.capacity).map cached).Nodup := by
    refine List.Nodup.map_on (fun f below f' below' same => ?_) List.nodup_range
    have first := (image f (List.mem_range.mp below)).1
    rw [same, (image f' (List.mem_range.mp below')).1] at first
    exact (Option.some.inj first).symm
  have subset : (List.range s.pool.capacity).map cached ⊆ ids := by
    intro other listed
    obtain ⟨f, below, rfl⟩ := List.mem_map.mp listed
    obtain ⟨-, tx, mine⟩ := image f (List.mem_range.mp below)
    exact dirty _ tx mine
  have fits := (once.subperm subset).length_le
  rwa [List.length_map, List.length_range, h.capacity] at fits

theorem image?_of_owner {tx : TxId} (owned : s.owner id = some tx) : ∃ page, s.pool.image? id = some page := by
  obtain ⟨page, cached, -⟩ := Option.bind_eq_some_iff.mp owned
  exact ⟨page, cached⟩

/-- None of the dirty pages is one that is not cached. -/
theorem Coherent.not_allDirty (h : s.Coherent) (room : s.catalog.pageIds.length ≤ s.settings.poolPages)
    (lists : s.catalog.Lists id) (uncached : s.pool.image? id = none) : ¬s.pool.AllDirty := by
  intro full
  have listed := Catalog.mem_pageIds_of_lists lists
  have enough := h.frames_le full (s.catalog.pageIds.erase id) fun other tx owned => by
    obtain ⟨page, there⟩ := image?_of_owner owned
    refine (List.mem_erase_of_ne ?_).mpr
      (Catalog.mem_pageIds_of_lists (lists_of_has h.guarded (h.has _ page there)))
    rintro rfl
    rw [uncached] at there
    cases there
  have some := List.length_pos_of_mem listed
  rw [List.length_erase_of_mem listed] at enough
  omega

theorem Coherent.not_exhausted (h : s.Coherent) (room : s.catalog.pageIds.length ≤ s.settings.poolPages)
    (e : Stop) : ¬s.Exhausted e := by
  rintro ⟨-, full, id, lists, uncached⟩
  exact h.not_allDirty room lists uncached full

/-- With a frame for each page nothing is written through. -/
theorem Rewritten.pooled {t : Store} {tx : TxId} {bytes : Bytes} (rewritten : t.Rewritten tx id bytes s)
    (coherent : t.Coherent) (room : t.catalog.pageIds.length ≤ t.settings.poolPages) :
    s.owner id = some tx ∧ s.saved id = t.saved id :=
  rewritten.kept.resolve_right fun ⟨_, _, uncached, full⟩ =>
    coherent.not_allDirty room (lists_of_has coherent.guarded rewritten.has) uncached full

end Store
end HeapStore
