import HeapStore.Id
import Std.Data.ExtTreeMap

/-! Finite maps from pages, ordered by page. -/
namespace HeapStore

namespace PageId

theorem cmp_eq_iff {p q : PageId} : p.cmp q = .eq ↔ p = q := by
  obtain ⟨a, b⟩ := p
  obtain ⟨c, d⟩ := q
  simp [cmp]

instance : Std.LawfulEqCmp cmp where
  compare_self := cmp_eq_iff.mpr rfl
  eq_of_compare := cmp_eq_iff.mp

instance : Std.TransCmp cmp :=
  inferInstanceAs (Std.TransCmp (compareLex (compareOn table) (compareOn number)))

end PageId

abbrev PageMap (β : Type) := Std.ExtTreeMap PageId β PageId.cmp

namespace PageMap
variable {β : Type}

theorem getElem?_insert (m : PageMap β) (k l : PageId) (v : β) :
    (m.insert k v)[l]? = if l = k then some v else m[l]? := by
  rw [Std.ExtTreeMap.getElem?_insert]
  simp only [PageId.cmp_eq_iff, @eq_comm _ l k]

theorem getElem?_erase (m : PageMap β) (k l : PageId) :
    (m.erase k)[l]? = if l = k then none else m[l]? := by
  rw [Std.ExtTreeMap.getElem?_erase]
  simp only [PageId.cmp_eq_iff, @eq_comm _ l k]

theorem getElem?_filterMap {γ : Type} (m : PageMap β) (f : PageId → β → Option γ) (k : PageId) :
    (m.filterMap f)[k]? = m[k]?.bind (f k) :=
  Std.ExtTreeMap.getElem?_filterMap'

end PageMap
end HeapStore
