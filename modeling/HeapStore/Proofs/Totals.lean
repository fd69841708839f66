import HeapStore.Proofs.Reading

/-! What pages hold if those that a table does not have yet count as empty. Two stores with the same
tables can be compared by that even if one of them has more pages. -/
namespace HeapStore

namespace Catalog

variable {c c' c'' : Catalog} {id : PageId} {ref : TableRef} {bytes : PageId → Bytes}

/-- The same tables, which need not have the same number of pages. If pages can not be made, or not be
counted, then there are as many on both sides. -/
structure Kin (c c' : Catalog) : Prop where
  ref : ∀ id, c'.ref id = c.ref id
  size : c'.opened.size = c.opened.size
  table : ∀ ref, c'.table ref = { c.table ref with length := (c'.table ref).length }
  counted : ∀ ref, (c'.table ref).length = (c.table ref).length ∨
    (c.table ref).pageSize < Bytes.limit ∧ (c.table ref).length / (c.table ref).pageSize < UInt32.size ∧
      (c'.table ref).length / (c.table ref).pageSize < UInt32.size

theorem Kin.refl (c : Catalog) : c.Kin c := ⟨fun _ => rfl, rfl, fun _ => rfl, fun _ => Or.inl rfl⟩

theorem Kin.pageSize (h : c.Kin c') (ref : TableRef) :
    (c'.table ref).pageSize = (c.table ref).pageSize := by rw [h.table]

theorem Kin.key (h : c.Kin c') (ref : TableRef) : (c'.table ref).id = (c.table ref).id := by
  rw [h.table]

theorem Kin.layout (h : c.Kin c') (ref : TableRef) : (c'.table ref).layout = (c.table ref).layout := by
  rw [h.table]
  rfl

theorem Kin.schema (h : c.Kin c') (ref : TableRef) : (c'.table ref).schema = (c.table ref).schema := by
  rw [h.table]

theorem Kin.symm (h : c.Kin c') : c'.Kin c where
  ref id := (h.ref id).symm
  size := h.size.symm
  table ref := by rw [h.table ref]
  counted ref := by
    rw [h.pageSize]
    exact (h.counted ref).imp Eq.symm fun ⟨short, few, few'⟩ => ⟨short, few', few⟩

theorem Kin.trans (h : c.Kin c') (h' : c'.Kin c'') : c.Kin c'' where
  ref id := (h'.ref id).trans (h.ref id)
  size := h'.size.trans h.size
  table ref := by rw [h'.table ref, h.table ref]
  counted ref := by
    have second := h'.counted ref
    rw [h.pageSize] at second
    rcases h.counted ref with same | few <;> rcases second with same' | few'
    · exact Or.inl (same'.trans same)
    · exact Or.inr ⟨few'.1, same ▸ few'.2.1, few'.2.2⟩
    · exact Or.inr ⟨few.1, few.2.1, same' ▸ few.2.2⟩
    · exact Or.inr ⟨few.1, few.2.1, few'.2.2⟩

theorem Kin.keyed (h : c.Kin c') (keyed : c.Keyed) : c'.Keyed := by
  intro id ref known
  obtain ⟨valid, key⟩ := keyed id ref (h.ref id ▸ known)
  exact ⟨h.size ▸ valid, (h.key ref).trans key⟩

theorem blank_of_ref (known : c.ref id.table = .ok ref) :
    c.blank id = .zeros (c.table ref).pageSize := by
  simp [blank, byId, known, Except.map]

theorem Kin.blank (h : c.Kin c') (id : PageId) : c'.blank id = c.blank id := by
  cases known : c.ref id.table with
  | error e =>
    have known' := (h.ref id.table).trans known
    simp [Catalog.blank, byId, known, known', Except.map]
  | ok ref => rw [blank_of_ref known, blank_of_ref ((h.ref _).trans known), h.pageSize]

/-- Pages that are not there are empty. -/
def fill (c : Catalog) (bytes : PageId → Bytes) (id : PageId) : Bytes :=
  if c.missing? id = none then bytes id else c.blank id

theorem fill_of_has (has : c.Has id) : c.fill bytes id = bytes id := by
  simp [fill, missing?_eq_none_iff, has]

theorem fill_of_lacks (lacks : ¬c.Has id) : c.fill bytes id = c.blank id := by
  simp [fill, missing?_eq_none_iff, lacks]

theorem has_iff (known : c.ref id.table = .ok ref) : c.Has id ↔ id.number < (c.table ref).pages := by
  constructor
  · rintro ⟨ref', known', below⟩
    cases known.symm.trans known'
    exact below
  · exact fun below => ⟨ref, known, below⟩

end Catalog

namespace Plain

variable {v w : Plain} {ref : TableRef} {tx : TxId} {id p : PageId} {mode : LockMode}

def total (v : Plain) : PageId → Bytes := v.catalog.fill v.bytes

/-! Rows -/

/-- The rows on a page that holds these bytes. -/
def rowsOn (v : Plain) (ref : TableRef) (number : Nat) (bytes : Bytes) : List Row :=
  let t := v.catalog.table ref
  (t.layout.rows? t.schema ⟨t.id, number⟩ bytes).getD []

theorem rowsOn_zeros (v : Plain) (ref : TableRef) (number : Nat) :
    v.rowsOn ref number (.zeros (v.catalog.table ref).pageSize) = [] := by
  have none := Layout.rows?_zeros (v.catalog.table ref).layout (v.catalog.table ref).schema
    ⟨(v.catalog.table ref).id, number⟩
  change Layout.rows? _ _ _ (.zeros (v.catalog.table ref).pageSize) = _ at none
  simp [rowsOn, none]

theorem rowsOn_congr
    (table : w.catalog.table ref = { v.catalog.table ref with length := (w.catalog.table ref).length })
    (number : Nat) (bytes : Bytes) : w.rowsOn ref number bytes = v.rowsOn ref number bytes := by
  unfold rowsOn
  rw [table]
  rfl

/-- Pages that are not there have no rows, so it does not matter whether they are. -/
theorem rowsFrom_total (known : v.catalog.ref (v.catalog.table ref).id = .ok ref) (number : Nat) :
    v.rowsFrom ref number =
      v.rowsOn ref number (v.total ⟨(v.catalog.table ref).id, number⟩) ++ v.rowsFrom ref (number + 1) := by
  have has : v.catalog.Has ⟨(v.catalog.table ref).id, number⟩ ↔ _ := Catalog.has_iff known
  by_cases inside : number < (v.catalog.table ref).pages
  · rw [rowsFrom_of_lt inside, total, Catalog.fill_of_has (has.mpr inside)]
    rfl
  · rw [rowsFrom_of_le (Nat.le_of_not_lt inside), rowsFrom_of_le (by omega), total,
      Catalog.fill_of_lacks fun there => inside (has.mp there), Catalog.blank_of_ref known,
      rowsOn_zeros]
    rfl

theorem rowsFrom_congr (kin : v.catalog.Kin w.catalog)
    (known : v.catalog.ref (v.catalog.table ref).id = .ok ref) {first : Nat}
    (same : ∀ number ≥ first, w.total ⟨(v.catalog.table ref).id, number⟩ =
      v.total ⟨(v.catalog.table ref).id, number⟩) : w.rowsFrom ref first = v.rowsFrom ref first := by
  -- from the larger of the numbers of pages on there are no rows on either side
  generalize bound : max (v.catalog.table ref).pages (w.catalog.table ref).pages - first = n
  induction n generalizing first with
  | zero => rw [rowsFrom_of_le (by omega), rowsFrom_of_le (by omega)]
  | succ n ih =>
    have known' : w.catalog.ref (w.catalog.table ref).id = .ok ref := by rw [kin.key, kin.ref, known]
    rw [rowsFrom_total known, rowsFrom_total known', kin.key, same first (Nat.le_refl _),
      rowsOn_congr (kin.table ref), ih (fun number beyond => same number (by omega)) (by omega)]

theorem rowsFrom_blank (known : v.catalog.ref (v.catalog.table ref).id = .ok ref) {first : Nat}
    (empty : ∀ number ≥ first, v.total ⟨(v.catalog.table ref).id, number⟩ =
      .zeros (v.catalog.table ref).pageSize) : v.rowsFrom ref first = [] := by
  generalize bound : (v.catalog.table ref).pages - first = n
  induction n generalizing first with
  | zero => exact rowsFrom_of_le (by omega)
  | succ n ih =>
    rw [rowsFrom_total known, empty first (Nat.le_refl _), rowsOn_zeros,
      ih (fun number beyond => empty number (by omega)) (by omega), List.append_nil]

/-! Locks of one transaction -/

/-- No other transaction is in the way. -/
structure Sole (tx : TxId) (v : Plain) : Prop where
  patient : v.patient = true
  mine : ∀ u p mode, v.locks.Held u p mode → u = tx

theorem held_of_lock (locked : lock tx id mode v = .ok () w) :
    w.locks.Held tx id mode ∧ Locks.Grows tx v.locks w.locks := by
  obtain ⟨-, locks, granted, rfl⟩ := lock_eq_ok_iff.mp locked
  exact ⟨(Locks.held_of_acquire? granted).mpr (Or.inr ⟨rfl, rfl, rfl⟩), Locks.grows_of_acquire? granted⟩

theorem Sole.lock (h : Sole tx v) (id : PageId) (mode : LockMode) : ∃ locks,
    lock tx id mode v = .ok () { v with locks } ∧ Sole tx { v with locks } := by
  have granted : v.locks.acquire? id tx mode ≠ none := by
    intro denied
    obtain ⟨u, k, other, held, -⟩ := Locks.clash_of_denied denied
    exact other (h.mine u id k held)
  obtain ⟨locks, granted⟩ := Option.ne_none_iff_exists'.mp granted
  refine ⟨locks, lock_of_granted h.patient granted, h.patient, fun u p k held => ?_⟩
  rcases (Locks.held_of_acquire? granted).mp held with before | ⟨mine, -⟩
  · exact h.mine u p k before
  · exact mine

theorem Sole.getPage (h : Sole tx v) (has : v.catalog.Has id) (mode : LockMode) : ∃ locks,
    getPage tx id mode v = .ok (v.bytes id) { v with locks } ∧ Sole tx { v with locks } := by
  obtain ⟨locks, locked, sole⟩ := h.lock id mode
  exact ⟨locks, getPage_eq_ok_iff.mpr ⟨locked, has, rfl⟩, sole⟩

end Plain
end HeapStore
