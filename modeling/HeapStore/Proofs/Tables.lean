import HeapStore.Catalog

/-! The tables of a catalog under their ids. -/
namespace HeapStore.Catalog

variable {c : Catalog} {id : TableId} {ref : TableRef} {t : Table}

/-- An id leads to a table of that id. -/
def Keyed (c : Catalog) : Prop :=
  ∀ id ref, c.ref id = .ok ref → ref < c.opened.size ∧ (c.table ref).id = id

theorem keyed_empty : Keyed {} := by
  intro id ref found
  cases found

theorem eq_unknownTable {cause : Cause} (unknown : c.ref id = .error cause) : cause = .unknownTable id := by
  unfold ref entry at unknown
  split at unknown
  · cases unknown
  · cases unknown
    rfl

theorem eq_unknownTable_of_byId {cause : Cause} (unknown : c.byId id = .error cause) :
    cause = .unknownTable id := by
  unfold byId at unknown
  cases known : c.ref id with
  | ok ref =>
    rw [known] at unknown
    cases unknown
  | error cause' =>
    rw [known] at unknown
    cases unknown
    exact eq_unknownTable known

@[simp] theorem ref_update (c : Catalog) (ref : TableRef) (t : Table) (id : TableId) :
    (c.update ref t).ref id = c.ref id := rfl

@[simp] theorem opened_size_update (c : Catalog) (ref : TableRef) (t : Table) :
    (c.update ref t).opened.size = c.opened.size := by
  simp [update]

theorem table_update (c : Catalog) (ref k : TableRef) (t : Table) (valid : ref < c.opened.size) :
    (c.update ref t).table k = if k = ref then t else c.table k := by
  simp only [table, update, Array.getD_eq_getD_getElem?, Array.getElem?_setIfInBounds]
  by_cases here : k = ref
  · subst here
    simp [valid]
  · simp [here, Ne.symm here]

theorem Keyed.update (h : c.Keyed) (ref : TableRef) (same : t.id = (c.table ref).id) :
    (c.update ref t).Keyed := by
  intro id k found
  obtain ⟨below, key⟩ := h id k found
  refine ⟨by rwa [opened_size_update], ?_⟩
  by_cases valid : ref < c.opened.size
  · rw [table_update c ref k t valid]
    split
    · rename_i here
      rw [same, ← here, key]
    · exact key
  · have unchanged : c.update ref t = c := by
      simp [Catalog.update, Array.setIfInBounds, valid]
    rw [unchanged, key]

theorem ref_add (c : Catalog) (t : Table) (name primaryKey : String) (id : TableId) :
    (c.add t name primaryKey).ref id = if id = t.id then .ok c.opened.size else c.ref id := by
  by_cases mine : id = t.id
  · simp [ref, entry, add, Assoc.get?_insert, mine, Except.map]
  · simp [ref, entry, add, Assoc.get?_insert, mine]

theorem table_add (c : Catalog) (t : Table) (name primaryKey : String) (k : TableRef) :
    (c.add t name primaryKey).table k = if k = c.opened.size then t else c.table k := by
  simp only [table, add, Array.getD_eq_getD_getElem?, Array.getElem?_push]
  split <;> rfl

theorem Keyed.add (h : c.Keyed) (t : Table) (name primaryKey : String) :
    (c.add t name primaryKey).Keyed := by
  intro id k found
  have size : (c.add t name primaryKey).opened.size = c.opened.size + 1 := by simp [Catalog.add]
  rw [ref_add] at found
  rw [size, table_add]
  split at found
  · rename_i mine
    cases found
    exact ⟨Nat.lt_succ_self _, by rw [if_pos rfl, mine]⟩
  · obtain ⟨below, key⟩ := h id k found
    exact ⟨Nat.lt_succ_of_lt below, by rw [if_neg (Nat.ne_of_lt below), key]⟩

theorem byId_eq_ok_iff : c.byId id = .ok t ↔ ∃ ref, c.ref id = .ok ref ∧ c.table ref = t := by
  unfold byId
  cases c.ref id with
  | error e => simp [Except.map]
  | ok ref => simp [Except.map]

/-! Tables that stay apart -/

/-- No table is given up, and nothing about one changes but the length of its file. -/
structure Extends (c c' : Catalog) : Prop where
  size : c.opened.size ≤ c'.opened.size
  table : ∀ ref < c.opened.size, c'.table ref = { c.table ref with length := (c'.table ref).length }

theorem Extends.key {c c' : Catalog} (h : c.Extends c') {ref : TableRef} (valid : ref < c.opened.size) :
    (c'.table ref).id = (c.table ref).id := by
  rw [h.table ref valid]

theorem Extends.path {c c' : Catalog} (h : c.Extends c') {ref : TableRef} (valid : ref < c.opened.size) :
    (c'.table ref).file = (c.table ref).file := by
  rw [h.table ref valid]

theorem Extends.refl (c : Catalog) : c.Extends c :=
  ⟨Nat.le_refl _, fun _ _ => rfl⟩

theorem Extends.trans {c₁ c₂ c₃ : Catalog} (h : c₁.Extends c₂) (h' : c₂.Extends c₃) :
    c₁.Extends c₃ where
  size := Nat.le_trans h.size h'.size
  table ref valid := by
    rw [h'.table ref (Nat.lt_of_lt_of_le valid h.size), h.table ref valid]

theorem extends_update (ref : TableRef) (same : t = { c.table ref with length := t.length }) :
    c.Extends (c.update ref t) := by
  refine ⟨Nat.le_of_eq (opened_size_update c ref t).symm, fun k valid => ?_⟩
  by_cases here : k = ref
  · subst here
    rwa [table_update c k k t valid, if_pos rfl]
  · by_cases inside : ref < c.opened.size
    · rw [table_update c ref k t inside, if_neg here]
    · simp [Catalog.update, Array.setIfInBounds, inside, Catalog.table]

theorem extends_add (c : Catalog) (t : Table) (name primaryKey : String) :
    c.Extends (c.add t name primaryKey) := by
  refine ⟨by simp [add], fun k valid => ?_⟩
  rw [table_add, if_neg (Nat.ne_of_lt valid)]

/-- No two tables share an id or a file. -/
def Distinct (c : Catalog) : Prop := ∀ i < c.opened.size, ∀ j < c.opened.size,
  (c.table i).id = (c.table j).id ∨ (c.table i).file = (c.table j).file → i = j

instance (c : Catalog) : Decidable c.Distinct :=
  inferInstanceAs (Decidable (∀ i < c.opened.size, ∀ j < c.opened.size,
    (c.table i).id = (c.table j).id ∨ (c.table i).file = (c.table j).file → i = j))

/-- No two ids lead to tables that share a file. -/
def Apart (c : Catalog) : Prop := ∀ id id' ref ref', c.ref id = .ok ref → c.ref id' = .ok ref' →
  (c.table ref).file = (c.table ref').file → id = id'

theorem Distinct.apart (h : c.Distinct) (keyed : c.Keyed) : c.Apart := by
  intro id id' ref ref' known known' file
  obtain ⟨valid, key⟩ := keyed _ _ known
  obtain ⟨valid', key'⟩ := keyed _ _ known'
  rw [← key, ← key', h ref valid ref' valid' (Or.inr file)]

theorem Extends.distinct {c' : Catalog} (h : c.Extends c') (distinct : c'.Distinct) : c.Distinct := by
  intro i hi j hj same
  refine distinct i (Nat.lt_of_lt_of_le hi h.size) j (Nat.lt_of_lt_of_le hj h.size) ?_
  rwa [h.key hi, h.key hj, h.path hi, h.path hj]

end HeapStore.Catalog
