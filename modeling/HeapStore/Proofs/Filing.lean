import HeapStore.Proofs.Tables

/-! Pages as parts of table files: what a write changes in the file and in the files of others. -/
namespace HeapStore

namespace File

theorem span_write_same (f : File) (off : Nat) (new : Bytes) :
    (f.write off new).span off new.size = new := by
  apply Bytes.eq_of_byte?
  intro i
  by_cases inside : i < new.size
  · rw [byte?_span _ _ inside, byte_write, if_pos ⟨Nat.le_add_right off i, by omega⟩,
      Nat.add_sub_cancel_left]
    cases byte : new.byte? i with
    | some b => rfl
    | none => exact absurd (Bytes.byte?_eq_none_iff.mp byte) (by omega)
  · rw [Bytes.byte?_eq_none_iff.mpr (Nat.le_of_not_lt inside),
      Bytes.byte?_eq_none_iff.mpr (by rw [size_span]; exact Nat.le_of_not_lt inside)]

theorem span_write_apart (f : File) {off place n : Nat} {new : Bytes}
    (apart : place + n ≤ off ∨ off + new.size ≤ place) :
    (f.write off new).span place n = f.span place n := by
  apply Bytes.eq_of_byte?
  intro i
  by_cases inside : i < n
  · rw [byte?_span _ _ inside, byte?_span _ _ inside, byte_write, if_neg (by omega)]
  · rw [Bytes.byte?_eq_none_iff.mpr (by rw [size_span]; omega),
      Bytes.byte?_eq_none_iff.mpr (by rw [size_span]; omega)]

theorem length_write (f : File) (off : Nat) {new : Bytes} (some : new.size ≠ 0) :
    (f.write off new).length = max f.length (off + new.size) := by
  rw [write, if_neg some]

/-- Nothing was done to the file, or empty pages were put behind its last complete page, over what
was left there. -/
def Padded (pageSize : Nat) (f f' : File) : Prop :=
  f' = f ∨ 0 < pageSize ∧ ∃ pages, f.length / pageSize < pages ∧ f'.length = pages * pageSize ∧
    ∀ i < pages * pageSize, f'.byte i = if i < f.length / pageSize * pageSize then f.byte i else 0

/-- One empty page was put behind the last complete page of the file, over what was left there. -/
structure Lengthened (pageSize : Nat) (f f' : File) : Prop where
  length : f'.length = (f.length / pageSize + 1) * pageSize
  byte : ∀ i < (f.length / pageSize + 1) * pageSize,
    f'.byte i = if i < f.length / pageSize * pageSize then f.byte i else 0

theorem Lengthened.padded {pageSize : Nat} {f f' : File} (h : Lengthened pageSize f f')
    (some : 0 < pageSize) : Padded pageSize f f' :=
  Or.inr ⟨some, _, Nat.lt_succ_self _, h.length, h.byte⟩

theorem Padded.refl (pageSize : Nat) (f : File) : Padded pageSize f f := Or.inl rfl

theorem Padded.trans {pageSize : Nat} {f g h : File} (first : Padded pageSize f g)
    (second : Padded pageSize g h) : Padded pageSize f h := by
  rcases first with rfl | ⟨some, pages, more, length, bytes⟩
  · exact second
  · rcases second with rfl | ⟨-, pages', more', length', bytes'⟩
    · exact Or.inr ⟨some, pages, more, length, bytes⟩
    · rw [length, Nat.mul_div_cancel _ some] at more' bytes'
      refine Or.inr ⟨some, pages', Nat.lt_trans more more', length', fun i inside => ?_⟩
      rw [bytes' i inside]
      split
      · rename_i old
        exact bytes i old
      · rename_i new
        have beyond : f.length / pageSize * pageSize ≤ pages * pageSize :=
          Nat.mul_le_mul_right _ (Nat.le_of_lt more)
        rw [if_neg (Nat.not_lt_of_le (Nat.le_trans beyond (Nat.le_of_not_lt new)))]

end File

namespace Table

variable {t : Table} {d : Disk} {id : PageId} {n m : Nat} {new old : Bytes}

/-- The bytes at the place of page `n`, of which there may be none yet. -/
def bytes (t : Table) (d : Disk) (n : Nat) : Bytes :=
  ((d.get? t.file).getD {}).span (n * t.pageSize) t.pageSize

@[simp] theorem size_bytes (t : Table) (d : Disk) (n : Nat) : (t.bytes d n).size = t.pageSize :=
  File.size_span _ _ _

/-- The table knows how long its file is. -/
def Backed (t : Table) (d : Disk) : Prop := ∃ f, d.get? t.file = some f ∧ f.length = t.length

theorem pageSize_pos_of_lt (below : n < t.pages) : 0 < t.pageSize := by
  apply Nat.pos_of_ne_zero
  intro zero
  rw [pages, zero, Nat.div_zero] at below
  exact absurd below (by simp)

theorem pageSize_pos_of_slots (slots : t.layout.slots ≠ 0) : 0 < t.pageSize := by
  apply Nat.pos_of_ne_zero
  intro zero
  apply slots
  simp [layout, Layout.slots, Layout.ofSchema, zero]

theorem end_le_length (below : n < t.pages) : n * t.pageSize + t.pageSize ≤ t.length := by
  have complete : n + 1 ≤ t.length / t.pageSize :=
    Nat.lt_of_lt_of_le below (Nat.mod_le _ _)
  rw [Nat.le_div_iff_mul_le (pageSize_pos_of_lt below)] at complete
  rwa [← Nat.succ_mul]

theorem read_eq (backed : t.Backed d) (mine : id.table = t.id) : t.read d id =
    match t.pageCount? with
    | none => .error .crashed
    | some n => if n ≤ id.number then .error (.ofCause (.noSuchPage id))
      else .ok (t.bytes d id.number) := by
  obtain ⟨f, found, length⟩ := backed
  rw [read, if_neg (fun ne => ne mine)]
  unfold pageCount?
  by_cases empty : t.pageSize = 0
  · simp only [if_pos empty]
  · simp only [if_neg empty]
    by_cases beyond : t.pages ≤ id.number
    · simp only [if_pos beyond]
    · have inside := end_le_length (Nat.lt_of_not_le beyond)
      simp only [if_neg beyond, found, Option.bind_some, File.read?, length,
        if_pos inside, bytes, Option.getD_some]

/-- A page can be read if the table counts it among its pages and its file is that long. -/
theorem read_eq_ok_iff : t.read d id = .ok old ↔ id.table = t.id ∧ id.number < t.pages ∧
    ∃ f, d.get? t.file = some f ∧ id.number * t.pageSize + t.pageSize ≤ f.length ∧
      f.span (id.number * t.pageSize) t.pageSize = old := by
  unfold read pageCount? File.read?
  constructor
  · intro told
    split at told
    · cases told
    · rename_i mine
      split at told
      · cases told
      · rename_i counted
        split at counted
        · cases counted
        · cases counted
          split at told
          · cases told
          · rename_i inside
            split at told
            · rename_i found
              cases told
              obtain ⟨f, there, read⟩ := Option.bind_eq_some_iff.mp found
              split at read
              · rename_i long
                exact ⟨Decidable.of_not_not mine, Nat.lt_of_not_le inside, f, there, long,
                  Option.some.inj read⟩
              · cases read
            · cases told
  · rintro ⟨mine, inside, f, there, long, same⟩
    have some := Nat.ne_of_gt (pageSize_pos_of_lt inside)
    rw [if_neg (fun ne => ne mine), if_neg some]
    dsimp only
    rw [if_neg (Nat.not_le_of_lt inside), there, Option.bind_some, if_pos long, same]

theorem size_of_read (read : t.read d id = .ok old) : old.size = t.pageSize := by
  obtain ⟨-, -, f, -, -, rfl⟩ := read_eq_ok_iff.mp read
  exact File.size_span _ _ _

@[simp] theorem id_writeAt : (t.writeAt d n new).1.id = t.id := rfl

@[simp] theorem file_writeAt : (t.writeAt d n new).1.file = t.file := rfl

@[simp] theorem schema_writeAt : (t.writeAt d n new).1.schema = t.schema := rfl

@[simp] theorem pageSize_writeAt : (t.writeAt d n new).1.pageSize = t.pageSize := rfl

theorem get?_writeAt (t : Table) (d : Disk) (n : Nat) (new : Bytes) (name : String) :
    (t.writeAt d n new).2.get? name = if name = t.file then
      some (((d.get? t.file).getD {}).write (n * t.pageSize) new) else d.get? name :=
  Assoc.get?_insert _ _ _ _

theorem backed_writeAt (backed : t.Backed d) (some : new.size ≠ 0) :
    (t.writeAt d n new).1.Backed (t.writeAt d n new).2 := by
  obtain ⟨f, found, length⟩ := backed
  refine ⟨f.write (n * t.pageSize) new, ?_, ?_⟩
  · rw [get?_writeAt, file_writeAt, if_pos rfl, found, Option.getD_some]
  · rw [File.length_write f _ some, length]
    rfl

theorem backed_writeAt_other {u : Table} (backed : u.Backed d) (other : u.file ≠ t.file) :
    u.Backed (t.writeAt d n new).2 := by
  obtain ⟨f, found, length⟩ := backed
  exact ⟨f, by rw [get?_writeAt, if_neg other, found], length⟩

theorem writeAt_of_lt (below : n < t.pages) (whole : new.size = t.pageSize) :
    (t.writeAt d n new).1 = t := by
  have inside := end_le_length below
  simp only [writeAt, whole, Nat.max_eq_left inside]

theorem read_writeAt (read : t.read d id = .ok old) (whole : new.size = t.pageSize) :
    (t.writeAt d id.number new).1 = t ∧ t.read (t.writeAt d id.number new).2 id = .ok new := by
  obtain ⟨mine, inside, f, there, long, -⟩ := read_eq_ok_iff.mp read
  refine ⟨writeAt_of_lt inside whole, read_eq_ok_iff.mpr
    ⟨mine, inside, f.write (id.number * t.pageSize) new, ?_, ?_, ?_⟩⟩
  · rw [get?_writeAt, if_pos rfl, there, Option.getD_some]
  · rw [File.length_write f _ (by rw [whole]; exact Nat.ne_of_gt (pageSize_pos_of_lt inside))]
    exact Nat.le_trans long (Nat.le_max_left _ _)
  · rw [← whole, File.span_write_same]

theorem bytes_writeAt (whole : new.size = t.pageSize) (m : Nat) :
    t.bytes (t.writeAt d n new).2 m = if m = n then new else t.bytes d m := by
  unfold bytes
  rw [get?_writeAt, if_pos rfl, Option.getD_some]
  by_cases here : m = n
  · rw [if_pos here, here, ← whole, File.span_write_same]
  · rw [if_neg here]
    apply File.span_write_apart
    rw [whole, ← Nat.succ_mul, ← Nat.succ_mul]
    rcases Nat.lt_or_gt_of_ne here with before | after
    · exact Or.inl (Nat.mul_le_mul_right _ before)
    · exact Or.inr (Nat.mul_le_mul_right _ after)

theorem bytes_writeAt_other {u : Table} (other : u.file ≠ t.file) (m : Nat) :
    u.bytes (t.writeAt d n new).2 m = u.bytes d m := by
  unfold bytes
  rw [get?_writeAt, if_neg other]

/-- The table with one more page. -/
def extended (t : Table) : Table :=
  { t with length := max t.length (t.pages * t.pageSize + t.pageSize) }

theorem appendEmpty_fst (t : Table) (d : Disk) : (t.appendEmpty d).1 = t.extended := by
  simp [appendEmpty, writeAt, extended]

/-- Whether one more page can be made, and there is a number for it. -/
def Extendable (t : Table) : Prop :=
  t.pageSize < Bytes.limit ∧ t.length / t.pageSize + 1 < UInt32.size

instance (t : Table) : Decidable t.Extendable := inferInstanceAs (Decidable (_ ∧ _))

/-- Whether the table can have one more page. -/
def Growable (t : Table) : Prop := 0 < t.pageSize ∧ t.Extendable

theorem pages_of_growable (room : t.Growable) : t.pages = t.length / t.pageSize :=
  Nat.mod_eq_of_lt (Nat.lt_of_succ_lt room.2.2)

theorem length_extended (room : t.Growable) : t.extended.length = (t.pages + 1) * t.pageSize := by
  have below : t.length < (t.pages + 1) * t.pageSize := by
    rw [pages_of_growable room, Nat.mul_comm]
    exact Nat.lt_mul_div_succ t.length room.1
  rw [extended, ← Nat.succ_mul]
  exact Nat.max_eq_right (Nat.le_of_lt below)

theorem pages_extended (room : t.Growable) : t.extended.pages = t.pages + 1 := by
  have size : t.extended.pageSize = t.pageSize := rfl
  rw [pages, length_extended room, size, Nat.mul_div_cancel _ room.1]
  apply Nat.mod_eq_of_lt
  rw [pages_of_growable room]
  exact room.2.2

/-- The file of the table is padded. -/
def Padded (t : Table) (d d' : Disk) : Prop :=
  ∃ f f', d.get? t.file = some f ∧ d'.get? t.file = some f' ∧ f.Padded t.pageSize f'

theorem Backed.padded (backed : t.Backed d) {d' : Disk} (same : d'.get? t.file = d.get? t.file) :
    t.Padded d d' := by
  obtain ⟨f, there, -⟩ := backed
  exact ⟨f, f, there, same.trans there, .refl _ f⟩

theorem Padded.trans {d' d'' : Disk} (first : t.Padded d d') (second : t.Padded d' d'') :
    t.Padded d d'' := by
  obtain ⟨f, f', there, there', padded⟩ := first
  obtain ⟨_, f'', again, there'', padded'⟩ := second
  cases there'.symm.trans again
  exact ⟨f, f'', there, there'', padded.trans padded'⟩

theorem lengthened_append (backed : t.Backed d) (room : t.Growable) : ∃ f f', d.get? t.file = some f ∧
    (t.appendEmpty d).2.get? t.file = some f' ∧ f.Lengthened t.pageSize f' := by
  obtain ⟨f, there, length⟩ := backed
  have pages := pages_of_growable room
  have last := length_extended room
  have ends : (f.write (t.pages * t.pageSize) (.zeros t.pageSize)).length = _ :=
    File.length_write f _ (by simpa using Nat.ne_of_gt room.1)
  rw [Bytes.size_zeros, length] at ends
  rw [← length] at pages
  refine ⟨f, f.write (t.pages * t.pageSize) (.zeros t.pageSize), there, ?_, ?_, fun i inside => ?_⟩
  · rw [appendEmpty, get?_writeAt, if_pos rfl, there, Option.getD_some]
  · rw [← pages]
    exact ends.trans last
  · rw [← pages, Nat.succ_mul] at inside
    rw [File.byte_write, Bytes.size_zeros, ← pages]
    by_cases old : i < t.pages * t.pageSize
    · rw [if_neg (by omega), if_pos old]
    · rw [if_pos (by omega), if_neg old]
      simp [Bytes.zeros, show i - t.pages * t.pageSize < t.pageSize by omega]

theorem padded_append (backed : t.Backed d) (room : t.Growable) : t.Padded d (t.appendEmpty d).2 := by
  obtain ⟨f, f', there, there', lengthened⟩ := lengthened_append backed room
  exact ⟨f, f', there, there', lengthened.padded room.1⟩

/-- At the last page number adding a page leads nowhere. -/
theorem stuck_extended (some : 0 < t.pageSize) (short : t.pageSize < Bytes.limit) (stuck : ¬t.Growable) :
    ¬t.extended.Growable ∧ t.extended.pages ≤ t.pages := by
  have ends : t.extended.length = max t.length ((t.pages + 1) * t.pageSize) := by
    rw [extended, Nat.succ_mul]
  have size : t.extended.pageSize = t.pageSize := rfl
  have many : UInt32.size ≤ t.length / t.pageSize + 1 :=
    Nat.le_of_not_lt fun few => stuck ⟨some, short, few⟩
  have longer : t.length / t.pageSize ≤ t.extended.length / t.pageSize := by
    rw [ends]
    exact Nat.div_le_div_right (Nat.le_max_left _ _)
  refine ⟨fun room => ?_, ?_⟩
  · have := room.2.2
    rw [size] at this
    omega
  · rcases Nat.lt_or_ge (t.length / t.pageSize) UInt32.size with last | more
    · -- the page gets the last number, and the count starts over
      have count : t.length / t.pageSize + 1 = UInt32.size := Nat.le_antisymm last many
      have pages : t.pages = t.length / t.pageSize := Nat.mod_eq_of_lt last
      have full : (t.pages + 1) * t.pageSize = UInt32.size * t.pageSize := by rw [pages, count]
      have below : t.length < UInt32.size * t.pageSize := by
        have := Nat.lt_mul_div_succ t.length some
        rwa [count, Nat.mul_comm] at this
      have none : t.extended.pages = 0 := by
        rw [Table.pages, ends, full, Nat.max_eq_right (Nat.le_of_lt below), size,
          Nat.mul_div_cancel _ some, Nat.mod_self]
      rw [none]
      exact Nat.zero_le _
    · have few : t.pages < UInt32.size := Nat.mod_lt _ (by decide)
      have inside : (t.pages + 1) * t.pageSize ≤ t.length :=
        Nat.le_trans (Nat.mul_le_mul_right _ (Nat.le_trans few more))
          (Nat.div_mul_le_self _ _)
      have same : t.extended.pages = t.pages := by
        rw [Table.pages, ends, Nat.max_eq_left inside, size]
        rfl
      exact Nat.le_of_eq same

end Table

namespace Catalog

variable {c c' : Catalog} {id : PageId} {ref : TableRef}

/-- The table has this page. -/
def Has (c : Catalog) (id : PageId) : Prop :=
  ∃ ref, c.ref id.table = .ok ref ∧ id.number < (c.table ref).pages

/-- Some table, under its id or not, has this page. -/
def Lists (c : Catalog) (id : PageId) : Prop :=
  ∃ ref, id.table = (c.table ref).id ∧ id.number < (c.table ref).pages

/-- Only tables that were opened have pages. -/
theorem lt_of_pages {n : Nat} (below : n < (c.table ref).pages) : ref < c.opened.size := by
  apply Nat.lt_of_not_le
  intro beyond
  have none : c.table ref = default := by simp [Catalog.table, Array.getD_eq_getD_getElem?, beyond]
  rw [none] at below
  cases below

theorem Lists.add (there : c.Lists id) (t : Table) (name primaryKey : String) :
    (c.add t name primaryKey).Lists id := by
  obtain ⟨ref, mine, below⟩ := there
  have other : ref ≠ c.opened.size := Nat.ne_of_lt (lt_of_pages below)
  have same : (c.add t name primaryKey).table ref = c.table ref := by rw [table_add, if_neg other]
  exact ⟨ref, same ▸ mine, same ▸ below⟩

/-- Why a page can not be loaded. -/
def missing? (c : Catalog) (id : PageId) : Option Stop :=
  match c.byId id.table with
  | .error cause => some (.ofCause cause)
  | .ok t =>
    match t.pageCount? with
    | none => some .crashed
    | some n =>
      if n ≤ id.number then some (.failed ((Failure.ofCause (.noSuchPage id)).within (.loading id)))
      else none

theorem missing?_eq_none_iff : c.missing? id = none ↔ c.Has id := by
  unfold missing? Has byId
  cases c.ref id.table with
  | error cause => simp [Except.map]
  | ok ref =>
    simp only [Except.map, Table.pageCount?]
    by_cases empty : (c.table ref).pageSize = 0
    · rw [if_pos empty]
      constructor
      · intro never
        cases never
      · rintro ⟨_, same, below⟩
        cases same
        exact absurd (Table.pageSize_pos_of_lt below) (by omega)
    · rw [if_neg empty]
      dsimp only
      split
      · rename_i beyond
        constructor
        · intro never
          cases never
        · rintro ⟨_, same, below⟩
          cases same
          exact absurd below (Nat.not_lt_of_le beyond)
      · rename_i inside
        exact ⟨fun _ => ⟨ref, rfl, Nat.lt_of_not_le inside⟩, fun _ => rfl⟩

/-- A page of a table that holds nothing. -/
def blank (c : Catalog) (id : PageId) : Bytes :=
  match c.byId id.table with
  | .ok t => .zeros t.pageSize
  | .error _ => .empty

theorem update_table (c : Catalog) (ref : TableRef) : c.update ref (c.table ref) = c := by
  have same : c.opened.setIfInBounds ref (c.table ref) = c.opened := by
    apply Array.ext_getElem?
    intro i
    rw [Array.getElem?_setIfInBounds]
    split
    · rename_i here
      subst here
      split
      · rename_i valid
        rw [table, Array.getD_eq_getD_getElem?, Array.getElem?_eq_getElem valid, Option.getD_some]
      · rename_i beyond
        exact (Array.getElem?_eq_none (Nat.le_of_not_lt beyond)).symm
    · rfl
  rw [update, same]

/-- Pages may have been added to tables. -/
structure Grown (c c' : Catalog) : Prop where
  ref : ∀ id, c'.ref id = c.ref id
  size : c'.opened.size = c.opened.size
  table : ∀ ref, c'.table ref = { c.table ref with length := (c'.table ref).length }
  pages : ∀ ref, (c.table ref).pages ≤ (c'.table ref).pages

theorem Grown.refl (c : Catalog) : c.Grown c := ⟨fun _ => rfl, rfl, fun _ => rfl, fun _ => Nat.le_refl _⟩

theorem Grown.trans {c'' : Catalog} (h : c.Grown c') (h' : c'.Grown c'') : c.Grown c'' where
  ref id := (h'.ref id).trans (h.ref id)
  size := h'.size.trans h.size
  table ref := by rw [h'.table ref, h.table ref]
  pages ref := Nat.le_trans (h.pages ref) (h'.pages ref)

theorem Grown.has (h : c.Grown c') (there : c.Has id) : c'.Has id := by
  obtain ⟨ref, known, below⟩ := there
  exact ⟨ref, (h.ref _).trans known, Nat.lt_of_lt_of_le below (h.pages ref)⟩

theorem Grown.lists (h : c.Grown c') (there : c.Lists id) : c'.Lists id := by
  obtain ⟨ref, mine, below⟩ := there
  exact ⟨ref, by rw [h.table ref]; exact mine, Nat.lt_of_lt_of_le below (h.pages ref)⟩

theorem Grown.blank (h : c.Grown c') (id : PageId) : c'.blank id = c.blank id := by
  unfold Catalog.blank byId
  rw [h.ref]
  cases c.ref id.table with
  | error cause => rfl
  | ok ref =>
    simp only [Except.map]
    rw [h.table ref]

/-- The catalog with one more page in a table. -/
def extended (c : Catalog) (ref : TableRef) : Catalog := c.update ref (c.table ref).extended

theorem table_extended (valid : ref < c.opened.size) (k : TableRef) :
    (c.extended ref).table k = if k = ref then (c.table ref).extended else c.table k :=
  table_update _ _ _ _ valid

theorem grown_extended (valid : ref < c.opened.size) (room : (c.table ref).Growable) :
    c.Grown (c.extended ref) := by
  refine ⟨fun _ => rfl, opened_size_update _ _ _, fun k => ?_, fun k => ?_⟩
  · rw [table_extended valid]
    split
    · rename_i here
      rw [here]
      rfl
    · rfl
  · rw [table_extended valid]
    split
    · rename_i here
      rw [here, Table.pages_extended room]
      exact Nat.le_succ _
    · exact Nat.le_refl _

/-- The page that is added, and no other one, is new. -/
theorem has_extended (keyed : c.Keyed) {tableId : TableId} (known : c.ref tableId = .ok ref)
    (room : (c.table ref).Growable) :
    (c.extended ref).Has id ↔ c.Has id ∨ id = ⟨(c.table ref).id, (c.table ref).pages⟩ := by
  obtain ⟨valid, key⟩ := keyed _ _ known
  constructor
  · rintro ⟨k, known', below⟩
    change c.ref id.table = .ok k at known'
    rw [table_extended valid] at below
    split at below
    · rename_i here
      rw [Table.pages_extended room] at below
      rcases Nat.lt_or_eq_of_le (Nat.le_of_lt_succ below) with old | new
      · exact Or.inl ⟨k, known', by rwa [here]⟩
      · obtain ⟨-, key'⟩ := keyed _ _ known'
        rw [here] at key'
        cases id
        cases key'
        cases new
        exact Or.inr rfl
    · exact Or.inl ⟨k, known', below⟩
  · rintro (has | rfl)
    · exact (grown_extended valid room).has has
    · refine ⟨ref, ?_, ?_⟩
      · change c.ref (c.table ref).id = .ok ref
        rw [key, known]
      · rw [table_extended valid, if_pos rfl, Table.pages_extended room]
        exact Nat.lt_succ_self _

end Catalog

end HeapStore
