import HeapStore.Value

/-! Reading field by field. Where a field is in its cell follows from the types of the fields before it, and
what it reads as from its own bytes (`Value.ofField`). A text takes all its bytes whatever its length says, so
damage to a field shows in no other. -/
namespace HeapStore

namespace Bytes

variable {b new : Bytes} {off n i m : Nat}

theorem slice?_eq_some_iff : b.slice? off n = some new ↔
    off + n ≤ b.size ∧ new.size = n ∧ ∀ i < n, b.byte? (off + i) = new.byte? i := by
  by_cases room : off + n ≤ b.size
  · rw [slice?, if_pos room]
    constructor
    · intro cut
      cases cut
      refine ⟨room, ?_, fun i below => ?_⟩
      · rw [ByteArray.size_extract]
        omega
      · rw [byte?_extract, if_pos (by omega)]
    · rintro ⟨-, rfl, same⟩
      refine congrArg some (eq_of_byte? fun i => ?_)
      rw [byte?_extract]
      split
      · exact same i (by omega)
      · exact (byte?_eq_none_iff.mpr (by omega)).symm
  · simp [slice?, room]

theorem exists_slice? (room : off + n ≤ b.size) : ∃ new, b.slice? off n = some new := ⟨_, if_pos room⟩

@[simp] theorem slice?_self (b : Bytes) : b.slice? 0 b.size = some b := by
  refine slice?_eq_some_iff.mpr ⟨Nat.le_of_eq (Nat.zero_add _), rfl, fun i _ => ?_⟩
  rw [Nat.zero_add]

theorem extract_of_slice? {front : Bytes} (long : b.slice? off n = some new)
    (short : b.slice? off m = some front) (le : m ≤ n) : new.extract 0 m = front := by
  obtain ⟨-, size, same⟩ := slice?_eq_some_iff.mp long
  obtain ⟨-, size', same'⟩ := slice?_eq_some_iff.mp short
  refine eq_of_byte? fun i => ?_
  rw [byte?_extract]
  split
  · rw [Nat.zero_add, ← same i (by omega), same' i (by omega)]
  · exact (byte?_eq_none_iff.mpr (by omega)).symm

/-- What is read from a place depends on the bytes there only. -/
theorem slice?_congr {a : Bytes} (size : a.size = b.size)
    (same : ∀ i, off ≤ i → i < off + n → a.byte? i = b.byte? i) : a.slice? off n = b.slice? off n := by
  unfold slice?
  rw [size]
  split
  · refine congrArg some (eq_of_byte? fun i => ?_)
    rw [byte?_extract, byte?_extract, size]
    split
    · exact same _ (by omega) (by omega)
    · rfl
  · rfl

theorem slice?_of_slice? (cut : b.slice? off n = some new) (inside : i + m ≤ n) :
    b.slice? (off + i) m = some (new.extract i (i + m)) := by
  obtain ⟨room, size, same⟩ := slice?_eq_some_iff.mp cut
  refine slice?_eq_some_iff.mpr ⟨by omega, ?_, fun j below => ?_⟩
  · rw [ByteArray.size_extract]
    omega
  · rw [byte?_extract, if_pos (by omega), ← same (i + j) (by omega), Nat.add_assoc]

end Bytes

namespace Reader

variable {b new : Bytes} {position n : Nat}

theorem take?_of_slice? (cut : b.slice? position n = some new) :
    (Reader.mk b position).take? n = some (new, ⟨b, position + n⟩) := by
  rw [take?, cut]
  rfl

theorem u32?_of_slice? (cut : b.slice? position 4 = some new) :
    (Reader.mk b position).u32? = some (new.toUInt32, ⟨b, position + 4⟩) := by
  rw [u32?, take?_of_slice? cut]
  rfl

end Reader

namespace Value

variable {b field : Bytes} {position i : Nat} {t : FieldType} {ts : List FieldType} {vs : List Value}
  {r r' : Reader}

/-- What the bytes of a field stand for. -/
def ofField : FieldType → Bytes → Value
  | .boolean, field => boolean (field.byte? 0 = some 1)
  | .integer, field => integer field.toUInt32.toInt32
  | .text, field =>
    let length := (Bytes.toUInt32 (field.extract 0 4)).toNat
    text (.ofList (Utf8.decode ((field.extract 4 (4 + textLimit)).extract 0 length).data.toList))

/-- A field is read from its own bytes, and the next one is read from behind it. -/
theorem read?_of_slice? (cut : b.slice? position t.width = some field) :
    read? ⟨b, position⟩ t = some (ofField t field, ⟨b, position + t.width⟩) := by
  cases t with
  | boolean =>
    obtain ⟨room, size, same⟩ := Bytes.slice?_eq_some_iff.mp cut
    have room : position < b.size := room
    have byte : b.byte? position = some b[position] := dif_pos room
    have first : field.byte? 0 = some b[position] := (same 0 Nat.one_pos).symm.trans byte
    simp only [read?, Reader.u8?, byte, ofField, first, Option.some.injEq]
    rfl
  | integer =>
    simp only [read?, Reader.i32?, Reader.u32?_of_slice? cut]
    rfl
  | text =>
    have length := Bytes.slice?_of_slice? cut (i := 0) (m := 4) (by decide)
    have chars := Bytes.slice?_of_slice? cut (i := 4) (m := textLimit) (Nat.le_refl _)
    rw [Nat.add_zero] at length
    simp only [read?, Reader.u32?_of_slice? length, Option.bind_eq_bind, Option.bind_some,
      Reader.take?_of_slice? chars, ofField, FieldType.width, Nat.add_assoc]
    rfl

/-- The bytes that fields of these types take. -/
def span (ts : List FieldType) : Nat := (ts.map FieldType.width).foldr (· + ·) 0

theorem span_cons (t : FieldType) (ts : List FieldType) : span (t :: ts) = t.width + span ts := rfl

/-- Where there is room for the fields there are values to read, each from the bytes of its own field. -/
theorem readAll?_of_le (ts : List FieldType) (room : position + span ts ≤ b.size) :
    ∃ vs, readAll? ⟨b, position⟩ ts = some (vs, ⟨b, position + span ts⟩) ∧
      ∀ i t, ts[i]? = some t → ∃ field,
        b.slice? (position + span (ts.take i)) t.width = some field ∧ vs[i]? = some (ofField t field) := by
  induction ts generalizing position with
  | nil => exact ⟨[], rfl, fun i t never => by cases never⟩
  | cons t ts ih =>
    rw [span_cons] at room
    obtain ⟨field, cut⟩ := Bytes.exists_slice? (b := b) (show position + t.width ≤ b.size by omega)
    have left : position + t.width + span ts ≤ b.size := by omega
    obtain ⟨vs, rest, each⟩ := ih left
    refine ⟨ofField t field :: vs, ?_, fun i u there => ?_⟩
    · simp only [readAll?, read?_of_slice? cut, Option.bind_eq_bind, Option.bind_some, rest, Nat.add_assoc]
      rfl
    · cases i with
      | zero =>
        cases there
        exact ⟨field, cut, rfl⟩
      | succ i =>
        obtain ⟨field', cut', told⟩ := each i u there
        refine ⟨field', ?_, told⟩
        rw [← cut', Nat.add_assoc]
        rfl

theorem types_readAll? (told : readAll? r ts = some (vs, r')) : vs.map type = ts := by
  induction ts generalizing r vs with
  | nil =>
    cases told
    rfl
  | cons t ts ih =>
    simp only [readAll?, Option.bind_eq_bind, Option.bind_eq_some_iff] at told
    obtain ⟨⟨v, x⟩, first, ⟨us, y⟩, rest, same⟩ := told
    cases same
    rw [List.map_cons, ih rest]
    congr
    cases t <;>
    · simp only [read?, Option.bind_eq_bind, Option.bind_eq_some_iff] at first
      grind [type]

end Value

/-- The byte of its cell at which a field starts. -/
def Schema.offset (s : Schema) (i : Nat) : Nat := Value.span (s.types.take i)

namespace Value

variable {s : Schema} {cell : Bytes}

/-- Any bytes that fill a cell are read as one value for each field, and what a field reads as does not depend
on the bytes of the others, the lengths of other texts among them. -/
theorem damage_stays_in_field (whole : cell.size = s.width) :
    ∃ vs, readAll? ⟨cell, 0⟩ s.types = some (vs, ⟨cell, s.width⟩) ∧ vs.map type = s.types ∧
      ∀ (cell' : Bytes) us r, cell'.size = s.width → readAll? ⟨cell', 0⟩ s.types = some (us, r) →
        ∀ i t, s.types[i]? = some t →
          (∀ k, s.offset i ≤ k → k < s.offset i + t.width → cell'.byte? k = cell.byte? k) →
            us[i]? = vs[i]? := by
  have reads : ∀ b : Bytes, b.size = s.width → 0 + span s.types ≤ b.size := by
    intro b size
    rw [Nat.zero_add, size]
    exact Nat.le_refl _
  obtain ⟨vs, told, each⟩ := readAll?_of_le s.types (reads cell whole)
  rw [Nat.zero_add] at told
  refine ⟨vs, told, types_readAll? told, fun cell' us r whole' told' i t there same => ?_⟩
  obtain ⟨us', read, each'⟩ := readAll?_of_le s.types (reads cell' whole')
  rw [told'] at read
  cases read
  obtain ⟨field, cut, value⟩ := each i t there
  obtain ⟨field', cut', value'⟩ := each' i t there
  rw [Nat.zero_add] at cut cut'
  have equal : some field' = some field :=
    cut'.symm.trans ((Bytes.slice?_congr (whole'.trans whole.symm) same).trans cut)
  rw [value, value', Option.some.inj equal]

/-- Bytes that begin no character, under a length that is over the limit. -/
theorem ofField_stray : ofField .text ⟨.replicate 132 0xff⟩ = .text (.ofList (.replicate 128 '\uFFFD')) := by
  have length : (⟨.replicate 132 0xff⟩ : Bytes).extract 0 4 = ⟨.replicate 4 0xff⟩ := by
    apply ByteArray.ext
    simp
  have stray : (((⟨.replicate 132 0xff⟩ : Bytes).extract 4 (4 + textLimit)).extract 0
      (Bytes.toUInt32 ⟨.replicate 4 0xff⟩).toNat).data.toList = .replicate 128 0xff := by
    have beyond : (Bytes.toUInt32 ⟨.replicate 4 0xff⟩).toNat = 0xffffffff := by decide
    simp [beyond, textLimit]
  have replaced : Utf8.decode (List.replicate 128 0xff) = .replicate 128 '\uFFFD' := by decide +kernel
  rw [ofField, length, stray, replaced]

/-- A text with stray bytes and a length of four billion reads as nothing but replacement characters, and leaves
the number behind it as it is. -/
theorem damage_stays_in_field_behind_text :
    let schema : Schema := ⟨[⟨.text, some "name"⟩, ⟨.integer, some "n"⟩]⟩
    let cell : Bytes := ⟨Array.replicate 132 0 ++ #[0, 0, 1, 7]⟩
    let cell' : Bytes := ⟨Array.replicate 132 0xff ++ #[0, 0, 1, 7]⟩
    readAll? ⟨cell, 0⟩ schema.types = some ([.text "", .integer 263], ⟨cell, 136⟩) ∧
      ∃ us, readAll? ⟨cell', 0⟩ schema.types = some (us, ⟨cell', 136⟩) ∧
        us[0]? = some (.text (.ofList (.replicate 128 '\uFFFD'))) ∧ us[1]? = some (.integer 263) := by
  intro schema cell cell'
  have read : readAll? ⟨cell, 0⟩ schema.types = some ([.text "", .integer 263], ⟨cell, 136⟩) := by
    decide +kernel
  have whole : cell.size = schema.width := by decide +kernel
  have whole' : cell'.size = schema.width := by decide +kernel
  obtain ⟨vs, told, -, stays⟩ := damage_stays_in_field whole
  obtain ⟨us, told', each⟩ := readAll?_of_le schema.types (show 0 + span schema.types ≤ cell'.size by
    decide +kernel)
  obtain ⟨field, cut, text⟩ := each 0 .text rfl
  have damaged : cell'.extract 0 132 = ⟨.replicate 132 0xff⟩ := by
    apply ByteArray.ext
    simp [cell']
  obtain rfl : cell'.extract 0 132 = field := Option.some.inj ((if_pos (by decide +kernel)).symm.trans cut)
  rw [damaged, ofField_stray] at text
  have same := stays cell' us _ whole' told' 1 .integer rfl fun k above below => by
    have at_end : k = 132 ∨ k = 133 ∨ k = 134 ∨ k = 135 := by
      simp only [FieldType.width, show schema.offset 1 = 132 from by decide] at above below
      omega
    rcases at_end with rfl | rfl | rfl | rfl <;> decide +kernel
  rw [read] at told
  cases told
  exact ⟨read, us, told', text, same⟩

end Value
end HeapStore
