import HeapStore.Proofs.Coding

/-! Two rows made into one. Its fields are those of the first and then those of the second, and so are its
values and its bytes. Schemas are joined in the same way, by types when they are compared and by names when a
field is looked up. -/
namespace HeapStore

namespace Value

theorem span_append (ts us : List FieldType) : span (ts ++ us) = span ts + span us := by
  induction ts with
  | nil => exact (Nat.zero_add _).symm
  | cons t ts ih => rw [List.cons_append, span_cons, span_cons, ih, Nat.add_assoc]

theorem allBytes_append (vs us : List Value) : allBytes (vs ++ us) = allBytes vs ++ allBytes us := by
  induction vs with
  | nil => exact ByteArray.empty_append.symm
  | cons v vs ih => exact (congrArg (v.bytes ++ ·) ih).trans ByteArray.append_assoc.symm

end Value

namespace Schema

variable {s s' t t' : Schema}

theorem types_append (s t : Schema) : (s ++ t).types = s.types ++ t.types := List.map_append

theorem width_append (s t : Schema) : (s ++ t).width = s.width + t.width :=
  (congrArg Value.span (types_append s t)).trans (Value.span_append _ _)

theorem append_assoc (s t u : Schema) : s ++ t ++ u = s ++ (t ++ u) :=
  congrArg Schema.mk (List.append_assoc _ _ _)

theorem Agrees.append (h : s'.Agrees s) (h' : t'.Agrees t) : (s' ++ t').Agrees (s ++ t) := by
  unfold Agrees at *
  rw [types_append, types_append, h, h']

/-- Names are looked up in the first schema first. -/
theorem indexOf?_append (s t : Schema) (name : String) : (s ++ t).indexOf? name =
    if ∃ f ∈ s.fields, f.name = some name then s.indexOf? name
    else (t.indexOf? name).map (s.fields.length + ·) := by
  have parts : (s ++ t).indexOf? name =
      (s.indexOf? name).or ((t.indexOf? name).map (· + s.fields.length)) := List.findIdx?_append
  rw [parts]
  split
  · rename_i there
    have found : (s.indexOf? name).isSome := by
      rw [indexOf?, List.findIdx?_isSome, List.any_eq_true]
      simpa using there
    exact Option.or_of_isSome found
  · rename_i missing
    have none : s.indexOf? name = none := by
      rw [indexOf?, List.findIdx?_eq_none_iff]
      simpa using missing
    rw [none, Option.none_or]
    simp only [Nat.add_comm]

end Schema

namespace Row

variable {row a b : Row} {s t : Schema} {vs us : List Value}

theorem checkFields_eq_ok {fs : List Field} (i : Nat) (types : vs.map Value.type = fs.map Field.type)
    (short : ∀ v ∈ vs, v.checkSize = .ok ()) : checkFields i vs fs = .ok () := by
  induction vs generalizing i fs with
  | nil => rfl
  | cons v vs ih =>
    cases fs with
    | nil => rfl
    | cons f fs =>
      obtain ⟨type, types⟩ := List.cons.inj types
      rw [checkFields, checkField, if_pos type, short v List.mem_cons_self]
      exact ih (i + 1) types fun u later => short u (List.mem_cons_of_mem v later)

/-- Which values make a row. -/
theorem new_eq_ok_iff : Row.new s vs = .ok row ↔ row = ⟨s, vs, none⟩ ∧ row.Typed ∧ row.Sized := by
  constructor
  · intro made
    exact ⟨(new_eq_ok made).1, typed_new made, sized_new made⟩
  · rintro ⟨rfl, typed, sized⟩
    have length : vs.length = s.fields.length := by
      have lengths := congrArg List.length typed
      rwa [List.length_map, Schema.types, List.length_map] at lengths
    rw [Row.new, if_pos length, checkFields_eq_ok 0 typed sized]
    rfl

theorem Sized.append (ha : a.Sized) (hb : b.Sized) : (a.append b).Sized := by
  intro v there
  rcases List.mem_append.mp there with first | second
  · exact ha v first
  · exact hb v second

theorem append_assoc (a b c : Row) : (a.append b).append c = a.append (b.append c) := by
  unfold append
  rw [Schema.append_assoc, List.append_assoc]

theorem bytes_append (a b : Row) : (a.append b).bytes = a.bytes ++ b.bytes := Value.allBytes_append _ _

/-- The row is written as these bytes to any buffer that has room for them. -/
def WrittenAs (row : Row) (bytes : Bytes) : Prop :=
  ∀ buffer : Bytes, bytes.size ≤ buffer.size → ∃ w, row.write? buffer = some w ∧
    w.position = bytes.size ∧ w.buffer.slice? 0 bytes.size = some bytes

theorem Sized.writtenAs (sized : row.Sized) : row.WrittenAs row.bytes := by
  intro buffer room
  obtain ⟨w, put⟩ : ∃ w, (⟨buffer, 0⟩ : Writer).put? row.bytes = some w :=
    Writer.put?_of_le (Nat.le_trans (Nat.le_of_eq (Nat.zero_add _)) room)
  obtain ⟨-, moved, cut⟩ := Writer.put?_advances put
  exact ⟨w, (sized.write?_eq_put? buffer).trans put, moved.trans (Nat.zero_add _), cut⟩

/-- What two rows make when they are joined is a row of the joined schema. It is written as the one and then the
other are, and its values are read back from that by any schema that agrees. It does not matter in which order
more than two are joined. Schemas that agree stay so when others that agree are joined to them, and a name that
both have is the first one's. -/
theorem append_concatenates (s t : Schema) :
    (s ++ t).width = s.width + t.width ∧ (∀ u, s ++ t ++ u = s ++ (t ++ u)) ∧
    (∀ s' t' : Schema, s'.Agrees s → t'.Agrees t → (s' ++ t').Agrees (s ++ t)) ∧
    (∀ name, (s ++ t).indexOf? name =
      if ∃ f ∈ s.fields, f.name = some name then s.indexOf? name
      else (t.indexOf? name).map (s.fields.length + ·)) ∧
    ∀ vs us a b, Row.new s vs = .ok a → Row.new t us = .ok b →
      Row.new (s ++ t) (vs ++ us) = .ok (a.append b) ∧
      (∀ c, (a.append b).append c = a.append (b.append c)) ∧
      ∃ x y : Bytes, a.WrittenAs x ∧ b.WrittenAs y ∧ (a.append b).WrittenAs (x ++ y) ∧
        x.size = s.width ∧ y.size = t.width ∧ (x ++ y).size = s.width + t.width ∧
        ∀ u : Schema, u.Agrees (s ++ t) → ∀ (buffer : Bytes) position,
          buffer.slice? position (s.width + t.width) = some (x ++ y) →
          Value.readAll? ⟨buffer, position⟩ u.types =
            some (vs ++ us, ⟨buffer, position + (s.width + t.width)⟩) := by
  refine ⟨Schema.width_append s t, Schema.append_assoc s t, fun _ _ => Schema.Agrees.append,
    Schema.indexOf?_append s t, fun vs us a b made made' => ?_⟩
  obtain ⟨rfl, typed, sized⟩ := new_eq_ok_iff.mp made
  obtain ⟨rfl, typed', sized'⟩ := new_eq_ok_iff.mp made'
  have joined := sized.append sized'
  have types := typed.append typed'
  have size := sized.size_bytes typed
  have size' := sized'.size_bytes typed'
  have total := (joined.size_bytes types).trans (Schema.width_append s t)
  have written := joined.writtenAs
  rw [bytes_append] at total written
  refine ⟨new_eq_ok_iff.mpr ⟨rfl, types, joined⟩, append_assoc _ _, _, _, sized.writtenAs, sized'.writtenAs,
    written, size, size', total, fun u agrees buffer position cut => ?_⟩
  rw [← total, ← bytes_append] at cut ⊢
  have told := Value.readAll?_of_slice? joined cut
  rw [types] at told
  rw [show u.types = (s ++ t).types from agrees]
  exact told

/-- The number keeps its name, which the text has too, and the truth value has none. -/
theorem append_concatenates_under_one_name :
    let s : Schema := ⟨[⟨.integer, some "id"⟩]⟩
    let t : Schema := ⟨[⟨.text, some "id"⟩, ⟨.boolean, none⟩, ⟨.boolean, some "paid"⟩]⟩
    let vs : List Value := [.integer 7]
    let us : List Value := [.text "sieben", .boolean false, .boolean true]
    (s ++ t).indexOf? "id" = some 0 ∧ (s ++ t).indexOf? "paid" = some 3 ∧ (s ++ t).indexOf? "null" = none ∧
      ∃ a b row, Row.new s vs = .ok a ∧ Row.new t us = .ok b ∧ Row.new (s ++ t) (vs ++ us) = .ok row ∧
        row = a.append b ∧ ∃ x y : Bytes, a.WrittenAs x ∧ b.WrittenAs y ∧ row.WrittenAs (x ++ y) ∧
          Value.readAll? ⟨x ++ y, 0⟩ [.integer, .text, .boolean, .boolean] =
            some (vs ++ us, ⟨x ++ y, 138⟩) := by
  intro s t vs us
  have made : Row.new s vs = .ok ⟨s, vs, none⟩ := by rfl
  have made' : Row.new t us = .ok ⟨t, us, none⟩ := by rfl
  have width : s.width + t.width = 138 := by decide
  obtain ⟨-, -, -, index, joins⟩ := append_concatenates s t
  obtain ⟨new, -, x, y, written, written', both, -, -, total, read⟩ := joins vs us _ _ made made'
  rw [width] at total read
  have whole : (x ++ y).slice? 0 138 = some (x ++ y) := by
    rw [← total]
    exact Bytes.slice?_self _
  exact ⟨by rw [index]; decide, by rw [index]; decide, by rw [index]; decide, _, _, _, made, made', new, rfl,
    x, y, written, written', both, read (s ++ t) rfl _ 0 whole⟩

end Row
end HeapStore
