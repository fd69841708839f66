import HeapStore.Proofs.Encoding

/-! The bytes of values and of rows. What is written of a row depends on nothing but its values, fills its
place exactly and tells them apart, so rows can be compared by their bytes. -/
namespace HeapStore

namespace Writer

variable {w w' x y : Writer} {a b bytes : Bytes}

theorem byte?_put? (wrote : w.put? bytes = some w') (i : Nat) : w'.buffer.byte? i =
    if w.position ≤ i ∧ i < w.position + bytes.size then bytes.byte? (i - w.position)
    else w.buffer.byte? i := by
  obtain ⟨patched, done, rfl⟩ := Option.map_eq_some_iff.mp wrote
  exact Bytes.byte?_patch done i

theorem room_of_put? (wrote : w.put? bytes = some w') : w.position + bytes.size ≤ w.buffer.size := by
  obtain ⟨patched, done, -⟩ := Option.map_eq_some_iff.mp wrote
  exact Bytes.le_of_patch done

theorem buffer_of_put? {position : Nat} (wrote : (Writer.mk a 0).put? bytes = some ⟨b, position⟩)
    (fills : bytes.size = a.size) : b = bytes := by
  obtain ⟨advances, -, cut⟩ := put?_advances wrote
  have size : b.size = bytes.size := advances.size.trans fills.symm
  rw [← size] at cut
  exact Option.some.inj ((Bytes.slice?_self b).symm.trans cut)

/-- Two pieces are written one after the other or at once. -/
theorem put?_append (w : Writer) (a b : Bytes) : w.put? (a ++ b) = (w.put? a).bind (·.put? b) := by
  have size : (a ++ b).size = a.size + b.size := ByteArray.size_append
  by_cases room : w.position + a.size + b.size ≤ w.buffer.size
  · obtain ⟨z, both⟩ : ∃ z, w.put? (a ++ b) = some z := put?_of_le (by omega)
    obtain ⟨x, first⟩ : ∃ x, w.put? a = some x := put?_of_le (by omega)
    obtain ⟨advances, moved, -⟩ := put?_advances first
    have same := advances.size
    obtain ⟨y, second⟩ : ∃ y, x.put? b = some y := put?_of_le (by omega)
    have position : z.position = y.position := by
      rw [(put?_advances both).2.1, (put?_advances second).2.1]
      omega
    have buffer : z.buffer = y.buffer := by
      refine Bytes.eq_of_byte? fun i => ?_
      rw [byte?_put? both, byte?_put? second, byte?_put? first, Bytes.byte?_append]
      by_cases before : i < w.position + a.size
      · by_cases inside : w.position ≤ i
        · rw [if_pos (by omega), if_pos (by omega), if_neg (by omega), if_pos ⟨inside, before⟩]
        · rw [if_neg (by omega), if_neg (by omega), if_neg (by omega)]
      · by_cases inside : i < w.position + a.size + b.size
        · rw [if_pos (by omega), if_neg (by omega), if_pos (by omega), moved]
          congr 1
          omega
        · rw [if_neg (by omega), if_neg (by omega), if_neg (by omega)]
    rw [both, first, Option.bind_some, second]
    obtain ⟨_, _⟩ := z
    obtain ⟨_, _⟩ := y
    cases position
    cases buffer
    rfl
  · have none : w.put? (a ++ b) = none := by
      refine Option.eq_none_iff_forall_ne_some.mpr fun z both => ?_
      have := room_of_put? both
      omega
    rw [none]
    refine (Option.eq_none_iff_forall_ne_some.mpr fun z both => ?_).symm
    obtain ⟨x, first, second⟩ := Option.bind_eq_some_iff.mp both
    obtain ⟨advances, moved, -⟩ := put?_advances first
    have same := advances.size
    have := room_of_put? second
    omega

theorem pad?_eq_put? (w : Writer) (n : Nat) : w.pad? n = w.put? (.zeros n) := by
  unfold pad?
  split
  · rfl
  · rename_i full
    refine (Option.eq_none_iff_forall_ne_some.mpr fun z wrote => full ?_).symm
    have room := room_of_put? wrote
    rwa [Bytes.size_zeros] at room

theorem put?_empty (inside : w.position ≤ w.buffer.size) : w.put? .empty = some w := by
  obtain ⟨z, wrote⟩ : ∃ z, w.put? .empty = some z := put?_of_le inside
  have position : z.position = w.position := (put?_advances wrote).2.1
  have buffer : z.buffer = w.buffer := by
    refine Bytes.eq_of_byte? fun i => ?_
    rw [byte?_put? wrote, if_neg]
    simp only [ByteArray.size_empty]
    omega
  rw [wrote]
  obtain ⟨_, _⟩ := z
  obtain ⟨_, _⟩ := w
  cases position
  cases buffer
  rfl

end Writer

namespace Value

variable {w w' : Writer} {v : Value} {vs us : List Value} {b : Bytes} {position : Nat}

/-- What a value is on a page. -/
def bytes : Value → Bytes
  | boolean b => ⟨#[if b then 1 else 0]⟩
  | integer n => .ofUInt32 n.toUInt32
  | text s =>
    .ofUInt32 (.ofNat s.toUTF8.size) ++ (s.toUTF8 ++ .zeros (textLimit - s.toUTF8.size))

/-- The bytes of the values, one after the other. -/
def allBytes (vs : List Value) : Bytes := vs.foldr (fun v rest => v.bytes ++ rest) .empty

theorem size_bytes (short : v.checkSize = .ok ()) : v.bytes.size = v.type.width := by
  cases v with
  | boolean b => rfl
  | integer n => rfl
  | text s =>
    have few := le_textLimit short
    simp only [bytes, ByteArray.size_append, Bytes.size_ofUInt32, Bytes.size_zeros, type,
      FieldType.width]
    omega

theorem size_allBytes (short : ∀ v ∈ vs, v.checkSize = .ok ()) : (allBytes vs).size = span (vs.map type) := by
  induction vs with
  | nil => rfl
  | cons v vs ih =>
    rw [allBytes, List.foldr_cons, ByteArray.size_append, List.map_cons, span_cons,
      size_bytes (short v List.mem_cons_self), ← ih fun u later => short u (List.mem_cons_of_mem v later)]
    rfl

theorem write?_eq_put? (short : v.checkSize = .ok ()) (w : Writer) : write? w v = w.put? v.bytes := by
  cases v with
  | boolean b => rfl
  | integer n => rfl
  | text s =>
    have few := le_textLimit short
    simp only [write?, bytes, Writer.put?_append, if_pos few, Writer.pad?_eq_put?, Option.bind_eq_bind]
    rfl

theorem writeAll?_eq_put? (short : ∀ v ∈ vs, v.checkSize = .ok ())
    (inside : w.position ≤ w.buffer.size) : writeAll? w vs = w.put? (allBytes vs) := by
  induction vs generalizing w with
  | nil => exact (Writer.put?_empty inside).symm
  | cons v vs ih =>
    have later := fun u there => short u (List.mem_cons_of_mem v there)
    rw [writeAll?, List.foldlM_cons, write?_eq_put? (short v List.mem_cons_self), allBytes,
      List.foldr_cons, Writer.put?_append]
    cases first : w.put? v.bytes with
    | none => rfl
    | some x => exact ih later (Writer.put?_le first)

/-- Values are read wherever their bytes are. -/
theorem readAll?_of_slice? (short : ∀ v ∈ vs, v.checkSize = .ok ())
    (cut : b.slice? position (allBytes vs).size = some (allBytes vs)) :
    readAll? ⟨b, position⟩ (vs.map type) = some (vs, ⟨b, position + (allBytes vs).size⟩) := by
  obtain ⟨room, -, there⟩ := Bytes.slice?_eq_some_iff.mp cut
  -- writing the values where they are leaves the buffer as it is
  obtain ⟨w, put⟩ : ∃ w, (⟨b, position⟩ : Writer).put? (allBytes vs) = some w := Writer.put?_of_le room
  have inside : position ≤ b.size := Nat.le_trans (Nat.le_add_right _ _) room
  have wrote := (writeAll?_eq_put? short inside).trans put
  obtain ⟨advances, moved, -⟩ := Writer.put?_advances put
  have left : Writer.Left ⟨b, position⟩ w b := by
    refine ⟨advances.size.symm, fun i above below => ?_⟩
    rw [moved] at below
    rw [Writer.byte?_put? put, if_pos ⟨above, below⟩, ← there _ (by omega), Nat.add_sub_cancel' above]
  rw [← moved]
  exact readAll?_writeAll? wrote left

theorem readAll?_allBytes (short : ∀ v ∈ vs, v.checkSize = .ok ()) :
    ∃ r, readAll? ⟨allBytes vs, 0⟩ (vs.map type) = some (vs, r) :=
  ⟨_, readAll?_of_slice? short (Bytes.slice?_self _)⟩

theorem allBytes_inj (short : ∀ v ∈ vs, v.checkSize = .ok ()) (short' : ∀ u ∈ us, u.checkSize = .ok ())
    (types : vs.map type = us.map type) (same : allBytes vs = allBytes us) : vs = us := by
  obtain ⟨r, told⟩ := readAll?_allBytes short
  obtain ⟨r', told'⟩ := readAll?_allBytes short'
  rw [types, same, told'] at told
  exact (congrArg Prod.fst (Option.some.inj told)).symm

end Value

namespace Row

variable {schema schema' : Schema} {values values' : List Value} {row row' : Row} {buffer : Bytes}

/-- What a row is on a page. -/
def bytes (row : Row) : Bytes := Value.allBytes row.values

theorem Sized.size_bytes (sized : row.Sized) (typed : row.Typed) : row.bytes.size = row.schema.width := by
  have size := Value.size_allBytes sized
  rwa [typed] at size

theorem Sized.write?_eq_put? (sized : row.Sized) (buffer : Bytes) :
    row.write? buffer = (⟨buffer, 0⟩ : Writer).put? row.bytes :=
  Value.writeAll?_eq_put? sized (Nat.zero_le _)

theorem Sized.values_eq (sized : row.Sized) (sized' : row'.Sized) (typed : row.Typed) (typed' : row'.Typed)
    (agrees : row'.schema.Agrees row.schema) (same : row'.bytes = row.bytes) :
    row'.values = row.values := by
  refine Value.allBytes_inj sized' sized ?_ same
  rw [typed, typed']
  exact agrees

/-- A row takes as many bytes as its schema says, whatever is there before. They tell its values, to whoever
reads them by an agreeing schema, and no other row of such a schema has the same ones. -/
theorem encoding_round_trips (made : Row.new schema values = .ok row) (room : schema.width ≤ buffer.size) :
    ∃ w bytes, row.write? buffer = some w ∧ w.position = schema.width ∧ w.buffer.size = buffer.size ∧
      w.buffer.slice? 0 schema.width = some bytes ∧
      (∀ i, schema.width ≤ i → w.buffer.byte? i = buffer.byte? i) ∧
      (∀ schema' : Schema, schema'.Agrees schema →
        Value.readAll? ⟨w.buffer, 0⟩ schema'.types = some (values, ⟨w.buffer, schema.width⟩)) ∧
      (∀ buffer' w', row.write? buffer' = some w' → w'.buffer.slice? 0 schema.width = some bytes) ∧
      ∀ (schema' : Schema) values' row' buffer' w', Row.new schema' values' = .ok row' →
        schema'.Agrees schema → row'.write? buffer' = some w' →
        w'.buffer.slice? 0 schema.width = some bytes → values' = values := by
  have sized := sized_new made
  have typed := typed_new made
  obtain ⟨rfl, -, -⟩ := new_eq_ok made
  have size : (Row.bytes ⟨schema, values, none⟩).size = schema.width := sized.size_bytes typed
  have written : ∀ {row' : Row} {buffer' w'}, row'.Sized → row'.bytes.size = schema.width →
      row'.write? buffer' = some w' → w'.buffer.slice? 0 schema.width = some row'.bytes := by
    intro row' buffer' w' sized' size' wrote
    rw [sized'.write?_eq_put?] at wrote
    rw [← size']
    exact (Writer.put?_advances wrote).2.2
  obtain ⟨w, put⟩ : ∃ w, (⟨buffer, 0⟩ : Writer).put? (Row.bytes ⟨schema, values, none⟩) = some w := by
    refine Writer.put?_of_le ?_
    rw [size, Nat.zero_add]
    exact room
  have wrote : Row.write? ⟨schema, values, none⟩ buffer = some w := (sized.write?_eq_put? buffer).trans put
  obtain ⟨advances, position, -⟩ := Writer.put?_advances put
  have position : w.position = schema.width := by rw [position, size, Nat.zero_add]
  refine ⟨w, _, wrote, position, advances.size, written sized size wrote, fun i beyond => ?_,
    fun schema' agrees => ?_, fun buffer' w' wrote' => written sized size wrote', ?_⟩
  · exact advances.kept i (Or.inr (position ▸ beyond))
  · have told := Value.readAll?_writeAll? wrote (b := w.buffer) ⟨rfl, fun _ _ _ => rfl⟩
    rw [typed, position] at told
    rw [show schema'.types = schema.types from agrees]
    exact told
  · intro schema' values' row' buffer' w' made' agrees wrote' same
    have sized' := sized_new made'
    have typed' := typed_new made'
    obtain ⟨rfl, -, -⟩ := new_eq_ok made'
    have size' : (Row.bytes ⟨schema', values', none⟩).size = schema.width :=
      (sized'.size_bytes typed').trans agrees.width
    rw [written sized' size' wrote'] at same
    exact sized.values_eq sized' typed typed' agrees (Option.some.inj same)

/-- Four bytes of one character and what was in the buffer before do not come back as anything else. -/
theorem encoding_round_trips_over_garbage :
    let schema : Schema := ⟨[⟨.text, some "name"⟩, ⟨.integer, none⟩]⟩
    let values : List Value := [.text "naïve 😀", .integer (-5)]
    ∃ row w, Row.new schema values = .ok row ∧ schema.width = 136 ∧
      row.write? (.replicate 150 0xff) = some w ∧ w.position = 136 ∧ w.buffer.byte? 136 = some 0xff ∧
      Value.readAll? ⟨w.buffer, 0⟩ [.text, .integer] = some (values, ⟨w.buffer, 136⟩) := by
  intro schema values
  have made : Row.new schema values = .ok ⟨schema, values, none⟩ := by rfl
  have width : schema.width = 136 := by decide
  have room : schema.width ≤ (Bytes.replicate 150 0xff).size := by
    rw [Bytes.size_replicate, width]
    decide
  obtain ⟨w, -, wrote, position, -, -, kept, told, -⟩ := encoding_round_trips made room
  rw [width] at position kept told
  refine ⟨_, w, made, width, wrote, position, ?_, told schema rfl⟩
  rw [kept 136 (Nat.le_refl _), Bytes.byte?_replicate]
  rfl

end Row
end HeapStore
