import HeapStore.Proofs.Slots

/-! Values are read back as they were written: characters from their UTF-8, values from their bytes,
and rows from the cell that they fill. -/
namespace HeapStore

namespace Utf8

theorem continuation_cons {low high n bits d : Nat} {b : UInt8} (rest : List UInt8)
    (byte : b.toNat = d % 64 + 128) (fits : low ≤ b.toNat ∧ b.toNat ≤ high) :
    continuation low high (n + 1) bits (b :: rest) =
      continuation 0x80 0xBF n (bits * 64 + d % 64) rest := by
  have six : b.toNat % 64 = d % 64 := by omega
  rw [continuation, if_pos fits, six]

theorem character_lead {b : UInt8} {rest : List UInt8} {l : Lead} (lead : lead? b.toNat = some l) :
    character b rest = continuation l.low l.high l.follow l.bits rest := by
  have high : ¬b.toNat < 0x80 := by
    intro low
    rw [lead?] at lead
    grind
  rw [character, if_neg high, lead]

variable {n : Nat} {a b c d : UInt8} (rest : List UInt8)

theorem character_two (lower : 0x80 ≤ n) (upper : n < 0x800) (first : a.toNat = n / 64 % 32 + 192)
    (second : b.toNat = n % 64 + 128) : character a (b :: rest) = (Char.ofNat n, rest) := by
  have lead : lead? a.toNat = some ⟨0x80, 0xBF, 1, a.toNat - 0xC0⟩ := by
    rw [lead?, if_pos (by omega)]
  have fits : 0x80 ≤ b.toNat ∧ b.toNat ≤ 0xBF := by omega
  rw [character_lead lead, continuation_cons rest second fits, continuation,
    show (a.toNat - 0xC0) * 64 + n % 64 = n by omega]

theorem character_three (lower : 0x800 ≤ n) (upper : n < 0x10000)
    (scalar : n < 0xD800 ∨ 0xDFFF < n) (first : a.toNat = n / 4096 % 16 + 224)
    (second : b.toNat = n / 64 % 64 + 128) (third : c.toNat = n % 64 + 128) :
    character a (b :: c :: rest) = (Char.ofNat n, rest) := by
  -- which second bytes are allowed depends on the first one
  obtain ⟨low, high, lead, fits⟩ : ∃ low high, lead? a.toNat = some ⟨low, high, 2, n / 4096⟩ ∧
      low ≤ b.toNat ∧ b.toNat ≤ high := by
    rcases Nat.lt_or_ge n 0x1000 with small | large
    · refine ⟨0xA0, 0xBF, ?_, by omega⟩
      rw [lead?, if_neg (by omega), if_pos (by omega), show n / 4096 = 0 by omega]
    · by_cases near : n / 4096 = 0xD
      · refine ⟨0x80, 0x9F, ?_, by omega⟩
        rw [lead?, if_neg (by omega), if_neg (by omega), if_pos (by omega), near]
      · refine ⟨0x80, 0xBF, ?_, by omega⟩
        rw [lead?, if_neg (by omega), if_neg (by omega), if_neg (by omega), if_pos (by omega),
          show n / 4096 = a.toNat - 0xE0 by omega]
  rw [character_lead lead, continuation_cons _ second fits, continuation_cons rest third (by omega),
    continuation, show (n / 4096 * 64 + n / 64 % 64) * 64 + n % 64 = n by omega]

theorem character_four (lower : 0x10000 ≤ n) (upper : n < 0x110000)
    (first : a.toNat = n / 262144 % 8 + 240) (second : b.toNat = n / 4096 % 64 + 128)
    (third : c.toNat = n / 64 % 64 + 128) (fourth : d.toNat = n % 64 + 128) :
    character a (b :: c :: d :: rest) = (Char.ofNat n, rest) := by
  obtain ⟨low, high, lead, fits⟩ : ∃ low high, lead? a.toNat = some ⟨low, high, 3, n / 262144⟩ ∧
      low ≤ b.toNat ∧ b.toNat ≤ high := by
    rcases Nat.lt_or_ge n 0x40000 with small | large
    · refine ⟨0x90, 0xBF, ?_, by omega⟩
      rw [lead?, if_neg (by omega), if_neg (by omega), if_neg (by omega), if_neg (by omega),
        if_pos (by omega), show n / 262144 = 0 by omega]
    · by_cases last : n / 262144 = 4
      · refine ⟨0x80, 0x8F, ?_, by omega⟩
        rw [lead?, if_neg (by omega), if_neg (by omega), if_neg (by omega), if_neg (by omega),
          if_neg (by omega), if_pos (by omega), last]
      · refine ⟨0x80, 0xBF, ?_, by omega⟩
        rw [lead?, if_neg (by omega), if_neg (by omega), if_neg (by omega), if_neg (by omega),
          if_neg (by omega), if_neg (by omega), if_pos (by omega),
          show n / 262144 = a.toNat - 0xF0 by omega]
  rw [character_lead lead, continuation_cons _ second fits, continuation_cons _ third (by omega),
    continuation_cons rest fourth (by omega), continuation,
    show ((n / 262144 * 64 + n / 4096 % 64) * 64 + n / 64 % 64) * 64 + n % 64 = n by omega]

/-- A character is read back from its bytes, whatever follows them. -/
theorem decode_encode_cons (c : Char) (rest : List UInt8) :
    decode (String.utf8EncodeChar c ++ rest) = c :: decode rest := by
  have valid : c.toNat < 0xD800 ∨ 0xDFFF < c.toNat ∧ c.toNat < 0x110000 := c.valid
  have same : Char.ofNat c.toNat = c := c.ofNat_toNat
  have encoded : ∀ b tail, String.utf8EncodeChar c = b :: tail →
      character b (tail ++ rest) = (Char.ofNat c.toNat, rest) →
      decode (String.utf8EncodeChar c ++ rest) = c :: decode rest := by
    intro b tail bytes read
    rw [bytes, List.cons_append, decode, read, same]
  have byte : ∀ m < 256, (UInt8.ofNat m).toNat = m := fun m below => by
    rw [UInt8.toNat_ofNat', Nat.mod_eq_of_lt below]
  have bytes := String.utf8EncodeChar.eq_1 c
  change _ = if c.toNat ≤ 127 then _ else if c.toNat ≤ 2047 then _ else
    if c.toNat ≤ 65535 then _ else _ at bytes
  split at bytes
  · refine encoded _ _ bytes ?_
    have low : (UInt8.ofNat c.val.toNat).toNat = c.toNat := byte c.toNat (by omega)
    rw [character, if_pos (by omega), List.nil_append]
    exact congrArg (fun m => (Char.ofNat m, rest)) low
  · split at bytes
    · exact encoded _ _ bytes (character_two rest (by omega) (by omega) (byte _ (by omega)) (byte _ (by omega)))
    · split at bytes
      · exact encoded _ _ bytes (character_three rest (by omega) (by omega) (by omega) (byte _ (by omega))
          (byte _ (by omega)) (byte _ (by omega)))
      · exact encoded _ _ bytes (character_four rest (by omega) (by omega) (byte _ (by omega))
          (byte _ (by omega)) (byte _ (by omega)) (byte _ (by omega)))

theorem decode_encode (cs : List Char) : decode (cs.flatMap String.utf8EncodeChar) = cs := by
  induction cs with
  | nil => simp [decode]
  | cons c cs ih => rw [List.flatMap_cons, decode_encode_cons, ih]

theorem toUTF8_eq (s : String) : s.toUTF8 = (s.toList.flatMap String.utf8EncodeChar).toByteArray := by
  rw [← List.utf8Encode, ← String.toByteArray_ofList, String.ofList_toList]
  rfl

theorem ofList_decode (s : String) : String.ofList (decode s.toUTF8.data.toList) = s := by
  rw [toUTF8_eq, List.data_toByteArray, decode_encode, String.ofList_toList]

end Utf8

namespace Bytes

variable {b p new : Bytes} {off n i : Nat}

theorem byte?_patch (done : b.patch? off new = some p) (i : Nat) :
    p.byte? i = if off ≤ i ∧ i < off + new.size then new.byte? (i - off) else b.byte? i := by
  unfold patch? at done
  split at done
  · cases done
    have before : (b.extract 0 off).size = off := by
      rw [ByteArray.size_extract]
      omega
    simp only [byte?_append, ByteArray.size_append, before, byte?_extract, Nat.min_self]
    by_cases left : i < off
    · rw [if_pos (by omega), if_pos left, if_pos (by omega), if_neg (by omega), Nat.zero_add]
    · by_cases within : i < off + new.size
      · rw [if_pos within, if_neg left, if_pos ⟨Nat.le_of_not_lt left, within⟩]
      · rw [if_neg within, show off + new.size + (i - (off + new.size)) = i by omega]
        refine Eq.trans ?_ (if_neg fun inside => within inside.2).symm
        split
        · rfl
        · exact (byte?_eq_none_iff.mpr (by omega)).symm
  · cases done

theorem le_of_patch (done : b.patch? off new = some p) : off + new.size ≤ b.size := by
  unfold patch? at done
  split at done
  · assumption
  · cases done

theorem slice?_patch (done : b.patch? off new = some p) : p.slice? off new.size = some new := by
  refine slice?_eq_some_iff.mpr ⟨?_, rfl, fun i below => ?_⟩
  · rw [size_patch done]
    exact le_of_patch done
  · rw [byte?_patch done, if_pos (by omega)]
    congr 1
    omega

end Bytes

namespace Writer

variable {w w' w'' : Writer} {bytes : Bytes}

/-- The writer has moved on over bytes that it wrote, and has left all others alone. -/
structure Advances (w w' : Writer) : Prop where
  position : w.position ≤ w'.position
  size : w'.buffer.size = w.buffer.size
  kept : ∀ i, i < w.position ∨ w'.position ≤ i → w'.buffer.byte? i = w.buffer.byte? i

theorem Advances.refl (w : Writer) : w.Advances w := ⟨Nat.le_refl _, rfl, fun _ _ => rfl⟩

theorem Advances.trans (h : w.Advances w') (h' : w'.Advances w'') : w.Advances w'' where
  position := Nat.le_trans h.position h'.position
  size := h'.size.trans h.size
  kept i outside := by
    have := h.position
    have := h'.position
    rw [h'.kept i (by omega), h.kept i (by omega)]

theorem put?_advances (h : w.put? bytes = some w') : w.Advances w' ∧
    w'.position = w.position + bytes.size ∧ w'.buffer.slice? w.position bytes.size = some bytes := by
  obtain ⟨patched, done, rfl⟩ := Option.map_eq_some_iff.mp h
  refine ⟨⟨Nat.le_add_right _ _, Bytes.size_patch done, fun i outside => ?_⟩, rfl,
    Bytes.slice?_patch done⟩
  dsimp only at outside
  rw [Bytes.byte?_patch done, if_neg (by omega)]

theorem pad?_advances {n : Nat} (h : w.pad? n = some w') : w.Advances w' ∧
    w'.position = w.position + n := by
  unfold pad? at h
  split at h
  · obtain ⟨advances, position, -⟩ := put?_advances h
    exact ⟨advances, by rw [position, Bytes.size_zeros]⟩
  · cases h

theorem put?_le (h : w.put? bytes = some w') : w'.position ≤ w'.buffer.size := by
  obtain ⟨-, position, there⟩ := put?_advances h
  rw [position]
  exact (Bytes.slice?_eq_some_iff.mp there).1

theorem pad?_le {n : Nat} (h : w.pad? n = some w') : w'.position ≤ w'.buffer.size := by
  unfold pad? at h
  split at h
  · exact put?_le h
  · cases h

theorem put?_of_le (room : w.position + bytes.size ≤ w.buffer.size) : ∃ w', w.put? bytes = some w' := by
  rw [put?, Bytes.patch?, if_pos room]
  exact ⟨_, rfl⟩

/-- `b` has what was written on the way from `w` to `w'`. -/
def Left (w w' : Writer) (b : Bytes) : Prop :=
  b.size = w'.buffer.size ∧ ∀ i, w.position ≤ i → i < w'.position → b.byte? i = w'.buffer.byte? i

theorem Left.first {b : Bytes} (h : w.Left w'' b) (later : w'.Advances w'') : w.Left w' b := by
  refine ⟨h.1.trans later.size, fun i above below => ?_⟩
  rw [h.2 i above (Nat.lt_of_lt_of_le below later.position), later.kept i (Or.inl below)]

theorem Left.last {b : Bytes} (h : w.Left w'' b) (first : w.Advances w') : w'.Left w'' b :=
  ⟨h.1, fun i above below => h.2 i (Nat.le_trans first.position above) below⟩

theorem Left.slice? {b : Bytes} (h : w.Left w' b) (wrote : w.put? bytes = some w') :
    b.slice? w.position bytes.size = some bytes := by
  obtain ⟨-, position, there⟩ := put?_advances wrote
  rw [Bytes.slice?_congr h.1 fun i above below => h.2 i above (position ▸ below), there]

theorem Left.take? {b : Bytes} (h : w.Left w' b) (wrote : w.put? bytes = some w') :
    (Reader.mk b w.position).take? bytes.size = some (bytes, ⟨b, w'.position⟩) := by
  have cut : (Reader.mk b w.position).buffer.slice? w.position bytes.size = some bytes := h.slice? wrote
  rw [Reader.take?, cut, (put?_advances wrote).2.1]
  rfl

theorem Left.u8? {b : Bytes} {n : UInt8} (h : w.Left w' b) (wrote : w.u8? n = some w') :
    (Reader.mk b w.position).u8? = some (n, ⟨b, w'.position⟩) := by
  obtain ⟨-, -, same⟩ := Bytes.slice?_eq_some_iff.mp (h.slice? wrote)
  have byte : b.byte? w.position = some n := same 0 Nat.one_pos
  rw [Reader.u8?, byte, (put?_advances wrote).2.1]
  rfl

theorem Left.u32? {b : Bytes} {n : UInt32} (h : w.Left w' b) (wrote : w.u32? n = some w') :
    (Reader.mk b w.position).u32? = some (n, ⟨b, w'.position⟩) := by
  have taken : (Reader.mk b w.position).take? 4 = some (.ofUInt32 n, ⟨b, w'.position⟩) := h.take? wrote
  rw [Reader.u32?, taken]
  exact congrArg (fun m => some (m, _)) (Bytes.toUInt32_ofUInt32 n)

end Writer

namespace Value

variable {w w' : Writer} {b : Bytes}

theorem write?_advances {v : Value} (wrote : write? w v = some w') :
    w.Advances w' ∧ w'.position = w.position + v.type.width := by
  cases v with
  | boolean x => exact (Writer.put?_advances wrote).imp_right And.left
  | integer n => exact (Writer.put?_advances wrote).imp_right And.left
  | text s =>
    simp only [write?, Option.bind_eq_bind, Option.bind_eq_some_iff] at wrote
    obtain ⟨x, length, y, chars, rest⟩ := wrote
    split at rest
    · obtain ⟨first, at_x, -⟩ := Writer.put?_advances length
      obtain ⟨second, at_y, -⟩ := Writer.put?_advances chars
      obtain ⟨third, at_end⟩ := Writer.pad?_advances rest
      refine ⟨(first.trans second).trans third, ?_⟩
      rw [at_end, at_y, at_x, Bytes.size_ofUInt32]
      change _ = w.position + (4 + textLimit)
      omega
    · cases rest

/-- A value is read back from its bytes. -/
theorem read?_write? {v : Value} (wrote : write? w v = some w') (left : w.Left w' b) :
    read? ⟨b, w.position⟩ v.type = some (v, ⟨b, w'.position⟩) := by
  cases v with
  | boolean x =>
    simp only [type, read?, left.u8? wrote]
    cases x <;> rfl
  | integer n =>
    simp only [type, read?, Reader.i32?, left.u32? wrote]
    simp
  | text s =>
    have advances := (write?_advances wrote).2
    simp only [write?, Option.bind_eq_bind, Option.bind_eq_some_iff] at wrote
    obtain ⟨x, length, y, chars, rest⟩ := wrote
    split at rest
    · rename_i short
      obtain ⟨first, at_x, -⟩ := Writer.put?_advances length
      obtain ⟨second, at_y, -⟩ := Writer.put?_advances chars
      obtain ⟨third, at_end⟩ := Writer.pad?_advances rest
      have count := (left.first (second.trans third)).u32? length
      have front := ((left.first third).last first).slice? chars
      have room : x.position + textLimit ≤ b.size := by
        have := Writer.pad?_le rest
        rw [left.1]
        omega
      obtain ⟨taken, cut⟩ : ∃ taken, b.slice? x.position textLimit = some taken :=
        ⟨_, if_pos room⟩
      have few : (UInt32.ofNat s.toUTF8.size).toNat = s.toUTF8.size := by
        rw [UInt32.toNat_ofNat', Nat.mod_eq_of_lt (Nat.lt_of_le_of_lt short (by decide))]
      have bytes : taken.extract 0 (UInt32.ofNat s.toUTF8.size).toNat = s.toUTF8 := by
        rw [few, Bytes.extract_of_slice? cut front short]
      have position : w'.position = x.position + textLimit := by omega
      simp only [type, read?, count, Reader.take?, cut, Option.bind_eq_bind, Option.bind_some,
        Option.map_some, bytes, Utf8.ofList_decode, position]
      rfl
    · cases rest

theorem le_textLimit {s : String} (short : checkSize (.text s) = .ok ()) : s.toUTF8.size ≤ textLimit := by
  rw [checkSize] at short
  split at short
  · cases short
  · rename_i few
    exact Nat.le_of_not_lt few

/-- There is room for a value that is not too long wherever there are as many bytes as its type takes. -/
theorem write?_of_le {v : Value} (room : w.position + v.type.width ≤ w.buffer.size)
    (short : v.checkSize = .ok ()) : ∃ w', write? w v = some w' := by
  cases v with
  | boolean x => exact Writer.put?_of_le room
  | integer n =>
    refine Writer.put?_of_le ?_
    rw [Bytes.size_ofUInt32]
    exact room
  | text s =>
    have room : w.position + (4 + textLimit) ≤ w.buffer.size := room
    have few := le_textLimit short
    obtain ⟨x, length⟩ : ∃ x, w.put? (.ofUInt32 (.ofNat s.toUTF8.size)) = some x := by
      refine Writer.put?_of_le ?_
      rw [Bytes.size_ofUInt32]
      omega
    obtain ⟨first, at_x, -⟩ := Writer.put?_advances length
    rw [Bytes.size_ofUInt32] at at_x
    have size_x := first.size
    obtain ⟨y, chars⟩ : ∃ y, x.put? s.toUTF8 = some y := Writer.put?_of_le (by omega)
    obtain ⟨second, at_y, -⟩ := Writer.put?_advances chars
    have size_y := second.size
    have left : y.position + (textLimit - s.toUTF8.size) ≤ y.buffer.size := by omega
    obtain ⟨z, padded⟩ : ∃ z, y.put? (.zeros (textLimit - s.toUTF8.size)) = some z :=
      Writer.put?_of_le (by rwa [Bytes.size_zeros])
    refine ⟨z, ?_⟩
    simp only [write?, Writer.u32?, length, chars, Option.bind_eq_bind, Option.bind_some, if_pos few]
    rw [Writer.pad?, if_pos left, padded]

theorem writeAll?_of_le {vs : List Value} (short : ∀ v ∈ vs, v.checkSize = .ok ())
    (room : w.position + span (vs.map type) ≤ w.buffer.size) :
    ∃ w', writeAll? w vs = some w' := by
  induction vs generalizing w with
  | nil => exact ⟨w, rfl⟩
  | cons v vs ih =>
    rw [List.map_cons, span_cons] at room
    obtain ⟨x, first⟩ := write?_of_le (w := w) (v := v) (by omega) (short v (List.mem_cons_self ..))
    obtain ⟨advances, position⟩ := write?_advances first
    have size := advances.size
    obtain ⟨y, rest⟩ := ih (w := x) (fun v later => short v (List.mem_cons_of_mem _ later)) (by omega)
    refine ⟨y, ?_⟩
    rw [writeAll?, List.foldlM_cons, first]
    exact rest

theorem writeAll?_advances {vs : List Value} (wrote : writeAll? w vs = some w') : w.Advances w' := by
  induction vs generalizing w with
  | nil =>
    cases wrote
    exact .refl _
  | cons v vs ih =>
    rw [writeAll?, List.foldlM_cons] at wrote
    obtain ⟨x, first, rest⟩ := Option.bind_eq_some_iff.mp wrote
    exact (write?_advances first).1.trans (ih rest)

/-- Values are read back from their bytes. -/
theorem readAll?_writeAll? {vs : List Value} (wrote : writeAll? w vs = some w') (left : w.Left w' b) :
    readAll? ⟨b, w.position⟩ (vs.map type) = some (vs, ⟨b, w'.position⟩) := by
  induction vs generalizing w with
  | nil =>
    cases wrote
    rfl
  | cons v vs ih =>
    rw [writeAll?, List.foldlM_cons] at wrote
    obtain ⟨x, first, rest⟩ := Option.bind_eq_some_iff.mp wrote
    have head := read?_write? first (left.first (writeAll?_advances rest))
    have tail := ih rest (left.last (write?_advances first).1)
    simp only [List.map_cons, readAll?, head, tail, Option.bind_eq_bind, Option.bind_some]
    rfl

end Value

namespace Row

/-- The values have the types of the fields. Rows are made in such a way only. -/
def Typed (row : Row) : Prop := row.values.map Value.type = row.schema.types

instance (row : Row) : Decidable row.Typed :=
  inferInstanceAs (Decidable (row.values.map Value.type = row.schema.types))

/-- None of the texts is too long. That is seen to when a row is made. -/
def Sized (row : Row) : Prop := ∀ v ∈ row.values, v.checkSize = .ok ()

theorem of_checkFields {i : Nat} {vs : List Value} {fs : List Field}
    (checked : checkFields i vs fs = .ok ()) (length : vs.length = fs.length) :
    vs.map Value.type = fs.map Field.type ∧ ∀ v ∈ vs, v.checkSize = .ok () := by
  induction vs generalizing i fs with
  | nil =>
    cases fs with
    | nil => exact ⟨rfl, fun v never => by cases never⟩
    | cons f fs => cases length
  | cons v vs ih =>
    cases fs with
    | nil => cases length
    | cons f fs =>
      rw [checkFields, checkField] at checked
      split at checked
      · rename_i same
        cases size : v.checkSize with
        | error c =>
          rw [size] at checked
          cases checked
        | ok _ =>
          rw [size] at checked
          obtain ⟨types, short⟩ := ih checked (Nat.succ.inj length)
          exact ⟨by rw [List.map_cons, List.map_cons, same, types], List.forall_mem_cons.mpr ⟨size, short⟩⟩
      · cases checked

theorem new_eq_ok {schema : Schema} {values : List Value} {row : Row}
    (made : Row.new schema values = .ok row) : row = ⟨schema, values, none⟩ ∧
      values.length = schema.fields.length ∧ checkFields 0 values schema.fields = .ok () := by
  unfold Row.new at made
  split at made
  · rename_i length
    cases checked : checkFields 0 values schema.fields with
    | error c =>
      rw [checked] at made
      cases made
    | ok _ =>
      rw [checked] at made
      cases made
      exact ⟨rfl, length, rfl⟩
  · cases made

theorem typed_new {schema : Schema} {values : List Value} {row : Row}
    (made : Row.new schema values = .ok row) : row.Typed := by
  obtain ⟨rfl, length, checked⟩ := new_eq_ok made
  exact (of_checkFields checked length).1

theorem sized_new {schema : Schema} {values : List Value} {row : Row}
    (made : Row.new schema values = .ok row) : row.Sized := by
  obtain ⟨rfl, length, checked⟩ := new_eq_ok made
  exact (of_checkFields checked length).2

theorem Typed.append {a b : Row} (ha : a.Typed) (hb : b.Typed) : (a.append b).Typed := by
  change (a.values ++ b.values).map Value.type = (a.schema.fields ++ b.schema.fields).map Field.type
  rw [List.map_append, List.map_append, ha, hb]
  rfl

theorem typed_readRow? {l : Layout} {s : Schema} {id : PageId} {page : Bytes} {i : Nat} {row : Row}
    (told : l.readRow? s id page i = some row) : row.Typed := by
  simp only [Layout.readRow?, Option.bind_eq_bind, Option.bind_eq_some_iff] at told
  obtain ⟨cell, -, ⟨values, r⟩, read, same⟩ := told
  cases same
  exact Value.types_readAll? read

end Row
end HeapStore
