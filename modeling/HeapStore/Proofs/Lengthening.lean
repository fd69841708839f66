import HeapStore.Proofs.Coding

/-! How long texts get by being read. One byte that is no UTF-8 becomes a U+FFFD, which takes three, so a
text may be longer than the bytes that it was read from, and then there is no room to write it again. -/
namespace HeapStore

namespace Utf8

/-- As few bytes as there have to be for a character to be read from them. -/
def least (c : Char) : Nat := if c = replacement then 1 else c.utf8Size

theorem least_replacement : least replacement = 1 := rfl

theorem least_le (c : Char) : least c ≤ c.utf8Size := by
  unfold least
  split
  · exact c.utf8Size_pos
  · exact Nat.le_refl _

theorem utf8Size_le (c : Char) : c.utf8Size ≤ 3 * least c := by
  unfold least
  split
  · rename_i same
    subst same
    decide
  · omega

/-- As few bytes as there have to be for a text to be read from them. -/
def leastOf : List Char → Nat
  | [] => 0
  | c :: cs => least c + leastOf cs

theorem utf8ByteSize_eq (s : String) : s.utf8ByteSize = (s.toList.flatMap String.utf8EncodeChar).length := by
  change s.toUTF8.size = _
  rw [toUTF8_eq, List.size_toByteArray]

theorem leastOf_le (cs : List Char) : leastOf cs ≤ (cs.flatMap String.utf8EncodeChar).length ∧
    (cs.flatMap String.utf8EncodeChar).length ≤ 3 * leastOf cs := by
  induction cs with
  | nil => exact ⟨Nat.le_refl 0, Nat.le_refl 0⟩
  | cons c cs ih =>
    have := least_le c
    have := utf8Size_le c
    rw [List.flatMap_cons, List.length_append, String.length_utf8EncodeChar, leastOf]
    omega

/-- Only a U+FFFD can be read from fewer bytes than it takes. -/
theorem leastOf_eq {cs : List Char} (whole : replacement ∉ cs) :
    leastOf cs = (cs.flatMap String.utf8EncodeChar).length := by
  induction cs with
  | nil => rfl
  | cons c cs ih =>
    rw [List.mem_cons, not_or] at whole
    rw [List.flatMap_cons, List.length_append, String.length_utf8EncodeChar, leastOf, ih whole.2, least,
      if_neg (Ne.symm whole.1)]

/-- The codes of short characters are small. -/
theorem utf8Size_ofNat_le (m : Nat) : (m < 0x80 → (Char.ofNat m).utf8Size ≤ 1) ∧
    (m < 0x800 → (Char.ofNat m).utf8Size ≤ 2) ∧ (m < 0x10000 → (Char.ofNat m).utf8Size ≤ 3) := by
  have le : (Char.ofNat m).toNat ≤ m := by
    by_cases valid : m.isValidChar
    · rw [Char.ofNat, dif_pos valid]
      exact Nat.le_refl m
    · rw [Char.ofNat, dif_neg valid]
      exact Nat.zero_le m
  have size : (Char.ofNat m).utf8Size = if (Char.ofNat m).toNat ≤ 0x7F then 1
      else if (Char.ofNat m).toNat ≤ 0x7FF then 2 else if (Char.ofNat m).toNat ≤ 0xFFFF then 3 else 4 := rfl
  grind

/-- What is read of a character uses up the bytes that it is made of, `k` of them before these. -/
theorem continuation_spends {low high n bits k : Nat} {bs : List UInt8}
    (size : ∀ m < (bits + 1) <<< (6 * n), (Char.ofNat m).utf8Size ≤ n + k) (led : 0 < k) :
    least (continuation low high n bits bs).1 + (continuation low high n bits bs).2.length ≤
      bs.length + k := by
  -- each byte adds six bits to the code, so the bound on what is left to come is the same all the way
  fun_induction continuation low high n bits bs generalizing k with
  | case1 low high bits rest =>
    have := size bits (by omega)
    have := least_le (Char.ofNat bits)
    dsimp only
    omega
  | case2 =>
    rw [least_replacement]
    exact Nat.le_trans led (Nat.le_add_left ..)
  | case3 low high n bits b rest fits ih =>
    have more : (bits * 64 + b.toNat % 64 + 1) <<< (6 * n) ≤ (bits + 1) <<< (6 * (n + 1)) := by
      rw [show 6 * (n + 1) = 6 + 6 * n by omega, Nat.shiftLeft_add, Nat.shiftLeft_eq _ (6 * n),
        Nat.shiftLeft_eq _ (6 * n), Nat.shiftLeft_eq _ 6]
      exact Nat.mul_le_mul_right _ (by omega)
    have spent := ih (k := k + 1) (fun m below => ?_) (Nat.succ_pos k)
    · rw [List.length_cons]
      omega
    · have := size m (Nat.lt_of_lt_of_le below more)
      omega
  | case4 =>
    dsimp only
    rw [least_replacement]
    omega

theorem bits_of_lead? {b : Nat} {l : Lead} (lead : lead? b = some l) :
    l.follow = 1 ∧ l.bits < 32 ∨ l.follow = 2 ∧ l.bits < 16 ∨ l.follow = 3 := by
  unfold lead? at lead
  grind

theorem character_spends (b : UInt8) (rest : List UInt8) :
    least (character b rest).1 + (character b rest).2.length ≤ rest.length + 1 := by
  unfold character
  split
  · have := least_le (Char.ofNat b.toNat)
    have := (utf8Size_ofNat_le b.toNat).1 (by assumption)
    dsimp only
    omega
  · split
    · rename_i l lead
      -- as many bytes follow as the characters take that the lead byte can begin
      refine continuation_spends (fun m below => ?_) Nat.one_pos
      obtain ⟨follow, bits⟩ | ⟨follow, bits⟩ | follow := bits_of_lead? lead
      · rw [follow, Nat.shiftLeft_eq] at below
        rw [follow]
        exact (utf8Size_ofNat_le m).2.1 (by omega)
      · rw [follow, Nat.shiftLeft_eq] at below
        rw [follow]
        exact (utf8Size_ofNat_le m).2.2 (by omega)
      · rw [follow]
        exact Char.utf8Size_le_four _
    · dsimp only
      rw [least_replacement]
      omega

theorem decode_spends (bs : List UInt8) : leastOf (decode bs) ≤ bs.length := by
  fun_induction decode bs with
  | case1 => exact Nat.le_refl 0
  | case2 b rest ih =>
    have := character_spends b rest
    rw [leastOf, List.length_cons]
    omega

/-- No fewer bytes do. -/
theorem exists_decode (cs : List Char) : ∃ bs, bs.length = leastOf cs ∧ decode bs = cs := by
  induction cs with
  | nil => exact ⟨[], rfl, by rw [decode]⟩
  | cons c cs ih =>
    obtain ⟨bs, size, read⟩ := ih
    by_cases same : c = replacement
    · refine ⟨0xFF :: bs, ?_, ?_⟩
      · rw [List.length_cons, size, same, leastOf, least_replacement, Nat.add_comm]
      · rw [decode, same, ← read]
        rfl
    · refine ⟨String.utf8EncodeChar c ++ bs, ?_, by rw [decode_encode_cons, read]⟩
      rw [List.length_append, size, leastOf, least, if_neg same, String.length_utf8EncodeChar]

end Utf8

namespace Bytes

variable {a b new : Bytes}

theorem slice?_append (a new b : Bytes) : (a ++ (new ++ b)).slice? a.size new.size = some new := by
  refine slice?_eq_some_iff.mpr ⟨?_, rfl, fun i below => ?_⟩
  · simp only [ByteArray.size_append]
    omega
  · rw [byte?_append, if_neg (by omega), Nat.add_sub_cancel_left, byte?_append, if_pos below]

end Bytes

namespace Reader

theorem take?_append (a new b : Bytes) : (Reader.mk (a ++ (new ++ b)) a.size).take? new.size =
    some (new, ⟨a ++ (new ++ b), a.size + new.size⟩) := by
  rw [take?, Bytes.slice?_append]
  rfl

theorem u32?_append (a b : Bytes) (n : UInt32) : (Reader.mk (a ++ (.ofUInt32 n ++ b)) a.size).u32? =
    some (n, ⟨a ++ (.ofUInt32 n ++ b), a.size + 4⟩) := by
  have taken := take?_append a (.ofUInt32 n) b
  rw [Bytes.size_ofUInt32] at taken
  rw [u32?, taken]
  exact congrArg (fun m => some (m, _)) (Bytes.toUInt32_ofUInt32 n)

end Reader

namespace Value

variable {v : Value} {vs : List Value} {w : Writer} {r r' : Reader} {t : FieldType} {s : String}

/-- There are few enough bytes that a text could be read from. -/
def Legible : Value → Prop
  | text s => Utf8.leastOf s.toList ≤ textLimit
  | _ => True

instance : (v : Value) → Decidable v.Legible
  | boolean _ | integer _ => inferInstanceAs (Decidable True)
  | text s => inferInstanceAs (Decidable (Utf8.leastOf s.toList ≤ textLimit))

theorem checkSize_text_iff : (text s).checkSize = .ok () ↔ s.utf8ByteSize ≤ textLimit := by
  rw [checkSize]
  split
  · rename_i long
    simp only [reduceCtorEq, false_iff]
    omega
  · rename_i short
    simp only [true_iff]
    omega

theorem legible_of_short (short : v.checkSize = .ok ()) : v.Legible := by
  cases v with
  | boolean b => trivial
  | integer n => trivial
  | text s =>
    refine Nat.le_trans (Utf8.leastOf_le s.toList).1 ?_
    rw [← Utf8.utf8ByteSize_eq]
    exact checkSize_text_iff.mp short

/-- A text grows by being read only where it gets a U+FFFD. -/
theorem Legible.short (legible : v.Legible) (whole : ∀ s, v = text s → Utf8.replacement ∉ s.toList) :
    v.checkSize = .ok () := by
  cases v with
  | boolean b => rfl
  | integer n => rfl
  | text s =>
    rw [checkSize_text_iff, Utf8.utf8ByteSize_eq, ← Utf8.leastOf_eq (whole s rfl)]
    exact legible

theorem Legible.size_le (legible : (text s).Legible) : s.utf8ByteSize ≤ 3 * textLimit := by
  rw [Utf8.utf8ByteSize_eq]
  exact Nat.le_trans (Utf8.leastOf_le s.toList).2 (Nat.mul_le_mul_left 3 legible)

theorem legible_read? (told : read? r t = some (v, r')) : v.Legible := by
  cases t with
  | boolean | integer =>
    simp only [read?, Option.bind_eq_bind, Option.bind_eq_some_iff] at told
    obtain ⟨_, -, same⟩ := told
    cases same
    trivial
  | text =>
    simp only [read?, Option.bind_eq_bind, Option.bind_eq_some_iff] at told
    obtain ⟨⟨n, x⟩, -, ⟨bytes, y⟩, taken, same⟩ := told
    obtain ⟨slice, cut, cut'⟩ := Option.map_eq_some_iff.mp taken
    cases cut'
    cases same
    rw [Legible, String.toList_ofList]
    refine Nat.le_trans (Utf8.decode_spends _) ?_
    have size : bytes.size = textLimit := Bytes.size_slice cut
    dsimp only
    rw [Array.length_toList, ByteArray.size_data, ByteArray.size_extract]
    omega

theorem legible_readAll? {ts : List FieldType} (told : readAll? r ts = some (vs, r')) :
    ∀ v ∈ vs, v.Legible := by
  induction ts generalizing r vs with
  | nil =>
    cases told
    exact fun v never => by cases never
  | cons t ts ih =>
    simp only [readAll?, Option.bind_eq_bind, Option.bind_eq_some_iff] at told
    obtain ⟨⟨v, x⟩, first, ⟨us, y⟩, rest, same⟩ := told
    cases same
    exact List.forall_mem_cons.mpr ⟨legible_read? first, ih rest⟩

/-- The value is read from these bytes, whatever is before and behind them. -/
def ReadFrom (v : Value) (bytes : Bytes) : Prop := bytes.size = v.type.width ∧ ∀ a b : Bytes,
  read? ⟨a ++ (bytes ++ b), a.size⟩ v.type = some (v, ⟨a ++ (bytes ++ b), a.size + bytes.size⟩)

theorem readFrom_boolean (x : Bool) : (boolean x).ReadFrom (bytes (boolean x)) := by
  refine ⟨rfl, fun a b => ?_⟩
  have byte : (a ++ (bytes (boolean x) ++ b)).byte? a.size = some (if x then 1 else 0) := by
    rw [Bytes.byte?_append, if_neg (Nat.lt_irrefl _), Nat.sub_self, Bytes.byte?_append, if_pos]
    · rfl
    · exact Nat.one_pos
  simp only [type, read?, Reader.u8?, byte]
  cases x <;> rfl

theorem readFrom_integer (n : Int32) : (integer n).ReadFrom (bytes (integer n)) := by
  refine ⟨rfl, fun a b => ?_⟩
  simp only [type, read?, Reader.i32?, bytes, Reader.u32?_append]
  simp

/-- Bytes with as many zeros behind them as a text has room for. -/
def padded (bs : List UInt8) : Bytes := ⟨⟨bs⟩⟩ ++ .zeros (textLimit - bs.length)

theorem size_padded {bs : List UInt8} (few : bs.length ≤ textLimit) : (padded bs).size = textLimit := by
  rw [padded, ByteArray.size_append, Bytes.size_zeros]
  change bs.length + _ = _
  omega

theorem extract_padded (bs : List UInt8) : (padded bs).extract 0 bs.length = ⟨⟨bs⟩⟩ :=
  ByteArray.extract_append_eq_left rfl

/-- Any bytes are the text that they decode to. -/
theorem readFrom_text {bs : List UInt8} (few : bs.length ≤ textLimit) :
    (text (.ofList (Utf8.decode bs))).ReadFrom (.ofUInt32 (.ofNat bs.length) ++ padded bs) := by
  have count : (UInt32.ofNat bs.length).toNat = bs.length := by
    rw [UInt32.toNat_ofNat', Nat.mod_eq_of_lt (Nat.lt_of_le_of_lt few (by decide))]
  have long := size_padded few
  refine ⟨?_, fun a b => ?_⟩
  · rw [ByteArray.size_append, Bytes.size_ofUInt32, long]
    rfl
  · have taken := Reader.take?_append (a ++ .ofUInt32 (.ofNat bs.length)) (padded bs) b
    rw [ByteArray.size_append, Bytes.size_ofUInt32, long, ByteArray.append_assoc] at taken
    rw [ByteArray.append_assoc]
    simp only [type, read?, Reader.u32?_append, Option.bind_eq_bind, Option.bind_some, taken, count,
      extract_padded, ByteArray.size_append, Bytes.size_ofUInt32, long]
    rw [Nat.add_assoc]
    rfl

theorem Legible.exists_readFrom (legible : v.Legible) : ∃ bytes, v.ReadFrom bytes := by
  cases v with
  | boolean x => exact ⟨_, readFrom_boolean x⟩
  | integer n => exact ⟨_, readFrom_integer n⟩
  | text s =>
    obtain ⟨bs, size, read⟩ := Utf8.exists_decode s.toList
    have found := readFrom_text (size ▸ legible : bs.length ≤ textLimit)
    rw [read, String.ofList_toList] at found
    exact ⟨_, found⟩

theorem exists_readAll? (legible : ∀ v ∈ vs, v.Legible) : ∃ bytes : Bytes,
    bytes.size = span (vs.map type) ∧
    ∀ a b : Bytes, readAll? ⟨a ++ (bytes ++ b), a.size⟩ (vs.map type) =
      some (vs, ⟨a ++ (bytes ++ b), a.size + bytes.size⟩) := by
  induction vs with
  | nil => exact ⟨.empty, rfl, fun a b => rfl⟩
  | cons v vs ih =>
    obtain ⟨first, size, read⟩ := (legible v List.mem_cons_self).exists_readFrom
    obtain ⟨rest, size', read'⟩ := ih fun u later => legible u (List.mem_cons_of_mem v later)
    refine ⟨first ++ rest, ?_, fun a b => ?_⟩
    · rw [ByteArray.size_append, size, size']
      rfl
    · -- what is read first is what is before the rest
      have later := read' (a ++ first) b
      rw [ByteArray.size_append, ByteArray.append_assoc] at later
      rw [ByteArray.append_assoc]
      simp only [List.map_cons, readAll?, read, later, Option.bind_eq_bind, Option.bind_some,
        ByteArray.size_append]
      rw [Nat.add_assoc]
      rfl

theorem write?_of_long (long : v.checkSize ≠ .ok ()) (w : Writer) : write? w v = none := by
  cases v with
  | boolean b => exact absurd rfl long
  | integer n => exact absurd rfl long
  | text s =>
    have long : ¬s.toUTF8.size ≤ textLimit := fun short => long (checkSize_text_iff.mpr short)
    simp only [write?, if_neg long, Option.bind_eq_bind, Option.bind_fun_none]

theorem writeAll?_of_long (there : v ∈ vs) (long : v.checkSize ≠ .ok ()) (w : Writer) :
    writeAll? w vs = none := by
  induction vs generalizing w with
  | nil => cases there
  | cons u vs ih =>
    rw [writeAll?, List.foldlM_cons]
    rcases List.mem_cons.mp there with rfl | later
    · rw [write?_of_long long]
      rfl
    · exact Option.bind_eq_none_iff.mpr fun x _ => ih later x

end Value

namespace Row

variable {row : Row}

/-- All of its values can be read from a page. -/
def Legible (row : Row) : Prop := ∀ v ∈ row.values, v.Legible

theorem Sized.legible (sized : row.Sized) : row.Legible := fun v there => Value.legible_of_short (sized v there)

theorem Legible.append {a b : Row} (ha : a.Legible) (hb : b.Legible) : (a.append b).Legible :=
  fun v there => (List.mem_append.mp there).elim (ha v) (hb v)

theorem legible_readRow? {l : Layout} {s : Schema} {id : PageId} {page : Bytes} {i : Nat}
    (told : l.readRow? s id page i = some row) : row.Legible := by
  simp only [Layout.readRow?, Option.bind_eq_bind, Option.bind_eq_some_iff] at told
  obtain ⟨cell, -, ⟨values, r⟩, read, same⟩ := told
  cases same
  exact Value.legible_readAll? read

end Row
end HeapStore
