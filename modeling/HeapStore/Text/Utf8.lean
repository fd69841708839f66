/-! Reading bytes as UTF-8 without ever failing. A sequence that breaks off is replaced as a
whole: the longest part that could still have begun a character counts as one error and gives
one U+FFFD, and reading resumes with the byte that did not fit. -/
namespace HeapStore.Utf8

/-- What a lead byte announces: the range its second byte has to lie in (narrower than
`0x80..0xBF` where a longer form, a surrogate or a value past U+10FFFF would begin), how many
bytes follow in all, and the bits that the lead byte itself contributes. -/
structure Lead where
  low : Nat
  high : Nat
  follow : Nat
  bits : Nat

def lead? (b : Nat) : Option Lead :=
  if 0xC2 ≤ b ∧ b ≤ 0xDF then some ⟨0x80, 0xBF, 1, b - 0xC0⟩
  else if b = 0xE0 then some ⟨0xA0, 0xBF, 2, 0⟩
  else if b = 0xED then some ⟨0x80, 0x9F, 2, 0xD⟩
  else if 0xE1 ≤ b ∧ b ≤ 0xEF then some ⟨0x80, 0xBF, 2, b - 0xE0⟩
  else if b = 0xF0 then some ⟨0x90, 0xBF, 3, 0⟩
  else if b = 0xF4 then some ⟨0x80, 0x8F, 3, 4⟩
  else if 0xF1 ≤ b ∧ b ≤ 0xF3 then some ⟨0x80, 0xBF, 3, b - 0xF0⟩
  else none

def replacement : Char := '\uFFFD'

/-- Reads the `n` bytes that still belong to a character, the first of them between `low` and
`high`, and returns what is left with the character, or with U+FFFD if one does not fit. -/
def continuation (low high : Nat) : (n : Nat) → (bits : Nat) → List UInt8 → Char × List UInt8
  | 0, bits, rest => (Char.ofNat bits, rest)
  | _ + 1, _, [] => (replacement, [])
  | n + 1, bits, b :: rest =>
    if low ≤ b.toNat ∧ b.toNat ≤ high then
      continuation 0x80 0xBF n (bits * 64 + b.toNat % 64) rest
    else (replacement, b :: rest)

theorem length_continuation (low high n bits : Nat) (bs : List UInt8) :
    (continuation low high n bits bs).2.length ≤ bs.length := by
  fun_induction continuation low high n bits bs with
  | case1 => simp
  | case2 => simp
  | case3 => simp only [List.length_cons]; omega
  | case4 => simp

def character (b : UInt8) (rest : List UInt8) : Char × List UInt8 :=
  if b.toNat < 0x80 then (Char.ofNat b.toNat, rest)
  else match lead? b.toNat with
    | some l => continuation l.low l.high l.follow l.bits rest
    | none => (replacement, rest)

theorem length_character (b : UInt8) (rest : List UInt8) :
    (character b rest).2.length ≤ rest.length := by
  unfold character
  split
  · simp
  · split
    · exact length_continuation ..
    · simp

def decode : List UInt8 → List Char
  | [] => []
  | b :: rest => (character b rest).1 :: decode (character b rest).2
  termination_by bs => bs.length
  decreasing_by exact Nat.lt_succ_of_le (length_character b rest)

end HeapStore.Utf8
