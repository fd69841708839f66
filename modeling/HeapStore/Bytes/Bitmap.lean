import HeapStore.Bytes

/-! A buffer as a row of bits, the least significant bit of each byte first. Bits past the end
read as clear, and setting one there changes nothing. -/
namespace HeapStore.Bytes

def bit (b : Bytes) (i : Nat) : Bool := ((b.byte? (i / 8)).getD 0).toBitVec.getLsbD (i % 8)

def withBit (x : UInt8) (k : Nat) (on : Bool) : UInt8 :=
  if on then .ofBitVec (x.toBitVec ||| .twoPow 8 k) else .ofBitVec (x.toBitVec &&& ~~~.twoPow 8 k)

def setBit (b : Bytes) (i : Nat) (on : Bool) : Bytes :=
  b.set (i / 8) (withBit ((b.byte? (i / 8)).getD 0) (i % 8) on)

@[simp] theorem size_setBit (b : Bytes) (i : Nat) (on : Bool) : (b.setBit i on).size = b.size := by
  simp [setBit]

/-- The place after the bytes with all bits set that follow one another from byte `i` on, of which
`count` are looked at. -/
def onesFrom (b : Bytes) : (count i : Nat) → Nat
  | 0, i => i
  | count + 1, i => if (b.byte? i).getD 0 = 255 then onesFrom b count (i + 1) else i

theorem onesFrom_le (b : Bytes) (count i : Nat) : b.onesFrom count i ≤ i + count := by
  induction count generalizing i with
  | zero => exact Nat.le_refl _
  | succ count ih =>
    unfold onesFrom
    split
    · have := ih (i + 1)
      omega
    · omega

theorem byte?_of_onesFrom {b : Bytes} {count i j : Nat} (h : j < b.onesFrom count i)
    (from_i : i ≤ j) : (b.byte? j).getD 0 = 255 := by
  induction count generalizing i with
  | zero =>
    simp only [onesFrom] at h
    omega
  | succ count ih =>
    unfold onesFrom at h
    split at h
    · by_cases here : j = i
      · rwa [here]
      · exact ih h (by omega)
    · omega

theorem bit_of_ones {b : Bytes} {k : Nat} (ones : (b.byte? (k / 8)).getD 0 = 255) : b.bit k = true := by
  have : ∀ j : Fin 8, (255 : UInt8).toBitVec.getLsbD j = true := by decide
  rw [bit, ones]
  exact this ⟨k % 8, Nat.mod_lt _ (by decide)⟩

theorem bit_of_onesFrom (b : Bytes) {count i k : Nat} (h : k / 8 < b.onesFrom count i)
    (from_i : i ≤ k / 8) : b.bit k = true :=
  bit_of_ones (byte?_of_onesFrom h from_i)

theorem getLsbD_withBit (x : UInt8) (k j : Nat) (on : Bool) (hj : j < 8) :
    (withBit x k on).toBitVec.getLsbD j = if k = j then on else x.toBitVec.getLsbD j := by
  by_cases h : k = j
  · cases on <;> simp [withBit, h, hj]
  · have h' : j ≠ k := fun e => h e.symm
    cases on <;> simp [withBit, h, h', hj]

theorem bit_setBit (b : Bytes) (i j : Nat) (on : Bool) (h : i / 8 < b.size) :
    (b.setBit i on).bit j = if i = j then on else b.bit j := by
  simp only [bit, setBit, byte?_set]
  by_cases hij : i / 8 = j / 8
  · rw [if_pos ⟨hij, hij ▸ h⟩, Option.getD_some, hij,
      getLsbD_withBit _ _ _ _ (Nat.mod_lt _ (by decide))]
    by_cases hm : i % 8 = j % 8
    · rw [if_pos hm, if_pos (by omega)]
    · rw [if_neg hm, if_neg (fun e => hm (by rw [e]))]
  · rw [if_neg (fun e => hij e.1), if_neg (fun e => hij (by rw [e]))]

end HeapStore.Bytes
