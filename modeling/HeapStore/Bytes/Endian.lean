import HeapStore.Bytes

/-! Thirty-two bit words as four bytes, the most significant one first. -/
namespace HeapStore.Bytes

def ofUInt32 (w : UInt32) : Bytes :=
  ⟨#[.ofNat (w.toNat / 0x1000000), .ofNat (w.toNat / 0x10000), .ofNat (w.toNat / 0x100),
    .ofNat w.toNat]⟩

/-- The number whose base 256 digits are the bytes, wrapped to 32 bits. -/
def toUInt32 (b : Bytes) : UInt32 :=
  .ofNat (b.data.toList.foldl (fun n d => n * 256 + d.toNat) 0)

@[simp] theorem size_ofUInt32 (w : UInt32) : (ofUInt32 w).size = 4 := rfl

theorem toUInt32_ofUInt32 (w : UInt32) : toUInt32 (ofUInt32 w) = w := by
  apply UInt32.toNat_inj.mp
  have := w.toNat_lt
  simp only [toUInt32, ofUInt32, List.foldl_cons, List.foldl_nil, UInt32.toNat_ofNat',
    UInt8.toNat_ofNat']
  omega

end HeapStore.Bytes
