/-! Finite maps as lists of pairs. A key is looked up at its first pair; `insert` and `erase`
leave no second pair behind, so `keys` of a map built by them has no duplicates. The order of
the pairs is not part of any answer. -/
namespace HeapStore

universe u v

structure Assoc (κ : Type u) (β : Type v) where
  pairs : List (κ × β) := []
  deriving DecidableEq

namespace Assoc
variable {κ : Type u} {β : Type v}

def keys (m : Assoc κ β) : List κ := m.pairs.map Prod.fst
def size (m : Assoc κ β) : Nat := m.pairs.length

variable [DecidableEq κ]

def get? (m : Assoc κ β) (k : κ) : Option β :=
  (m.pairs.find? (fun p => p.1 = k)).map Prod.snd

def contains (m : Assoc κ β) (k : κ) : Bool := (m.get? k).isSome

def erase (m : Assoc κ β) (k : κ) : Assoc κ β :=
  ⟨m.pairs.filter (fun p => p.1 ≠ k)⟩

def insert (m : Assoc κ β) (k : κ) (v : β) : Assoc κ β :=
  ⟨(k, v) :: (m.erase k).pairs⟩

@[simp] theorem get?_empty (k : κ) : (⟨[]⟩ : Assoc κ β).get? k = none := rfl

theorem get?_erase (m : Assoc κ β) (k l : κ) :
    (m.erase k).get? l = if l = k then none else m.get? l := by
  obtain ⟨ps⟩ := m
  simp only [get?, erase]
  induction ps with
  | nil => simp
  | cons p ps ih =>
    by_cases hk : p.1 = k
    · rw [List.filter_cons_of_neg (by simpa using hk), ih]
      by_cases hl : l = k
      · simp [hl]
      · have : p.1 ≠ l := fun h => hl (h.symm.trans hk)
        simp [hl, this]
    · rw [List.filter_cons_of_pos (by simpa using hk)]
      by_cases hp : p.1 = l
      · simp [hp, show l ≠ k from fun h => hk (hp.trans h)]
      · simpa [hp] using ih

theorem get?_insert (m : Assoc κ β) (k l : κ) (v : β) :
    (m.insert k v).get? l = if l = k then some v else m.get? l := by
  by_cases h : l = k
  · simp [insert, get?, h]
  · have hk : k ≠ l := fun e => h e.symm
    have := get?_erase m k l
    rw [if_neg h] at this
    rw [if_neg h, ← this]
    simp [insert, get?, hk]

end Assoc
end HeapStore
