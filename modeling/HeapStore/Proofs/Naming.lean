import HeapStore.Disk

/-! Names of files. Whatever path a file was found or made by, its name leads to it as well. -/
namespace HeapStore

namespace Place

theorem mem_parts {l p : List Char} (h : p ∈ parts l) {c : Char} (inside : c ∈ p) :
    c ∈ l ∧ c ≠ separator := by
  induction l generalizing p with
  | nil =>
    cases List.mem_singleton.mp h
    cases inside
  | cons d l ih =>
    unfold parts at h
    split at h
    · rcases List.mem_cons.mp h with rfl | later
      · cases inside
      · exact (ih later inside).imp_left (List.mem_cons_of_mem _)
    · rename_i other
      split at h
      · rename_i q qs found
        rcases List.mem_cons.mp h with rfl | later
        · rcases List.mem_cons.mp inside with rfl | inside
          · exact ⟨List.mem_cons_self .., other⟩
          · exact (ih (found ▸ List.mem_cons_self ..) inside).imp_left (List.mem_cons_of_mem _)
        · exact (ih (found ▸ List.mem_cons_of_mem _ later) inside).imp_left (List.mem_cons_of_mem _)
      · rcases List.mem_singleton.mp h with rfl
        cases List.mem_singleton.mp inside
        exact ⟨List.mem_cons_self .., other⟩

theorem parts_eq_singleton {p : List Char} (h : ∀ c ∈ p, c ≠ separator) : parts p = [p] := by
  induction p with
  | nil => rfl
  | cons c p ih =>
    rw [parts, if_neg (h c (List.mem_cons_self ..)), ih fun d later => h d (List.mem_cons_of_mem _ later)]

theorem ofOutside_ne_entry (ps : List (List Char)) (name : String) : ofOutside ps ≠ entry name := by
  unfold ofOutside
  split <;> simp

/-- The name of a file leads to itself. -/
theorem ofPath_of_entry {path name : String} (h : ofPath path = entry name) :
    ofPath name = entry name ∧ ∀ c ∈ name.toList, c ∈ path.toList := by
  unfold ofPath at h
  split at h
  · exact absurd h (ofOutside_ne_entry _ _)
  · split at h
    · cases h
    · rename_i p rest found
      split at h
      · exact absurd h (ofOutside_ne_entry _ _)
      · rename_i remains
        split at h
        · rename_i alone
          cases h
          have listed : p ∈ parts path.toList := by
            apply List.dropWhile_subset stays
            rw [found]
            exact List.mem_cons_self ..
          have goes := List.head_dropWhile_not stays (l := parts path.toList) (by simp [found])
          simp only [found, List.head_cons] at goes
          have single : parts p = [p] := parts_eq_singleton fun c inside => (mem_parts listed inside).2
          refine ⟨?_, fun c inside => ?_⟩
          · have walk : [p].dropWhile stays = [p] := List.dropWhile_cons_of_neg (by simp [goes])
            rw [ofPath, String.toList_ofList, single]
            cases p with
            | nil => cases goes
            | cons c p => simp only [walk, if_neg remains, if_true]
          · rw [String.toList_ofList] at inside
            exact (mem_parts listed inside).1
        · split at h <;> cases h

end Place

namespace Disk

variable {d d' : Disk} {path name : String} {f : File}

/-- A name that a file of the directory can be found by. -/
def Nameable (name : String) : Prop := place name = .ok (.entry name) ∧ name.utf8ByteSize ≤ nameLimit

theorem nameable_of_place (placed : place path = .ok (.entry name))
    (short : name.utf8ByteSize ≤ nameLimit) : Nameable name := by
  refine ⟨?_, short⟩
  unfold place at placed ⊢
  split at placed
  · cases placed
  · rename_i plain
    split at placed
    · cases placed
    · obtain ⟨same, inside⟩ := Place.ofPath_of_entry (Except.ok.inj placed)
      rw [if_neg fun zero => plain (inside _ zero),
        if_neg (Nat.not_lt_of_le (Nat.le_trans short (by decide))), same]

theorem look_eq_ok {f? : Option File} (looked : d.look name = .ok f?) :
    d.get? name = f? ∧ name.utf8ByteSize ≤ nameLimit := by
  unfold look at looked
  split at looked
  · cases looked
  · rename_i short
    cases looked
    exact ⟨rfl, Nat.le_of_not_lt short⟩

theorem find_eq_ok (found : d.find path = .ok (name, f)) :
    d.get? name = some f ∧ Nameable name := by
  simp only [find, bind, Except.bind, pure, Except.pure] at found
  split at found
  · cases found
  · rename_i placed
    split at found
    · split at found
      · cases found
      · rename_i looked
        split at found
        · cases found
          obtain ⟨there, short⟩ := look_eq_ok looked
          exact ⟨there, nameable_of_place placed short⟩
        · cases found
    all_goals cases found

theorem create_eq_ok (created : d.create path = .ok (name, d')) :
    d.get? name = none ∧ d' = d.insert name {} ∧ Nameable name := by
  simp only [create, bind, Except.bind, pure, Except.pure] at created
  split at created
  · cases created
  · rename_i placed
    split at created
    · split at created
      · cases created
      · rename_i looked
        split at created
        · cases created
        · cases created
          obtain ⟨absent, short⟩ := look_eq_ok looked
          exact ⟨absent, rfl, nameable_of_place placed short⟩
    all_goals cases created

theorem find_of_nameable (nameable : Nameable name) (there : d.get? name = some f) :
    d.find name = .ok (name, f) := by
  simp only [find, bind, Except.bind, pure, Except.pure, nameable.1, look,
    if_neg (Nat.not_lt_of_le nameable.2), there]

theorem create_of_nameable (nameable : Nameable name) (absent : d.get? name = none) :
    d.create name = .ok (name, d.insert name {}) := by
  simp only [create, bind, Except.bind, pure, Except.pure, nameable.1, look,
    if_neg (Nat.not_lt_of_le nameable.2), absent]

end Disk
end HeapStore
