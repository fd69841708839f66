import HeapStore.Proofs.Slotting

/-! The room on a page. A layout has as many slots as fit, as long as the bits of the page can be counted, and
nothing that is done with a page leaves it, whatever its bytes are. -/
namespace HeapStore
namespace Layout

variable {l : Layout} {s : Schema} {row : Row} {page : Bytes} {i : Nat}

/-- A row that can be on a page of the schema. -/
structure Fit (s : Schema) (row : Row) : Prop where
  sized : row.Sized
  typed : row.Typed
  agrees : row.schema.Agrees s

theorem fit_of_new {t : Schema} {values : List Value} (made : Row.new t values = .ok row) (agrees : t.Agrees s) :
    Fit s row where
  sized := Row.sized_new made
  typed := Row.typed_new made
  agrees := by
    obtain ⟨rfl, -, -⟩ := Row.new_eq_ok made
    exact agrees

theorem Fit.types (h : Fit s row) : row.values.map Value.type = s.types := h.typed.trans h.agrees

theorem Fit.width (h : Fit s row) : Value.span (row.values.map Value.type) = s.width := by
  rw [h.types]
  rfl

end Layout
end HeapStore
