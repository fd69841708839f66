/-! The shape of a table's rows. -/
namespace HeapStore

/-- Text longer than this many bytes of UTF-8 can not be stored. -/
def textLimit : Nat := 128

inductive FieldType where
  | boolean | integer | text
  deriving DecidableEq

namespace FieldType

/-- Bytes a value takes on a page. Text is its length followed by room for `textLimit` bytes. -/
def width : FieldType → Nat
  | boolean => 1
  | integer => 4
  | text => 4 + textLimit

def name : FieldType → String
  | boolean => "Boolean"
  | integer => "Integer"
  | text => "Text"

end FieldType

structure Field where
  type : FieldType
  name : Option String := none
  deriving DecidableEq

def Field.text (f : Field) : String := f.type.name ++ "(" ++ f.name.getD "null" ++ ")"

structure Schema where
  fields : List Field
  deriving DecidableEq, Inhabited

namespace Schema

def types (s : Schema) : List FieldType := s.fields.map Field.type

def ofTypes (ts : List FieldType) : Schema := ⟨ts.map fun t => ⟨t, none⟩⟩

/-- Two schemas agree if their types do; names do not count. -/
def Agrees (s t : Schema) : Prop := s.types = t.types

instance (s t : Schema) : Decidable (s.Agrees t) := inferInstanceAs (Decidable (s.types = t.types))

/-- Bytes a row takes on a page. -/
def width (s : Schema) : Nat := (s.types.map FieldType.width).foldr (· + ·) 0

/-- The first field of that name. -/
def indexOf? (s : Schema) (name : String) : Option Nat :=
  s.fields.findIdx? fun f => f.name = some name

def append (s t : Schema) : Schema := ⟨s.fields ++ t.fields⟩

instance : Append Schema := ⟨append⟩

def text (s : Schema) : String := ",".intercalate (s.fields.map Field.text)

theorem Agrees.width {s t : Schema} (h : s.Agrees t) : s.width = t.width := by
  unfold Schema.width
  rw [h]

end Schema
end HeapStore
