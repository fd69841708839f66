import HeapStore.Value

/-! Rows: values that go with a schema, and the place where they are stored, if they are. -/
namespace HeapStore

structure Row where
  schema : Schema
  values : List Value
  record : Option RecordId := none
  deriving DecidableEq

namespace Row

/-- The type of a field is checked before its size. -/
def checkField (i : Nat) (v : Value) (f : Field) : Except Cause Unit :=
  if v.type = f.type then v.checkSize
  else .error (.schemaMismatch s!"field {i} is of type {f.type.name}, got {v.type.name}")

def checkFields : Nat → List Value → List Field → Except Cause Unit
  | i, v :: vs, f :: fs => checkField i v f >>= fun _ => checkFields (i + 1) vs fs
  | _, _, _ => .ok ()

/-- The number of values is checked first, then the fields in order. -/
def new (schema : Schema) (values : List Value) : Except Cause Row :=
  if values.length = schema.fields.length then
    (checkFields 0 values schema.fields).map fun _ => ⟨schema, values, none⟩
  else
    .error (.schemaMismatch s!"expected {schema.fields.length} values, got {values.length}")

/-- Rows are the same if their values are. -/
def sameValues (a b : Row) : Bool := a.values = b.values

/-- The fields of both. The result is not stored anywhere. -/
def append (a b : Row) : Row := ⟨a.schema ++ b.schema, a.values ++ b.values, none⟩

def text (r : Row) : String := "\t".intercalate (r.values.map Value.render)

def integer? (r : Row) (i : Nat) : Option Int32 :=
  match r.values[i]? with
  | some (.integer n) => some n
  | _ => none

def text? (r : Row) (i : Nat) : Option String :=
  match r.values[i]? with
  | some (.text s) => some s
  | _ => none

def boolean? (r : Row) (i : Nat) : Option Bool :=
  match r.values[i]? with
  | some (.boolean b) => some b
  | _ => none

/-- The row's bytes over the front of `buffer`, and how many there are. -/
def write? (r : Row) (buffer : Bytes) : Option Writer := Value.writeAll? ⟨buffer, 0⟩ r.values

end Row
end HeapStore
