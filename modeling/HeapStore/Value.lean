import HeapStore.Bytes.Cursor
import HeapStore.Failure
import HeapStore.Schema
import HeapStore.Text.Utf8

/-! Field values and their fixed width form on a page: a boolean is one byte, an integer four
bytes, a text its length in four bytes and then its UTF-8 padded with zeros to `textLimit`. -/
namespace HeapStore

inductive Value where
  | boolean (b : Bool)
  | integer (n : Int32)
  | text (s : String)
  deriving DecidableEq

namespace Value

def type : Value → FieldType
  | boolean _ => .boolean
  | integer _ => .integer
  | text _ => .text

def render : Value → String
  | boolean b => if b then "true" else "false"
  | integer n => toString n.toInt
  | text s => s

def checkSize : Value → Except Cause Unit
  | text s =>
    if s.utf8ByteSize > textLimit then .error (.valueTooLarge s.utf8ByteSize textLimit) else .ok ()
  | _ => .ok ()

/-- Refused if the buffer has no room for it, or if a text is over the limit. -/
def write? (w : Writer) : Value → Option Writer
  | boolean b => w.u8? (if b then 1 else 0)
  | integer n => w.i32? n
  | text s => do
    let bytes : Bytes := s.toUTF8
    let w ← w.u32? (.ofNat bytes.size)
    let w ← w.put? bytes
    if bytes.size ≤ textLimit then w.pad? (textLimit - bytes.size) else none

/-- Any bytes are a value: a byte other than 1 is false, a length over the limit counts as the
limit, and ill-formed UTF-8 is replaced. -/
def read? (r : Reader) : FieldType → Option (Value × Reader)
  | .boolean => do
    let (b, r) ← r.u8?
    return (boolean (b = 1), r)
  | .integer => do
    let (n, r) ← r.i32?
    return (integer n, r)
  | .text => do
    let (n, r) ← r.u32?
    let (bytes, r) ← r.take? textLimit
    return (text (.ofList (Utf8.decode (bytes.extract 0 n.toNat).data.toList)), r)

def writeAll? (w : Writer) (vs : List Value) : Option Writer := vs.foldlM write? w

def readAll? (r : Reader) : List FieldType → Option (List Value × Reader)
  | [] => some ([], r)
  | t :: ts => do
    let (v, r) ← read? r t
    let (vs, r) ← readAll? r ts
    return (v :: vs, r)

end Value
end HeapStore
