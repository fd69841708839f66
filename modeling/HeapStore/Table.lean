import HeapStore.Disk
import HeapStore.Layout
import HeapStore.Page

/-! Table files. Page `n` of a table lies at byte `n * pageSize` of its file; bytes after the last
complete page are not part of any page. The offset of a page is that byte for all pages that end where
files do (`offset_of_addressable`); what comes of the others is left out, and so are writes that the
system refuses, such as one to a disk that is full. -/
namespace HeapStore

structure Table where
  id : TableId
  /-- Name of the file in the directory. -/
  file : String
  schema : Schema
  pageSize : Nat
  /-- Length of the file when it was opened, raised by every write since. Whatever else happens to
  the file goes unnoticed. -/
  length : Nat
  deriving DecidableEq, Inhabited

namespace Table

def layout (t : Table) : Layout := .ofSchema t.schema t.pageSize

/-- Complete pages of the file, counted by thirty-two bits. -/
def pages (t : Table) : Nat := t.length / t.pageSize % UInt32.size

/-- There is no number of pages if they have no size. -/
def pageCount? (t : Table) : Option Nat := if t.pageSize = 0 then none else some t.pages

/-- Whether page `number` ends where files do. -/
def Addressable (t : Table) (number : Nat) : Prop := (number + 1) * t.pageSize < File.limit

theorem offset_of_addressable {t : Table} {id : PageId} (addressable : t.Addressable id.number) :
    id.offset t.pageSize = id.number * t.pageSize := by
  have ends : (id.number + 1) * t.pageSize < File.limit := addressable
  have below : id.number * t.pageSize ≤ (id.number + 1) * t.pageSize :=
    Nat.mul_le_mul_right _ (Nat.le_succ _)
  have limit : File.limit ≤ UInt64.size := by decide
  exact Nat.mod_eq_of_lt (by omega)

/-- The bytes of a page on disk. It is missing if the table does not count it among its pages, or
if the file was cut short. -/
def read (t : Table) (d : Disk) (id : PageId) : Except Stop Bytes :=
  if id.table ≠ t.id then .error (.ofCause (.noSuchPage id))
  else match t.pageCount? with
    | none => .error .crashed
    | some n =>
      if n ≤ id.number then .error (.ofCause (.noSuchPage id))
      else match (d.get? t.file).bind (·.read? (id.number * t.pageSize) t.pageSize) with
        | some bytes => .ok bytes
        | none => .error (.ofCause (.noSuchPage id))

/-- Writes bytes at the place of page `number`, extending the file if it ends before. The system is
taken to accept every write: the disk does not fill up, and the page is addressable. -/
def writeAt (t : Table) (d : Disk) (number : Nat) (bytes : Bytes) : Table × Disk :=
  let off := number * t.pageSize
  ({ t with length := max t.length (off + bytes.size) },
    d.insert t.file (((d.get? t.file).getD {}).write off bytes))

/-- Only a page of another table is refused. -/
def write (t : Table) (d : Disk) (p : Page) : Except Stop (Table × Disk) :=
  if p.id.table ≠ t.id then .error (.ofCause (.noSuchPage p.id))
  else .ok (t.writeAt d p.id.number p.bytes)

/-- Writes an empty page behind the last one. -/
def appendEmpty (t : Table) (d : Disk) : Table × Disk := t.writeAt d t.pages (.zeros t.pageSize)

/-- The page is made in memory first. -/
def appendEmpty? (t : Table) (d : Disk) : Option (Table × Disk) :=
  if t.pageSize < Bytes.limit then some (t.appendEmpty d) else none

/-- A row can be stored if its fields have the table's types. -/
def checkSchema (t : Table) (r : Row) : Except Cause Unit :=
  if r.schema.Agrees t.schema then .ok ()
  else .error (.schemaMismatch s!"table {t.id} stores {t.schema.text}, got {r.schema.text}")

/-- Creates an empty file. -/
def create (d : Disk) (id : TableId) (path : String) (schema : Schema) (pageSize : Nat) :
    Except FileError (Table × Disk) :=
  (d.create path).map fun (file, d) => (⟨id, file, schema, pageSize, 0⟩, d)

/-- Uses an existing file. -/
def load (d : Disk) (id : TableId) (path : String) (schema : Schema) (pageSize : Nat) :
    Except FileError Table :=
  (d.find path).map fun (file, f) => ⟨id, file, schema, pageSize, f.length⟩

end Table
end HeapStore
