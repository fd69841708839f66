import HeapStore.Id

/-! Why an operation failed, what it was doing at the time, and the wording of both. -/
namespace HeapStore

/-- The failures that the store itself raises. -/
inductive Cause where
  /-- A lock was not granted. The transaction has to be aborted and may be tried again. -/
  | aborted (tx : TxId)
  | poolExhausted (capacity : Nat)
  | noSuchPage (page : PageId)
  | noFreeSlot (table : TableId)
  | noSuchRow (record : RecordId)
  | neverStored
  | schemaMismatch (detail : String)
  | unknownTable (table : TableId)
  | noMoreRows
  | readOnly (page : PageId)
  | valueTooLarge (size limit : Nat)
  deriving DecidableEq

namespace Cause

def text : Cause → String
  | aborted tx => s!"transaction {tx} aborted while waiting for a lock"
  | poolExhausted n => s!"buffer pool exhausted: all {n} cached pages are dirty"
  | noSuchPage p => s!"page {p.text} does not exist in its table file"
  | noFreeSlot t => s!"no free slot for a tuple in table {t}"
  | noSuchRow r => s!"no tuple stored at {r.text}"
  | neverStored => "tuple has no record id"
  | schemaMismatch d => s!"tuple does not match the table's tuple descriptor: {d}"
  | unknownTable t => s!"no table with id {t}"
  | noMoreRows => "no more tuples"
  | readOnly p => s!"page {p.text} was fetched read only"
  | valueTooLarge size limit => s!"value of {size} bytes exceeds the limit of {limit} bytes"

end Cause

/-- The failures of the directory that holds the table files. -/
inductive FileError where
  | alreadyThere
  | missing
  | notDirectory
  | isDirectory
  | nameTooLong
  | badName
  deriving DecidableEq

def FileError.text : FileError → String
  | alreadyThere => "File exists (os error 17)"
  | missing => "No such file or directory (os error 2)"
  | notDirectory => "Not a directory (os error 20)"
  | isDirectory => "Is a directory (os error 21)"
  | nameTooLong => "File name too long (os error 36)"
  | badName => "file name contained an unexpected NUL byte"

inductive Reason where
  | cause (c : Cause)
  | file (e : FileError)
  | other (text : String)
  deriving DecidableEq

def Reason.text : Reason → String
  | cause c => c.text
  | file e => e.text
  | other t => t

/-- What was being done when something failed. -/
inductive Activity where
  | loading (page : PageId)
  | flushing (page : PageId)
  | restoring (page : PageId)
  | creatingTable (table : TableId)
  | openingTable (table : TableId)
  | other (text : String)
  deriving DecidableEq

def Activity.text : Activity → String
  | loading p => s!"Failed to load page {p.text} into the buffer pool"
  | flushing p => s!"Failed to flush page {p.text}"
  | restoring p => s!"Failed to restore page {p.text}"
  | creatingTable t => s!"Failed to create data file for table {t}"
  | openingTable t => s!"Could not read data for table {t}"
  | other t => t

/-- A reason and the activities around it, the innermost one first. -/
structure Failure where
  reason : Reason
  during : List Activity := []
  deriving DecidableEq

namespace Failure

def ofCause (c : Cause) : Failure := ⟨.cause c, []⟩

def within (f : Failure) (a : Activity) : Failure := { f with during := f.during ++ [a] }

def cause? (f : Failure) : Option Cause :=
  match f.reason with
  | .cause c => some c
  | _ => none

def isAborted (f : Failure) : Bool :=
  match f.cause? with
  | some (.aborted _) => true
  | _ => false

/-- All texts, the outermost one first. -/
def texts (f : Failure) : List String := (f.during.map Activity.text).reverse ++ [f.reason.text]

def headline (f : Failure) : String := f.texts.headD ""

def text (f : Failure) : String := ": ".intercalate f.texts

end Failure

/-- How an operation can end without a result. A crash is the use of a byte, frame or field that
does not exist, a division by a page size of zero, or going on forever. -/
inductive Stop where
  | failed (f : Failure)
  | crashed
  deriving DecidableEq

def Stop.ofCause (c : Cause) : Stop := .failed (.ofCause c)

/-- A step that crashes has no value. -/
def orCrash {α : Type} : Option α → Except Stop α
  | some a => .ok a
  | none => .error .crashed

end HeapStore
