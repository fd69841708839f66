import HeapStore.Assoc
import HeapStore.Failure
import HeapStore.File

/-! The directory of table files. Files are only ever added to it, and it holds no other
directories. A file is named by a path that starts in the directory. -/
namespace HeapStore

abbrev Disk := Assoc String File

/-- Where a path leads. -/
inductive Place where
  /-- A file of the directory, there or not. -/
  | entry (name : String)
  /-- The same, but with a separator behind the name, as only a directory can have. -/
  | closed (name : String)
  /-- Beyond a file of the directory, as if that were a directory. -/
  | beyond (name : String)
  /-- A directory, by no name of its own. -/
  | directory
  /-- Out of the directory, to something that is not there, by its first name and whether nothing
  but separators follows that. -/
  | outside (name : String) (closed : Bool)
  deriving DecidableEq

namespace Place

def separator : Char := '/'

/-- The text between separators. -/
def parts : List Char → List (List Char)
  | [] => [[]]
  | c :: cs =>
    if c = separator then [] :: parts cs
    else match parts cs with
      | p :: ps => (c :: p) :: ps
      | [] => [[c]]

/-- Whether a part of a path leads to where one is already. -/
def stays (p : List Char) : Bool := p = [] || p = ['.']

def leaves (p : List Char) : Bool := p = ['.', '.']

def closes (rest : List (List Char)) : Bool := rest ≠ [] && rest.all (· = [])

def ofOutside (ps : List (List Char)) : Place :=
  match ps.dropWhile fun p => stays p || leaves p with
  | [] => directory
  | p :: rest => outside (.ofList p) (closes rest)

def ofPath (path : String) : Place :=
  match parts path.toList with
  | [] :: p :: ps => ofOutside (p :: ps)
  | ps =>
    match ps.dropWhile stays with
    | [] => directory
    | p :: rest =>
      if leaves p then ofOutside rest
      else if rest = [] then entry (.ofList p)
      else if closes rest then closed (.ofList p)
      else beyond (.ofList p)

end Place

namespace Disk

/-- Bytes that the name of a file can have. -/
def nameLimit : Nat := 255

/-- Bytes that a path can have. With the path of the directory before it there would be too many
from 4096 on. -/
def pathLimit : Nat := 4064

/-- Bytes that the path of the directory can have. -/
def directoryLimit : Nat := 4095

/-- Directories that belong to the system. No others can be made in them. -/
def systemNames : List String := ["dev", "proc", "sys"]

/-- Whether a path from the root leads to a directory of the system. -/
def isSystem (path : String) : Bool :=
  match Place.parts path.toList with
  | [] :: ps =>
    match ps.dropWhile fun p => Place.stays p || Place.leaves p with
    | [] => false
    | p :: _ => String.ofList p ∈ systemNames
  | _ => false

/-- Tells whether the directory can be at a path. If it is not there it is made, with all that leads
to it. -/
def checkDirectory (path : String) : Except FileError Unit :=
  if '\x00' ∈ path.toList then .error .badName
  else if directoryLimit < path.utf8ByteSize then .error .nameTooLong
  else if (Place.parts path.toList).any fun p => nameLimit < (String.ofList p).utf8ByteSize then
    .error .nameTooLong
  else if isSystem path then .error .missing
  else .ok ()

def place (path : String) : Except FileError Place :=
  if '\x00' ∈ path.toList then .error .badName
  else if pathLimit < path.utf8ByteSize then .error .nameTooLong
  else .ok (.ofPath path)

/-- What there is under a name. -/
def look (d : Disk) (name : String) : Except FileError (Option File) :=
  if nameLimit < name.utf8ByteSize then .error .nameTooLong else .ok (d.get? name)

/-- The failure to go through a file as if it were a directory. -/
def through (d : Disk) (name : String) : FileError :=
  match d.look name with
  | .ok (some _) => .notDirectory
  | .ok none => .missing
  | .error e => e

/-- The name and the content of an existing file. -/
def find (d : Disk) (path : String) : Except FileError (String × File) := do
  match ← place path with
  | .entry name =>
    match ← d.look name with
    | some f => return (name, f)
    | none => .error .missing
  | .closed name | .beyond name => .error (d.through name)
  | .directory => .error .isDirectory
  | .outside name _ => .error (through {} name)

/-- Adds an empty file and tells its name. No name is looked up that a separator marks as one of a
directory. -/
def create (d : Disk) (path : String) : Except FileError (String × Disk) := do
  match ← place path with
  | .entry name =>
    match ← d.look name with
    | some _ => .error .alreadyThere
    | none => return (name, d.insert name {})
  | .closed _ => .error .isDirectory
  | .beyond name => .error (d.through name)
  | .directory => .error (if path = "" then .isDirectory else .alreadyThere)
  | .outside name closed => .error (if closed then .isDirectory else through {} name)

/-- Replaces the whole content of a file, which need not exist. -/
def put (d : Disk) (path : String) (content : Bytes) : Except FileError Disk := do
  match ← place path with
  | .entry name =>
    let _ ← d.look name
    return d.insert name (.ofBytes content)
  | .closed _ | .directory => .error .isDirectory
  | .beyond name => .error (d.through name)
  | .outside name closed => .error (if closed then .isDirectory else through {} name)

def setLength (d : Disk) (path : String) (n : Nat) : Except FileError Disk := do
  let (name, f) ← d.find path
  return d.insert name (f.setLength n)

end Disk
end HeapStore
