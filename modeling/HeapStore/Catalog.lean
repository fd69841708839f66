import HeapStore.Table

/-! The tables of a store, by id and by name. -/
namespace HeapStore

/-- Position of a table in `Catalog.opened`. -/
abbrev TableRef := Nat

structure TableEntry where
  ref : TableRef
  name : String
  primaryKey : String
  deriving DecidableEq

/-- Table ids are counted by thirty-two bits, and then from zero again. -/
def idAfter (id : TableId) : TableId := (id + 1) % UInt32.size

structure Catalog where
  /-- Every table that was ever registered. One that lost its id to a later table stays here for
  the scans that still read it. -/
  opened : Array Table := #[]
  nextId : TableId := 1
  entries : Assoc TableId TableEntry := {}
  idOf : Assoc String TableId := {}
  deriving DecidableEq

namespace Catalog

def table (c : Catalog) (r : TableRef) : Table := c.opened.getD r default

def update (c : Catalog) (r : TableRef) (t : Table) : Catalog :=
  { c with opened := c.opened.setIfInBounds r t }

/-- Reserves an id for a table that is about to be created. -/
def allocate (c : Catalog) : TableId × Catalog := (c.nextId, { c with nextId := idAfter c.nextId })

/-- Registers a table. It takes over its id and its name from earlier tables, and later ids are
kept clear of its own. -/
def add (c : Catalog) (t : Table) (name primaryKey : String) : Catalog where
  opened := c.opened.push t
  nextId := max c.nextId (idAfter t.id)
  entries := c.entries.insert t.id ⟨c.opened.size, name, primaryKey⟩
  idOf := c.idOf.insert name t.id

def entry (c : Catalog) (id : TableId) : Except Cause TableEntry :=
  match c.entries.get? id with
  | some e => .ok e
  | none => .error (.unknownTable id)

def ref (c : Catalog) (id : TableId) : Except Cause TableRef := (c.entry id).map TableEntry.ref

def byId (c : Catalog) (id : TableId) : Except Cause Table := (c.ref id).map c.table

def name (c : Catalog) (id : TableId) : Except Cause String := (c.entry id).map TableEntry.name

def primaryKey (c : Catalog) (id : TableId) : Except Cause String :=
  (c.entry id).map TableEntry.primaryKey

def id? (c : Catalog) (name : String) : Option TableId := c.idOf.get? name

/-- In ascending order. -/
def ids (c : Catalog) : List TableId := c.entries.keys.mergeSort (· ≤ ·)

end Catalog
end HeapStore
