/-! Names of the things a store holds: tables, pages, slots of pages, transactions. -/
namespace HeapStore

abbrev TableId := Nat

/-- Handed out in ascending order, so of two transactions the one with the lower id is older. -/
abbrev TxId := Nat

/-- Page `number` of a table file. -/
structure PageId where
  table : TableId
  number : Nat
  deriving DecidableEq, Inhabited

namespace PageId

/-- The byte of the table file at which the page starts, counted by sixty-four bits. -/
def offset (p : PageId) (pageSize : Nat) : Nat := p.number * pageSize % UInt64.size

def text (p : PageId) : String := s!"{p.table}:{p.number}"

/-- By table first. -/
def cmp (p q : PageId) : Ordering := (compare p.table q.table).then (compare p.number q.number)

end PageId

/-- The place of one stored row. -/
structure RecordId where
  page : PageId
  slot : Nat
  deriving DecidableEq

namespace RecordId

/-- Slots are numbered by sixteen bits in a record id; a slot beyond that wraps around. -/
def ofSlot (page : PageId) (slot : Nat) : RecordId := ⟨page, slot % UInt16.size⟩

def text (r : RecordId) : String := s!"{r.page.text}#{r.slot}"

end RecordId
end HeapStore
