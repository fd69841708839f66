import HeapStore.Store.Paging

/-! Scans. Each page is read under a shared lock when the rows of the one before are used up. -/
namespace HeapStore.Store

def scan (r : ScanRef) : Action Scan := do return (← get).scans.getD r default

def setScan (r : ScanRef) (sc : Scan) : Action Unit :=
  modify fun s => { s with scans := s.scans.setIfInBounds r sc }

/-- A closed scan of a table. -/
def newScan (tx : TxId) (table : TableId) : Action ScanRef := do
  let ref ← .ofCause ((← get).catalog.ref table)
  let s ← get
  set { s with scans := s.scans.push { table := ref, tx } }
  return s.scans.size

/-- The rows of page `number` of the scanned table. -/
def fetchRows (sc : Scan) (number : Nat) : Action (List Row) := do
  let t := (← get).catalog.table sc.table
  let id : PageId := ⟨t.id, number⟩
  let h ← getPage sc.tx id .shared
  .ofOption (t.layout.rows? t.schema id (← page h.ref).bytes)

def pageCount (sc : Scan) : Action Nat := do .ofOption ((← get).catalog.table sc.table).pageCount?

/-- Starts over at page 0. If that can not be fetched, the rows that were left remain. -/
def openScan (r : ScanRef) : Action Unit := do
  let sc := { ← scan r with page := 0 }
  setScan r sc
  if (← pageCount sc) = 0 then setScan r { sc with rest := some [] }
  else setScan r { sc with rest := some (← fetchRows sc 0) }

/-- Moves on over at most `fuel` pages until there is a row to return. A page counts as passed
before it is fetched. -/
def seek (r : ScanRef) : (fuel : Nat) → Action Bool
  | 0 => return false
  | fuel + 1 => do
    let sc ← scan r
    match sc.rest with
    | none => return false
    | some (_ :: _) => return true
    | some [] =>
      if (← pageCount sc) ≤ sc.page + 1 then return false
      else
        let sc := { sc with page := sc.page + 1 }
        setScan r sc
        setScan r { sc with rest := some (← fetchRows sc sc.page) }
        seek r fuel

/-- Whether a row is left. A closed scan has none. -/
def hasNext (r : ScanRef) : Action Bool := do
  let sc ← scan r
  seek r (((← get).catalog.table sc.table).pages + 2)

def nextRow (r : ScanRef) : Action Row := do
  if ← hasNext r then
    let sc ← scan r
    match sc.rest with
    | some (row :: rest) =>
      setScan r { sc with rest := some rest }
      return row
    | _ => .fail .noMoreRows
  else .fail .noMoreRows

/-- The next row, if there is one. -/
def nextRow? (r : ScanRef) : Action (Option Row) := do
  if ← hasNext r then return some (← nextRow r) else return none

/-- The next rows, at most `n`. A failure on the way keeps the rows before it. -/
def takeRows (r : ScanRef) : (n : Nat) → Action (List Row × Option Failure)
  | 0 => return ([], none)
  | n + 1 => do
    match ← (nextRow? r).attempt with
    | .error f => return ([], some f)
    | .ok none => return ([], none)
    | .ok (some row) =>
      let later ← takeRows r n
      return (row :: later.1, later.2)

/-- All rows that are left. A table has no more rows than slots. -/
def allRows (r : ScanRef) : Action (List Row × Option Failure) := do
  let s ← get
  let t := s.catalog.table (s.scans.getD r default).table
  takeRows r (t.pages * t.layout.slots + 1)

def closeScan (r : ScanRef) : Action Unit := do setScan r { ← scan r with rest := none }

def rewind (r : ScanRef) : Action Unit := do
  closeScan r
  openScan r

end HeapStore.Store
