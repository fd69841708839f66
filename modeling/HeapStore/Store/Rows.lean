import HeapStore.Store.Paging

/-! Storing and removing rows. -/
namespace HeapStore.Store

/-- Puts a row into page `number` of a table if it has a free slot. -/
def insertInto (t : Table) (tx : TxId) (row : Row) (number : Nat) :
    Action (Option (PageRef × RecordId)) := do
  let id : PageId := ⟨t.id, number⟩
  let r ← getPageForUpdate tx id
  match ← .ofOption (t.layout.insert? (← page r).bytes row.values) with
  | (some slot, bytes) =>
    updatePool (·.update r fun p => { p with bytes })
    return some (r, ⟨id, slot⟩)
  | (none, _) => return none

/-- Tries `count` pages from page `number` on. -/
def insertFrom (t : Table) (tx : TxId) (row : Row) :
    (count number : Nat) → Action (Option (PageRef × RecordId))
  | 0, _ => return none
  | count + 1, number => do
    match ← insertInto t tx row number with
    | some place => return some place
    | none => insertFrom t tx row count (number + 1)

def appendPage (ref : TableRef) : Action Unit := do
  let s ← get
  let appended ← .ofOption ((s.catalog.table ref).appendEmpty? s.disk)
  set { s with catalog := s.catalog.update ref appended.1, disk := appended.2 }

/-- Tries the pages from page `number` on, and behind them at most `appends` new ones. A search that
needs more of them would never end, which counts as a crash. -/
def insertGrowing (ref : TableRef) (tx : TxId) (row : Row) :
    (appends number : Nat) → Action (PageRef × RecordId)
  | appends, number => do
    let t := (← get).catalog.table ref
    match ← insertFrom t tx row (t.pages - number) number with
    | some place => return place
    | none =>
      match appends with
      | 0 => .crash
      | appends + 1 => do
        appendPage ref
        insertGrowing ref tx row appends (max number t.pages)

/-- Stores a row in the first free slot of the first page that has one, locking every page on the
way, and tells the changed image and the place. The image is not marked dirty. A new page is full
only if the pool still caches an older table's page under its id. So if more pages are appended than
the pool can hold, the table is at its last page number and appending does not add to its pages. -/
def placeRow (ref : TableRef) (tx : TxId) (row : Row) : Action (PageRef × RecordId) := do
  let s ← get
  let t := s.catalog.table ref
  .ofCause (t.checkSchema row)
  if t.layout.slots = 0 then .fail (.noFreeSlot t.id)
  else insertGrowing ref tx row (s.pool.capacity + 1) 0

/-- Frees the slot of a row of this table and tells the changed image, which is not marked dirty. -/
def clearSlot (ref : TableRef) (tx : TxId) (record? : Option RecordId) : Action PageRef := do
  let t := (← get).catalog.table ref
  match record? with
  | none => .fail .neverStored
  | some record =>
    if record.page.table ≠ t.id then .fail (.noSuchRow record)
    else
      let r ← getPageForUpdate tx record.page
      match ← .ofOption (t.layout.remove? (← page r).bytes record.slot) with
      | (true, bytes) =>
        updatePool (·.update r fun p => { p with bytes })
        return r
      | (false, _) => .fail (.noSuchRow record)

/-- Adds a row to a table and tells where it is stored. -/
def insertRow (tx : TxId) (table : TableId) (row : Row) : Action RecordId := do
  let ref ← .ofCause ((← get).catalog.ref table)
  let placed ← placeRow ref tx row
  keepDirty tx placed.1
  return placed.2

/-- Removes the row stored at a place. -/
def deleteRow (tx : TxId) (record? : Option RecordId) : Action Unit := do
  match record? with
  | none => .fail .neverStored
  | some record =>
    let ref ← .ofCause ((← get).catalog.ref record.page.table)
    let r ← clearSlot ref tx record
    keepDirty tx r

end HeapStore.Store
