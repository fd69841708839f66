import HeapStore.Proofs.Filing
import HeapStore.Session

/-! The same steps on a store without a pool, in which every page that a table has is at hand. What
the pool adds to that is told apart by comparison with it. -/
namespace HeapStore

structure Plain where
  /-- Whether a request for a lock ever gives up. -/
  patient : Bool
  catalog : Catalog
  locks : Locks
  scans : Array Scan
  nextTx : TxId
  bytes : PageId → Bytes

namespace Plain

abbrev Act := EStateM Stop Plain

def ofOption {α : Type} : Option α → Act α
  | some a => pure a
  | none => throw .crashed

def ofCause {α : Type} : Except Cause α → Act α
  | .ok a => pure a
  | .error c => throw (.ofCause c)

/-! Pages -/

def lock (tx : TxId) (id : PageId) (mode : LockMode) : Act Unit := do
  if !(← get).patient then throw .crashed
  match (← get).locks.acquire? id tx mode with
  | some locks => modify fun v => { v with locks }
  | none => throw (.ofCause (.aborted tx))

def read (id : PageId) : Act Bytes := do
  let v ← get
  match v.catalog.missing? id with
  | some e => throw e
  | none => return v.bytes id

def getPage (tx : TxId) (id : PageId) (mode : LockMode) : Act Bytes := do
  lock tx id mode
  read id

/-! Rows. A search tells the new bytes of the page that it ends at, and leaves the page as it is. -/

def insertInto (t : Table) (tx : TxId) (row : Row) (number : Nat) :
    Act (Option (RecordId × Bytes)) := do
  let bytes ← getPage tx ⟨t.id, number⟩ .exclusive
  match ← ofOption (t.layout.insert? bytes row.values) with
  | (some slot, bytes) => return some (⟨⟨t.id, number⟩, slot⟩, bytes)
  | (none, _) => return none

def insertFrom (t : Table) (tx : TxId) (row : Row) :
    (count number : Nat) → Act (Option (RecordId × Bytes))
  | 0, _ => return none
  | count + 1, number => do
    match ← insertInto t tx row number with
    | some place => return some place
    | none => insertFrom t tx row count (number + 1)

/-- Adds an empty page to a table. -/
def append (ref : TableRef) : Act Unit := modify fun v =>
  let t := v.catalog.table ref
  { v with
    catalog := v.catalog.update ref
      { t with length := max t.length (t.pages * t.pageSize + t.pageSize) }
    bytes := fun id => if id = ⟨t.id, t.pages⟩ then .zeros t.pageSize else v.bytes id }

/-- Puts a row into a new page, which has the given number. -/
def insertNew (ref : TableRef) (tx : TxId) (row : Row) (number : Nat) : Act (RecordId × Bytes) := do
  append ref
  match ← insertInto ((← get).catalog.table ref) tx row number with
  | some place => return place
  | none => throw .crashed

/-- An empty page has a free slot, so one more page is enough. If it can not be made that is a crash, and
beyond the last page number the search would not end. -/
def insertAnywhere (ref : TableRef) (tx : TxId) (row : Row) : Act (RecordId × Bytes) := do
  let t := (← get).catalog.table ref
  match ← insertFrom t tx row t.pages 0 with
  | some place => return place
  | none =>
    if t.Extendable then insertNew ref tx row t.pages
    else throw .crashed

def placeRow (ref : TableRef) (tx : TxId) (row : Row) : Act (RecordId × Bytes) := do
  let t := (← get).catalog.table ref
  ofCause (t.checkSchema row)
  if t.layout.slots = 0 then throw (.ofCause (.noFreeSlot t.id))
  else insertAnywhere ref tx row

/-- What a step answers, and the page that it changes, if it changes one. -/
structure Outcome where
  answer : Answer
  change : Option (PageId × Bytes) := none

def insertRow (tx : TxId) (table : TableId) (row : Row) : Act Outcome := do
  let ref ← ofCause ((← get).catalog.ref table)
  let placed ← placeRow ref tx row
  return ⟨.stored placed.1, some (placed.1.page, placed.2)⟩

def clearSlot (ref : TableRef) (tx : TxId) (record : RecordId) : Act Bytes := do
  let t := (← get).catalog.table ref
  if record.page.table ≠ t.id then throw (.ofCause (.noSuchRow record))
  else
    let bytes ← getPage tx record.page .exclusive
    match ← ofOption (t.layout.remove? bytes record.slot) with
    | (true, bytes) => return bytes
    | (false, _) => throw (.ofCause (.noSuchRow record))

def deleteRow (tx : TxId) (record? : Option RecordId) : Act Outcome := do
  match record? with
  | none => throw (.ofCause .neverStored)
  | some record =>
    let ref ← ofCause ((← get).catalog.ref record.page.table)
    let bytes ← clearSlot ref tx record
    return ⟨.done, some (record.page, bytes)⟩

/-! Scans -/

def scan (r : ScanRef) : Act Scan := do return (← get).scans.getD r default

def setScan (r : ScanRef) (sc : Scan) : Act Unit :=
  modify fun v => { v with scans := v.scans.setIfInBounds r sc }

def newScan (tx : TxId) (table : TableId) : Act ScanRef := do
  let ref ← ofCause ((← get).catalog.ref table)
  let v ← get
  set { v with scans := v.scans.push { table := ref, tx } }
  return v.scans.size

def fetchRows (sc : Scan) (number : Nat) : Act (List Row) := do
  let t := (← get).catalog.table sc.table
  let bytes ← getPage sc.tx ⟨t.id, number⟩ .shared
  ofOption (t.layout.rows? t.schema ⟨t.id, number⟩ bytes)

def pageCount (sc : Scan) : Act Nat := do ofOption ((← get).catalog.table sc.table).pageCount?

def openScan (r : ScanRef) : Act Unit := do
  let sc := { ← scan r with page := 0 }
  setScan r sc
  if (← pageCount sc) = 0 then setScan r { sc with rest := some [] }
  else setScan r { sc with rest := some (← fetchRows sc 0) }

def seek (r : ScanRef) : (fuel : Nat) → Act Bool
  | 0 => return false
  | fuel + 1 => do
    let sc ← scan r
    match sc.rest with
    | none => return false
    | some (_ :: _) => return true
    | some [] =>
      if (← pageCount sc) ≤ sc.page + 1 then return false
      else
        let sc := { sc with page := sc.page + 1 }
        setScan r sc
        setScan r { sc with rest := some (← fetchRows sc sc.page) }
        seek r fuel

def hasNext (r : ScanRef) : Act Bool := do
  let sc ← scan r
  seek r (((← get).catalog.table sc.table).pages + 2)

def nextRow (r : ScanRef) : Act Row := do
  if ← hasNext r then
    let sc ← scan r
    match sc.rest with
    | some (row :: rest) =>
      setScan r { sc with rest := some rest }
      return row
    | _ => throw (.ofCause .noMoreRows)
  else throw (.ofCause .noMoreRows)

def closeScan (r : ScanRef) : Act Unit := do setScan r { ← scan r with rest := none }

def rewind (r : ScanRef) : Act Unit := do
  closeScan r
  openScan r

def performScan (r : ScanRef) : ScanStep → Act Outcome
  | .start => do
    openScan r
    return ⟨.done, none⟩
  | .hasNext => return ⟨.more (← hasNext r), none⟩
  | .next => return ⟨.row (← nextRow r), none⟩
  | .close => do
    closeScan r
    return ⟨.done, none⟩
  | .restart => do
    rewind r
    return ⟨.done, none⟩

/-- The step of a transaction with these scans, as `Op.perform?`. -/
def perform? (tx : TxId) (scans : List ScanRef) : Op → Option (Act Outcome)
  | .insert table row => some (insertRow tx table row)
  | .delete record? => some (deleteRow tx record?)
  | .scan table => some do
    let _ ← newScan tx table
    return ⟨.done, none⟩
  | .iterate k step => scans[k]?.map fun r => performScan r step

/-- What there is to see once a page has changed. -/
def changed (v : Plain) : Option (PageId × Bytes) → Plain
  | none => v
  | some (id, bytes) => { v with bytes := fun other => if other = id then bytes else v.bytes other }

/-! How actions end -/

variable {α β : Type} {v w : Plain}

theorem bind_eq (y : Act α) (g : α → Act β) (v : Plain) : (y >>= g) v =
    match y v with
    | .ok a w => g a w
    | .error e w => .error e w := by
  simp only [bind, EStateM.bind]
  cases y v <;> rfl

theorem get_eq (v : Plain) : (get : Act Plain) v = .ok v v := rfl

theorem pure_eq (a : α) (v : Plain) : (pure a : Act α) v = .ok a v := rfl

theorem bind_eq_ok_iff {y : Act α} {g : α → Act β} {b : β} :
    (y >>= g) v = .ok b w ↔ ∃ a u, y v = .ok a u ∧ g a u = .ok b w := by
  rw [bind_eq]
  cases y v with
  | ok a u =>
    constructor
    · exact fun next => ⟨a, u, rfl, next⟩
    · rintro ⟨_, _, same, next⟩
      cases same
      exact next
  | error e u =>
    constructor
    · intro never
      cases never
    · rintro ⟨_, _, same, -⟩
      cases same

theorem get_bind_eq_ok_iff {g : Plain → Act β} {b : β} : (get >>= g) v = .ok b w ↔ g v v = .ok b w := by
  rw [bind_eq, get_eq]

theorem scan_bind_eq_ok_iff {r : ScanRef} {g : Scan → Act β} {b : β} :
    (scan r >>= g) v = .ok b w ↔ g (v.scans.getD r default) v = .ok b w := by
  rw [bind_eq]
  exact Iff.rfl

theorem lock_eq (tx : TxId) (id : PageId) (mode : LockMode) (v : Plain) : lock tx id mode v =
    if v.patient then
      match v.locks.acquire? id tx mode with
      | some locks => .ok () { v with locks }
      | none => .error (.ofCause (.aborted tx)) v
    else .error .crashed v := by
  unfold lock
  simp only [bind_eq, get_eq]
  obtain ⟨_ | _, catalog, locks, scans, nextTx, bytes⟩ := v
  · rfl
  · simp only [Bool.not_true, Bool.false_eq_true, if_false, if_true, bind_eq, get_eq]
    cases locks.acquire? id tx mode <;> rfl

theorem read_eq (id : PageId) (v : Plain) : read id v =
    match v.catalog.missing? id with
    | some e => .error e v
    | none => .ok (v.bytes id) v := by
  unfold read
  simp only [bind_eq, get_eq]
  cases v.catalog.missing? id <;> rfl

theorem lock_of_granted {tx : TxId} {id : PageId} {mode : LockMode} {locks : Locks}
    (patient : v.patient = true) (granted : v.locks.acquire? id tx mode = some locks) :
    lock tx id mode v = .ok () { v with locks } := by
  rw [lock_eq, if_pos patient, granted]

theorem lock_of_denied {tx : TxId} {id : PageId} {mode : LockMode} (patient : v.patient = true)
    (denied : v.locks.acquire? id tx mode = none) :
    lock tx id mode v = .error (.ofCause (.aborted tx)) v := by
  rw [lock_eq, if_pos patient, denied]

theorem lock_of_impatient {tx : TxId} {id : PageId} {mode : LockMode}
    (impatient : ¬v.patient = true) : lock tx id mode v = .error .crashed v := by
  rw [lock_eq, if_neg impatient]

theorem read_of_has {id : PageId} (has : v.catalog.Has id) : read id v = .ok (v.bytes id) v := by
  rw [read_eq, Catalog.missing?_eq_none_iff.mpr has]

theorem read_of_missing {id : PageId} {e : Stop} (missing : v.catalog.missing? id = some e) :
    read id v = .error e v := by
  rw [read_eq, missing]

theorem lock_eq_ok_iff {tx : TxId} {id : PageId} {mode : LockMode} {a : Unit} :
    lock tx id mode v = .ok a w ↔ v.patient = true ∧
      ∃ locks, v.locks.acquire? id tx mode = some locks ∧ w = { v with locks } := by
  rw [lock_eq]
  split
  · rename_i patient
    cases v.locks.acquire? id tx mode with
    | none => simp
    | some locks =>
      constructor
      · intro ended
        cases ended
        exact ⟨patient, locks, rfl, rfl⟩
      · rintro ⟨-, _, same, rfl⟩
        cases same
        rfl
  · rename_i impatient
    simp [impatient]

theorem getPage_eq_ok_iff {tx : TxId} {id : PageId} {mode : LockMode} {bytes : Bytes} :
    getPage tx id mode v = .ok bytes w ↔ lock tx id mode v = .ok () w ∧ v.catalog.Has id ∧
      bytes = v.bytes id := by
  unfold getPage
  rw [bind_eq_ok_iff]
  constructor
  · rintro ⟨⟨⟩, u, locked, got⟩
    obtain ⟨-, locks, -, rfl⟩ := lock_eq_ok_iff.mp locked
    rw [read_eq] at got
    split at got
    · cases got
    · rename_i has
      cases got
      exact ⟨locked, Catalog.missing?_eq_none_iff.mp has, rfl⟩
  · rintro ⟨locked, has, rfl⟩
    refine ⟨(), w, locked, ?_⟩
    obtain ⟨-, locks, -, rfl⟩ := lock_eq_ok_iff.mp locked
    exact read_of_has has

theorem ofOption_eq_ok_iff {r : Option α} {a : α} : ofOption r v = .ok a w ↔ r = some a ∧ w = v := by
  cases r with
  | none =>
    constructor
    · intro never
      cases never
    · rintro ⟨never, -⟩
      cases never
  | some b =>
    constructor
    · intro ended
      cases ended
      exact ⟨rfl, rfl⟩
    · rintro ⟨same, rfl⟩
      cases same
      rfl

theorem ofCause_eq_ok_iff {r : Except Cause α} {a : α} :
    ofCause r v = .ok a w ↔ r = .ok a ∧ w = v := by
  cases r with
  | error c =>
    constructor
    · intro never
      cases never
    · rintro ⟨never, -⟩
      cases never
  | ok b =>
    constructor
    · intro ended
      cases ended
      exact ⟨rfl, rfl⟩
    · rintro ⟨same, rfl⟩
      cases same
      rfl

theorem ofCause_bind_eq_ok_iff {r : Except Cause α} {g : α → Act β} {b : β} :
    (ofCause r >>= g) v = .ok b w ↔ ∃ a, r = .ok a ∧ g a v = .ok b w := by
  rw [bind_eq_ok_iff]
  constructor
  · rintro ⟨a, u, found, rest⟩
    obtain ⟨known, rfl⟩ := ofCause_eq_ok_iff.mp found
    exact ⟨a, known, rest⟩
  · rintro ⟨a, known, rest⟩
    exact ⟨a, v, ofCause_eq_ok_iff.mpr ⟨known, rfl⟩, rest⟩

theorem setScan_eq_ok {r : ScanRef} {sc : Scan} {a : Unit} (ended : setScan r sc v = .ok a w) :
    w = { v with scans := v.scans.setIfInBounds r sc } := by
  cases ended
  rfl

/-- A page is searched: it is locked, and what it has room for is up to its layout. -/
theorem insertInto_eq_ok_iff {t : Table} {tx : TxId} {row : Row} {number : Nat}
    {found : Option (RecordId × Bytes)} : insertInto t tx row number v = .ok found w ↔
      getPage tx ⟨t.id, number⟩ .exclusive v = .ok (v.bytes ⟨t.id, number⟩) w ∧
      ∃ slot? bytes, t.layout.insert? (v.bytes ⟨t.id, number⟩) row.values = some (slot?, bytes) ∧
        found = slot?.map fun slot => (⟨⟨t.id, number⟩, slot⟩, bytes) := by
  unfold insertInto
  rw [bind_eq_ok_iff]
  constructor
  · rintro ⟨bytes, u, got, rest⟩
    obtain ⟨locked, has, rfl⟩ := getPage_eq_ok_iff.mp got
    rw [bind_eq_ok_iff] at rest
    obtain ⟨⟨slot?, bytes⟩, u', tried, rest⟩ := rest
    obtain ⟨inserted, rfl⟩ := ofOption_eq_ok_iff.mp tried
    cases slot? with
    | none =>
      cases rest
      exact ⟨got, none, bytes, inserted, rfl⟩
    | some slot =>
      cases rest
      exact ⟨got, some slot, bytes, inserted, rfl⟩
  · rintro ⟨got, slot?, bytes, inserted, rfl⟩
    refine ⟨_, w, got, ?_⟩
    rw [bind_eq_ok_iff]
    refine ⟨(slot?, bytes), w, ofOption_eq_ok_iff.mpr ⟨inserted, rfl⟩, ?_⟩
    cases slot? <;> rfl

/-- A search only takes locks. -/
theorem insertFrom_locks {t : Table} {tx : TxId} {row : Row} {count number : Nat}
    {found : Option (RecordId × Bytes)} (ended : insertFrom t tx row count number v = .ok found w) :
    ∃ locks, w = { v with locks } := by
  induction count generalizing v number with
  | zero =>
    cases ended
    exact ⟨w.locks, rfl⟩
  | succ count ih =>
    unfold insertFrom at ended
    obtain ⟨place?, u, first, rest⟩ := bind_eq_ok_iff.mp ended
    obtain ⟨got, -⟩ := insertInto_eq_ok_iff.mp first
    obtain ⟨-, locks, -, rfl⟩ := lock_eq_ok_iff.mp (getPage_eq_ok_iff.mp got).1
    cases place? with
    | some place =>
      cases rest
      exact ⟨locks, rfl⟩
    | none =>
      obtain ⟨locks', rfl⟩ := ih rest
      exact ⟨locks', rfl⟩

/-- A row is stored in a known table that it agrees with and that has slots. -/
theorem insertRow_ok {tx : TxId} {table : TableId} {row : Row} {out : Outcome}
    (ended : insertRow tx table row v = .ok out w) : ∃ ref place, v.catalog.ref table = .ok ref ∧
      (v.catalog.table ref).checkSchema row = .ok () ∧ (v.catalog.table ref).layout.slots ≠ 0 ∧
      insertAnywhere ref tx row v = .ok place w ∧
      out = ⟨.stored place.1, some (place.1.page, place.2)⟩ := by
  replace ended := get_bind_eq_ok_iff.mp ended
  obtain ⟨ref, known, ended⟩ := ofCause_bind_eq_ok_iff.mp ended
  obtain ⟨place, x, placed, rest⟩ := bind_eq_ok_iff.mp ended
  cases rest
  replace placed := get_bind_eq_ok_iff.mp placed
  obtain ⟨_, agrees, placed⟩ := ofCause_bind_eq_ok_iff.mp placed
  split at placed
  · cases placed
  · rename_i slots
    exact ⟨ref, place, known, agrees, slots, placed, rfl⟩

theorem insertRow_of_placed {tx : TxId} {table : TableId} {row : Row} {ref : TableRef}
    {place : RecordId × Bytes} (known : v.catalog.ref table = .ok ref)
    (checked : (v.catalog.table ref).checkSchema row = .ok ())
    (slots : (v.catalog.table ref).layout.slots ≠ 0)
    (placed : insertAnywhere ref tx row v = .ok place w) :
    insertRow tx table row v = .ok ⟨.stored place.1, some (place.1.page, place.2)⟩ w := by
  simp only [insertRow, placeRow, bind_eq, get_eq, known, ofCause, checked, pure_eq, if_neg slots, placed]

/-- A row is stored on a page that its table has, or on a new one after all those were searched. -/
theorem insertAnywhere_cases {ref : TableRef} {tx : TxId} {row : Row} {place : RecordId × Bytes}
    (ended : insertAnywhere ref tx row v = .ok place w) : ∃ locks place?,
      insertFrom (v.catalog.table ref) tx row (v.catalog.table ref).pages 0 v =
        .ok place? { v with locks } ∧
      (place? = some place ∧ w = { v with locks } ∨
        place? = none ∧ (v.catalog.table ref).Extendable ∧
          insertNew ref tx row (v.catalog.table ref).pages { v with locks } = .ok place w) := by
  replace ended := get_bind_eq_ok_iff.mp ended
  obtain ⟨place?, x, searched, ended⟩ := bind_eq_ok_iff.mp ended
  obtain ⟨locks, rfl⟩ := insertFrom_locks searched
  refine ⟨locks, place?, searched, ?_⟩
  cases place? with
  | some place' =>
    cases ended
    exact Or.inl ⟨rfl, rfl⟩
  | none =>
    dsimp only at ended
    split at ended
    · rename_i few
      exact Or.inr ⟨rfl, few, ended⟩
    · cases ended

/-- A row is removed from a page of its table that has it. -/
theorem deleteRow_eq_ok_iff {tx : TxId} {record : RecordId} {out : Outcome} :
    deleteRow tx (some record) v = .ok out w ↔ ∃ ref bytes,
      v.catalog.ref record.page.table = .ok ref ∧ record.page.table = (v.catalog.table ref).id ∧
      getPage tx record.page .exclusive v = .ok (v.bytes record.page) w ∧
      (v.catalog.table ref).layout.remove? (v.bytes record.page) record.slot = some (true, bytes) ∧
      out = ⟨.done, some (record.page, bytes)⟩ := by
  constructor
  · intro ended
    replace ended := get_bind_eq_ok_iff.mp ended
    obtain ⟨ref, known, ended⟩ := ofCause_bind_eq_ok_iff.mp ended
    obtain ⟨bytes, x, cleared, rest⟩ := bind_eq_ok_iff.mp ended
    cases rest
    replace cleared := get_bind_eq_ok_iff.mp cleared
    split at cleared
    · cases cleared
    · rename_i mine
      obtain ⟨before, x, got, cleared⟩ := bind_eq_ok_iff.mp cleared
      obtain ⟨-, -, rfl⟩ := getPage_eq_ok_iff.mp got
      obtain ⟨⟨removed, after⟩, y, tried, cleared⟩ := bind_eq_ok_iff.mp cleared
      obtain ⟨gone, same⟩ := ofOption_eq_ok_iff.mp tried
      subst y
      cases removed with
      | false => cases cleared
      | true =>
        cases cleared
        exact ⟨ref, bytes, known, Decidable.of_not_not mine, got, gone, rfl⟩
  · rintro ⟨ref, bytes, known, mine, got, gone, rfl⟩
    simp only [deleteRow, clearSlot, bind_eq, get_eq, known, ofCause, pure_eq, if_neg (not_not_intro mine),
      got, gone, ofOption]

theorem performScan_quiet {r : ScanRef} {step : ScanStep} {out : Outcome}
    (ended : performScan r step v = .ok out w) :
    out.change = none := by
  cases step <;>
    obtain ⟨a, x, -, rest⟩ := bind_eq_ok_iff.mp ended <;>
    cases rest <;>
    rfl

end Plain
end HeapStore
