import HeapStore.Store.Rows
import HeapStore.Store.Scanning
import HeapStore.Store.Tables
import HeapStore.Store.Transactions
import HeapStore.Workload.Options

/-! The program: writers insert accounts, one row per transaction, and the rows are counted before
and after. Writers run one after the other. -/
namespace HeapStore.Workload
open Store

def fileName : String := "accounts.dat"

def accounts : Schema :=
  ⟨[⟨.integer, some "id"⟩, ⟨.text, some "owner"⟩, ⟨.boolean, some "active"⟩]⟩

/-- Account number `i` of a writer. Its id wraps around at 32 bits. -/
def account (writer transactions i : Nat) : List Value :=
  let id := Int32.ofNat (writer * transactions + i)
  [.integer id, .text s!"writer-{writer}", .boolean (id.toInt % 2 = 0)]

/-- Inserts one row in a transaction of its own, which is tried again as long as it is aborted,
`tries` times at most. Tells how many were aborted. -/
def insertAlone (table : TableId) (row : Row) : (tries : Nat) → Action Nat
  | 0 => return 0
  | tries + 1 => do
    let tx ← begin
    match ← (insertRow tx table row).attempt with
    | .ok _ =>
      commit tx
      return 0
    | .error f =>
      if f.isAborted then
        abort tx
        return (← insertAlone table row tries) + 1
      else
        drop tx
        .stop (.failed f)

/-- No other transaction is running beside a writer, so its first try is not aborted. -/
def tries : Nat := 100

/-- Does something for `count` numbers from number `i` on. -/
def forFrom (act : Nat → Action Unit) : (count i : Nat) → Action Unit
  | 0, _ => return ()
  | count + 1, i => do
    act i
    forFrom act count (i + 1)

def writeOne (table : TableId) (writer transactions i : Nat) : Action Unit := do
  let schema := (← Store.table table).schema
  let row ← .ofCause (Row.new schema (account writer transactions i))
  let _ ← insertAlone table row tries

def write (table : TableId) (writer transactions : Nat) : Action Unit :=
  forFrom (writeOne table writer transactions) transactions 0

def count (table : TableId) : Action Nat := do
  let tx ← begin
  let sc ← newScan tx table
  openScan sc
  let (rows, failed) ← allRows sc
  match failed with
  | some f => .stop (.failed f)
  | none =>
    closeScan sc
    commit tx
    return rows.length

/-- The number of accounts in the end. A writer that fails stops without a word. -/
def run (o : Options) : Action Nat := do
  let table ←
    if (← get).disk.contains fileName then openTable fileName "accounts" accounts "id"
    else createTable fileName "accounts" accounts "id"
  let _ ← count table
  forFrom (fun writer => do let _ ← (write table writer o.transactions).attempt) o.threads 0
  count table

/-- How the program ends: its exit code, its last line or what it has to say about a failure, and
the directory as it leaves it. -/
structure Outcome where
  code : Nat
  line : String
  disk : Disk

def Options.settings (o : Options) (uptime : Nat) : Settings :=
  { poolPages := o.poolSize, pageSize := o.pageSize, uptime }

/-- Runs the program on its directory, on a machine that has been running for `uptime` seconds. There has
to be a directory before anything else, and a pool that is too large crashes before a file is touched. -/
def executeAt (uptime : Nat) (o : Options) (disk : Disk) : Outcome :=
  match Disk.checkDirectory o.data with
  | .error e => ⟨1, s!"Error: {e.text}", disk⟩
  | .ok () =>
    match (Store.new? (o.settings uptime) disk).map (run o) with
    | none => ⟨101, "crashed", disk⟩
    | some (.ok n s) => ⟨0, s!"{n} tuples in table accounts", s.disk⟩
    | some (.error (.failed f) s) => ⟨1, s!"Error: {f.text}", s.disk⟩
    | some (.error .crashed s) => ⟨101, "crashed", s.disk⟩

/-- As `executeAt`, on a machine that was started a day ago. -/
def execute (o : Options) (disk : Disk) : Outcome := executeAt 86400 o disk

end HeapStore.Workload
