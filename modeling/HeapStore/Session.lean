import HeapStore.Store.Rows
import HeapStore.Store.Scanning
import HeapStore.Store.Tables
import HeapStore.Store.Transactions

/-! Sessions: any number of transactions take steps on one store, in any order. A transaction takes
no more steps of its own once it has ended, but its scans can still be used. A step that crashes
has no session after it. -/
namespace HeapStore

/-- What can be done with a scan. -/
inductive ScanStep where
  | start
  | hasNext
  | next
  | close
  | restart
  deriving DecidableEq

/-- What a transaction can do. Its scans are numbered in the order in which it made them. -/
inductive Op where
  | insert (table : TableId) (row : Row)
  | delete (record? : Option RecordId)
  | scan (table : TableId)
  | iterate (k : Nat) (step : ScanStep)
  deriving DecidableEq

/-- How a table can be added, under the next free id or under one that is given. -/
inductive NewTable where
  | create (path name : String) (schema : Schema) (primaryKey : String)
  | load (path name : String) (schema : Schema) (primaryKey : String)
  | createWithId (id : TableId) (path name : String) (schema : Schema) (primaryKey : String)
      (pageSize : Nat)
  | loadWithId (id : TableId) (path name : String) (schema : Schema) (primaryKey : String)
      (pageSize : Nat)

inductive Event where
  | begin
  | op (tx : TxId) (o : Op)
  | commit (tx : TxId)
  | abort (tx : TxId)
  | drop (tx : TxId)
  | flushPage (id : PageId)
  | flushAll
  | discard (id : PageId)
  | addTable (t : NewTable)

inductive Answer where
  | done
  | began (tx : TxId)
  | stored (record : RecordId)
  | more (left : Bool)
  | row (row : Row)
  deriving DecidableEq

abbrev Reply := Except Failure Answer

namespace ScanStep
open Store

def perform (r : ScanRef) : ScanStep → Action Answer
  | start => do
    openScan r
    return .done
  | hasNext => return .more (← Store.hasNext r)
  | next => return .row (← nextRow r)
  | close => do
    closeScan r
    return .done
  | restart => do
    rewind r
    return .done

end ScanStep

namespace Op
open Store

/-- Whether the step is one of a scan and not of the transaction itself. -/
def iterates : Op → Bool
  | iterate _ _ => true
  | _ => false

/-- The step of a transaction with these scans. There is none on a scan that it never made. -/
def perform? (tx : TxId) (scans : List ScanRef) : Op → Option (Action Answer)
  | insert table row => some do return .stored (← insertRow tx table row)
  | delete record? => some do
    deleteRow tx record?
    return .done
  | scan table => some do
    let _ ← newScan tx table
    return .done
  | iterate k step => scans[k]?.map step.perform

end Op

namespace NewTable
open Store

def perform : NewTable → Action Answer
  | create path name schema key => do
    let _ ← createTable path name schema key
    return .done
  | load path name schema key => do
    let _ ← openTable path name schema key
    return .done
  | createWithId id path name schema key pageSize => do
    Store.createWithId id path name schema key pageSize
    return .done
  | loadWithId id path name schema key pageSize => do
    Store.openWithId id path name schema key pageSize
    return .done

end NewTable

/-- What a session knows of a transaction. -/
structure Client where
  running : Bool := true
  scans : List ScanRef := []
  /-- Its steps so far and what it was told. -/
  history : List (Op × Reply) := []

namespace Client

/-- A step was taken. If it made a scan, that is the one at place `next`. -/
def note (c : Client) (o : Op) (reply : Reply) (next : ScanRef) : Client where
  running := c.running
  scans := match o, reply with
    | .scan _, .ok _ => c.scans ++ [next]
    | _, _ => c.scans
  history := c.history ++ [(o, reply)]

def finish (c : Client) : Client := { c with running := false }

end Client

structure Session where
  store : Store
  clients : Assoc TxId Client := {}
  /-- The histories of the committed transactions in the order of their commits. -/
  committed : List (List (Op × Reply)) := []
  replies : List Reply := []

namespace Session
open Store

/-- A session in which nothing has happened yet. -/
def start (s : Store) : Session where
  store := s

def running (S : Session) (tx : TxId) : Bool := (S.clients.get? tx).any Client.running

def history (S : Session) (tx : TxId) : List (Op × Reply) :=
  ((S.clients.get? tx).map Client.history).getD []

/-- The action that an event stands for. There is none if the transaction has ended or is unknown. -/
def action? (S : Session) : Event → Option (Action Answer)
  | .begin => some do return .began (← begin)
  | .op tx o =>
    match S.clients.get? tx with
    | some c => if c.running || o.iterates then o.perform? tx c.scans else none
    | none => none
  | .commit tx => if S.running tx then some do { commit tx; return .done } else none
  | .abort tx => if S.running tx then some do { abort tx; return .done } else none
  | .drop tx => if S.running tx then some do { drop tx; return .done } else none
  | .flushPage id => some do
    flushPage id
    return .done
  | .flushAll => some do
    flushAll
    return .done
  | .discard id => some do
    discard id
    return .done
  | .addTable t => some t.perform

def update (S : Session) (tx : TxId) (f : Client → Client) : Assoc TxId Client :=
  match S.clients.get? tx with
  | some c => S.clients.insert tx (f c)
  | none => S.clients

def clientsAfter (S : Session) (reply : Reply) : Event → Assoc TxId Client
  | .begin =>
    match reply with
    | .ok (.began tx) => S.clients.insert tx {}
    | _ => S.clients
  | .op tx o => S.update tx fun c => c.note o reply S.store.scans.size
  | .commit tx | .abort tx | .drop tx => S.update tx .finish
  | _ => S.clients

def committedAfter (S : Session) (reply : Reply) : Event → List (List (Op × Reply))
  | .commit tx =>
    match reply with
    | .ok _ => S.committed ++ [S.history tx]
    | .error _ => S.committed
  | _ => S.committed

def after (S : Session) (e : Event) (reply : Reply) (s : Store) : Session where
  store := s
  clients := S.clientsAfter reply e
  committed := S.committedAfter reply e
  replies := S.replies ++ [reply]

/-- The answer of an action that does not crash, and the store that it leaves behind. -/
def settle (x : Action Answer) (s : Store) : Option (Reply × Store) :=
  match x s with
  | .ok a s => some (.ok a, s)
  | .error (.failed f) s => some (.error f, s)
  | .error .crashed _ => none

def step (S : Session) (e : Event) : Option Session := do
  let x ← S.action? e
  let (reply, s) ← settle x S.store
  return S.after e reply s

def run (S : Session) (es : List Event) : Option Session := es.foldlM step S

end Session
end HeapStore
