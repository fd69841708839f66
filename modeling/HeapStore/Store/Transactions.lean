import HeapStore.Store.Paging

/-! Beginning and ending transactions. -/
namespace HeapStore.Store

def begin : Action TxId := do
  let s ← get
  set { s with nextTx := s.nextTx + 1 }
  return s.nextTx

/-- A commit writes the transaction's dirty pages to disk, an abort takes them back to what is there.
Its locks are given back in any case. -/
def complete (tx : TxId) (commit : Bool) : Action Unit := do
  let answer ← (if commit then flushDirtiedBy tx else restoreDirtiedBy tx).attempt
  modify fun s => { s with locks := s.locks.releaseAll tx }
  .ofAttempt answer

def commit (tx : TxId) : Action Unit := complete tx true

def abort (tx : TxId) : Action Unit := complete tx false

/-- Ends a transaction that was neither committed nor aborted, as an abort whose failure nobody
hears of. -/
def drop (tx : TxId) : Action Unit := do
  let _ ← (abort tx).attempt

end HeapStore.Store
