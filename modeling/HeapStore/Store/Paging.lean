import HeapStore.Store

/-! Getting pages into the pool, under their locks, and back to disk. -/
namespace HeapStore.Store

/-- A denied lock aborts the transaction at once: while an operation runs nothing else does, so
waiting would not change the answer. -/
def lock (tx : TxId) (page : PageId) (mode : LockMode) : Action Unit := do
  if !(← get).settings.hasDeadline then .crash
  match (← get).locks.acquire? page tx mode with
  | some locks => modify fun s => { s with locks }
  | none => .fail (.aborted tx)

/-- The page as it is on disk. -/
def readPage (id : PageId) : Action Bytes := do
  let t ← table id.table
  .ofStop (t.read (← get).disk id)

/-- Reads a page from disk into a new image, which is in no frame yet. -/
def load (id : PageId) : Action PageRef := do
  let t ← table id.table
  let bytes ← Action.within (.loading id) do .ofStop (t.read (← get).disk id)
  addImage ⟨id, bytes, none⟩

/-- Caches a page that is not cached. If every frame holds a dirty page its image stays outside of
the pool, unless it `mustCache`. A frame is emptied for the page before it is read, and stays empty
if that fails. -/
def fetchNew (id : PageId) (mustCache : Bool) : Action PageRef := do
  match ← findFrame with
  | some frame =>
    let r ← load id
    updatePool (·.install frame r)
    return r
  | none =>
    if mustCache then .fail (.poolExhausted (← get).settings.poolPages) else load id

/-- The cached image of a page, or else a new one. -/
def fetch (id : PageId) (mustCache : Bool) : Action PageRef := do
  match (← get).pool.cached? id with
  | some (frame, r) =>
    updatePool (·.touch frame)
    return r
  | none => fetchNew id mustCache

def getPage (tx : TxId) (id : PageId) (mode : LockMode) : Action Handle := do
  lock tx id mode
  return ⟨← fetch id true, mode⟩

/-- For changing rows. The change will find a place for the page, so the pool need not have one. -/
def getPageForUpdate (tx : TxId) (id : PageId) : Action PageRef := do
  lock tx id .exclusive
  fetch id false

/-- Whether a request waits for its lock and goes on waiting for `delay` milliseconds. -/
def waits (s : Store) (tx : TxId) (id : PageId) (mode : LockMode) (delay : Nat) : Bool :=
  (s.locks.acquire? id tx mode).isNone && !s.locks.starving id tx mode &&
    delay ≤ s.settings.patience

/-- As `getPage`, with `other` standing for what another transaction does `delay` milliseconds
later: it happens while the request waits, or afterwards if the request does not wait for so long.
Both happen in any case, and if both fail the failure is that of `other`. -/
def getPageBeside (tx : TxId) (id : PageId) (mode : LockMode) (delay : Nat)
    (other : Action Unit) : Action Handle := do
  if waits (← get) tx id mode delay then
    let done ← other.attempt
    let got ← (getPage tx id mode).attempt
    .ofAttempt done
    .ofAttempt got
  else
    let got ← (getPage tx id mode).attempt
    other
    .ofAttempt got

/-- Only a page that was fetched exclusively can be written. -/
def overwrite (h : Handle) (off : Nat) (new : Bytes) : Action Unit := do
  let p ← page h.ref
  match h.mode with
  | .shared => .fail (.readOnly p.id)
  | .exclusive =>
    let p ← .ofOption (p.overwrite? off new)
    updatePool (·.update h.ref fun _ => p)

def mark (r : PageRef) (owner : Option TxId) : Action Unit :=
  updatePool (·.update r (·.mark owner))

def writeTable (ref : TableRef) (p : Page) : Action Unit := do
  let s ← get
  let written ← .ofStop ((s.catalog.table ref).write s.disk p)
  set { s with catalog := s.catalog.update ref written.1, disk := written.2 }

/-- Writes an image to disk, which makes it clean. -/
def writePage (r : PageRef) : Action Unit := do
  let p ← page r
  let ref ← .ofCause ((← get).catalog.ref p.id.table)
  Action.within (.flushing p.id) (writeTable ref p)
  mark r none

/-- Makes a changed image the cached one of its page. If every frame holds another dirty page it
goes to disk instead, and can then not be undone by an abort. -/
def cacheChanged (r : PageRef) : Action Unit := do
  match (← get).pool.frameOf[(← page r).id]? with
  | some frame => updatePool (·.install frame r)
  | none =>
    match ← findFrame with
    | some frame => updatePool (·.install frame r)
    | none => writePage r

/-- Marks a changed image as dirty and caches it. -/
def keepDirty (tx : TxId) (r : PageRef) : Action Unit := do
  mark r (some tx)
  cacheChanged r

/-- Writes a page to disk if it is cached and dirty. -/
def flushPage (id : PageId) : Action Unit := do
  let pool := (← get).pool
  match pool.cached? id with
  | some (_, r) => if (pool.page r).isDirty then writePage r else return ()
  | none => return ()

def writePages : List PageRef → Action Unit
  | [] => return ()
  | r :: rs => do
    writePage r
    writePages rs

/-- Writes every dirty page to disk, whoever changed it. -/
def flushAll : Action Unit := do writePages (← get).pool.dirty

/-- Writes the pages that a transaction changed to disk. -/
def flushDirtiedBy (tx : TxId) : Action Unit := do writePages ((← get).pool.dirtiedBy tx)

/-- Takes an image back to what is on disk. A page that can not be read leaves the pool, so that
its next use loads it again. -/
def restorePage (r : PageRef) : Action (Option Failure) := do
  let p ← page r
  match ← (Action.within (.restoring p.id) (readPage p.id)).attempt with
  | .ok bytes =>
    if bytes.size = p.bytes.size then
      updatePool (·.update r fun p => { p with bytes, dirtiedBy := none })
      return none
    else .crash
  | .error f =>
    updatePool (·.remove p.id)
    return some f

/-- Restores all of the images and tells the first failure. -/
def restorePages : List PageRef → Action (Option Failure)
  | [] => return none
  | r :: rs => do
    let failed ← restorePage r
    return failed.or (← restorePages rs)

/-- Takes back the pages that a transaction changed. It fails only after all of them were handled. -/
def restoreDirtiedBy (tx : TxId) : Action Unit := do
  match ← restorePages ((← get).pool.dirtiedBy tx) with
  | none => return ()
  | some f => .stop (.failed f)

/-- Drops a page from the pool, and with it any change that is not on disk. -/
def discard (id : PageId) : Action Unit := updatePool (·.remove id)

/-- Gives back a lock before the transaction ends. -/
def releasePage (tx : TxId) (id : PageId) : Action Unit :=
  modify fun s => { s with locks := s.locks.release id tx }

end HeapStore.Store
