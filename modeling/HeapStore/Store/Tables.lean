import HeapStore.Store

/-! Creating and opening tables. -/
namespace HeapStore.Store

def allocateId : Action TableId := modifyGet fun s =>
  (s.catalog.allocate.1, { s with catalog := s.catalog.allocate.2 })

def register (t : Table) (name primaryKey : String) : Action Unit :=
  modify fun s => { s with catalog := s.catalog.add t name primaryKey }

/-- Creates a table file under a given id, unless there is a file of that name. -/
def createWithId (id : TableId) (path name : String) (schema : Schema) (primaryKey : String)
    (pageSize : Nat) : Action Unit := do
  let created ← Action.within (.creatingTable id) do
    .ofFile (Table.create (← get).disk id path schema pageSize)
  modify fun s => { s with disk := created.2 }
  register created.1 name primaryKey

/-- Opens a table file under a given id. -/
def openWithId (id : TableId) (path name : String) (schema : Schema) (primaryKey : String)
    (pageSize : Nat) : Action Unit := do
  let t ← Action.within (.openingTable id) do
    .ofFile (Table.load (← get).disk id path schema pageSize)
  register t name primaryKey

/-- Creates a table file. The id it would have had is used up even if that fails. -/
def createTable (path name : String) (schema : Schema) (primaryKey : String) : Action TableId := do
  let id ← allocateId
  createWithId id path name schema primaryKey (← get).settings.pageSize
  return id

/-- Opens a table file. The id it would have had is used up even if that fails. -/
def openTable (path name : String) (schema : Schema) (primaryKey : String) : Action TableId := do
  let id ← allocateId
  openWithId id path name schema primaryKey (← get).settings.pageSize
  return id

end HeapStore.Store
