import HeapStore.Workload

/-! The program on a real directory. -/
open HeapStore

/-- The directory with the one file that the program uses, if it is there. -/
def loadDirectory (path : String) : IO Disk := do
  let content ← (IO.FS.readBinFile s!"{path}/{Workload.fileName}").toBaseIO
  match content with
  | .ok bytes => return (Assoc.insert {} Workload.fileName (.ofBytes bytes))
  | .error _ => return {}

def saveDirectory (path : String) (disk : Disk) : IO Unit := do
  match disk.get? Workload.fileName with
  | some file => IO.FS.writeBinFile s!"{path}/{Workload.fileName}" file.toBytes
  | none => return ()

def main (args : List String) : IO UInt32 := do
  match Workload.parse args with
  | .error refusal =>
    IO.eprintln s!"error: {refusal.text}"
    return 2
  | .ok .help =>
    IO.println Workload.usage
    return 0
  | .ok (.run options) =>
    if let .error e ← (IO.FS.createDirAll options.data).toBaseIO then
      IO.eprintln s!"Error: {e}"
      return 1
    let outcome := Workload.execute options (← loadDirectory options.data)
    saveDirectory options.data outcome.disk
    if outcome.code = 0 then IO.println outcome.line else IO.eprintln outcome.line
    return UInt32.ofNat outcome.code
