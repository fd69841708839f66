import HeapStore.Proofs.Storing
import HeapStore.Workload

/-! The program with one writer. Between two transactions nothing is locked and no page is dirty, so the
next one is in nobody's way and finds the rows that the ones before it have left. -/
namespace HeapStore

/-- Pages that there are numbers for, in a file that is not too long. -/
def File.pageLimit (pageSize : Nat) : Nat := min (UInt32.size - 1) ((limit - 1) / pageSize)

namespace Store
open Workload

variable {s s' : Store} {tx : TxId} {i : TableId} {ref : TableRef} {id : PageId} {t : Table} {n : Nat}
  {values : List Value} {row : Row}

/-- No transaction is under way, and none would ask for a lock without an end. -/
structure AtRest (s : Store) : Prop where
  coherent : s.Coherent
  unlocked : ∀ u id mode, ¬s.locks.Held u id mode
  frames : 0 < s.settings.poolPages
  patient : s.settings.hasDeadline = true

theorem AtRest.idle (h : s.AtRest) : s.Idle where
  coherent := h.coherent
  clean id := Option.eq_none_iff_forall_ne_some.mpr fun tx owned =>
    h.unlocked tx id .exclusive (h.coherent.guarded.owned id tx owned)
  frames := h.frames

/-- Nobody is in the way of a transaction that begins. -/
theorem AtRest.sole (h : s.AtRest) (tx nextTx : TxId) : Plain.Sole tx (view { s with nextTx }) :=
  ⟨h.patient, fun u p mode held => absurd held (h.unlocked u p mode)⟩

/-- After the only transaction has ended there is none. -/
theorem commit_rests (h : s.Coherent) (sole : Plain.Sole tx s.view) (frames : 0 < s.settings.poolPages) :
    (commit tx).Ends s fun answer s' =>
      answer = .ok () ∧ s'.AtRest ∧ s'.catalog = s.catalog ∧ s'.total = s.total := by
  refine (commit_completes h tx).mono ?_
  rintro answer u ⟨rfl, completed⟩
  have settings : u.settings = s.settings := by rw [completed.rest]
  have locks : u.locks = s.locks.releaseAll tx := by rw [completed.rest]
  refine ⟨rfl, ⟨completed.coherent, fun v p mode held => ?_, settings ▸ frames, settings ▸ sole.patient⟩,
    completed.unchanged⟩
  rw [locks, Locks.held_releaseAll] at held
  exact held.2 (sole.mine v p mode held.1)

/-- A table holds `n` rows, its pages can be counted, and its file is one that there can be. -/
structure Ready (ref : TableRef) (t : Table) (n : Nat) (s : Store) : Prop extends AtRest s where
  known : s.catalog.ref t.id = .ok ref
  table : s.catalog.table ref = { t with length := (s.catalog.table ref).length }
  counted : (s.catalog.table ref).length / t.pageSize < UInt32.size
  short : (s.catalog.table ref).length < File.limit
  rows : (s.stock ref).length = n

theorem Ready.layout (h : s.Ready ref t n) : (s.catalog.table ref).layout = t.layout := by
  rw [h.table]
  rfl

theorem Ready.pageSize (h : s.Ready ref t n) : (s.catalog.table ref).pageSize = t.pageSize := by
  rw [h.table]

theorem Ready.byId (h : s.Ready ref t n) : s.catalog.byId t.id = .ok (s.catalog.table ref) := by
  simp [Catalog.byId, h.known, Except.map]

theorem Ready.of_same (h : s.Ready ref t n) (rest : s'.AtRest) (catalog : s'.catalog = s.catalog)
    (total : s'.total = s.total) : s'.Ready ref t n where
  toAtRest := rest
  known := catalog ▸ h.known
  table := catalog ▸ h.table
  counted := catalog ▸ h.counted
  short := catalog ▸ h.short
  rows := by rw [stock_congr catalog total, h.rows]

theorem Ready.pages (h : s.Ready ref t n) :
    (s.catalog.table ref).pages = (s.catalog.table ref).length / t.pageSize := by
  rw [Table.pages, h.pageSize, Nat.mod_eq_of_lt h.counted]

/-- If all pages are full and there are more rows to come, then there are not as many pages as there can be. -/
theorem Ready.pages_lt (h : s.Ready ref t n) (room : n < t.layout.slots * File.pageLimit t.pageSize)
    (full : s.free? ref = none) : (s.catalog.table ref).pages < File.pageLimit t.pageSize := by
  have rows := free?_eq_none_iff.mp full
  rw [h.rows, h.layout, Nat.mul_comm] at rows
  rw [rows] at room
  exact Nat.lt_of_mul_lt_mul_left room

theorem Ready.extendable (h : s.Ready ref t n) (countable : Layout.Countable t.pageSize)
    (room : n < t.layout.slots * File.pageLimit t.pageSize) (full : s.free? ref = none) :
    (s.catalog.table ref).Extendable := by
  have few := h.pages_lt room full
  rw [h.pages] at few
  rw [Table.Extendable, h.pageSize]
  refine ⟨?_, Nat.add_lt_of_lt_sub (Nat.lt_of_lt_of_le few (Nat.min_le_left _ _))⟩
  have bits : t.pageSize * 8 < UInt64.size := countable
  have limit : UInt64.size = Bytes.limit * 2 := rfl
  omega

/-- A transaction that stores one row and that nothing comes in the way of. -/
def insertOnce (table : TableId) (values : List Value) : Action Unit := do
  let schema := (← Store.table table).schema
  let row ← .ofCause (Row.new schema values)
  let tx ← begin
  let _ ← insertRow tx table row
  commit tx

/-- A file that gets a page more ends with it. -/
theorem Ready.short_of_stores {u : Store} {values : List Value} (h : s.Ready ref t n)
    (room : n < t.layout.slots * File.pageLimit t.pageSize)
    (stores : Stores tx ref values { s with nextTx := s.nextTx + 1 } u)
    (counted : (u.catalog.table ref).length / t.pageSize < UInt32.size) :
    (u.catalog.table ref).length < File.limit := by
  have pageSize : (u.catalog.table ref).pageSize = t.pageSize := (stores.kin.pageSize ref).trans h.pageSize
  have length : (u.catalog.table ref).length = (s.catalog.table ref).length ∨
      (s.catalog.table ref).pageSize ∣ (u.catalog.table ref).length := stores.length t.id ref h.known
  rcases length with same | whole
  · rw [same]
    exact h.short
  · have pages : (u.catalog.table ref).pages = (s.catalog.table ref).pages +
        if ref = ref ∧ s.free? ref = none then 1 else 0 := stores.pages ref
    rw [Table.pages, pageSize, Nat.mod_eq_of_lt counted] at pages
    rw [h.pageSize] at whole
    rw [← Nat.div_mul_cancel whole, pages]
    split
    · rename_i full
      have last := Nat.lt_of_lt_of_le (h.pages_lt room full.2) (Nat.min_le_right _ _)
      have ends := Nat.mul_le_of_le_div _ _ _ (Nat.succ_le_of_lt last)
      exact Nat.lt_of_le_of_lt ends (by decide)
    · rw [Nat.add_zero, h.pages]
      exact Nat.lt_of_le_of_lt (Nat.div_mul_le_self _ _) h.short

theorem Ready.inserts (h : s.Ready ref t n) (made : Row.new t.schema values = .ok row)
    (countable : Layout.Countable t.pageSize) (room : n < t.layout.slots * File.pageLimit t.pageSize) :
    (insertOnce t.id values).Ends s fun answer s' => answer = .ok () ∧ s'.Ready ref t (n + 1) := by
  have schema : (s.catalog.table ref).schema = t.schema := by rw [h.table]
  have takes : (s.catalog.table ref).Takes row := Table.takes_new (schema ▸ made)
  have values : row.values = values := by
    obtain ⟨rfl, -⟩ := Row.new_eq_ok made
    rfl
  have slots : (s.catalog.table ref).layout.slots ≠ 0 := by
    rw [h.layout]
    rintro none
    rw [none, Nat.zero_mul] at room
    cases room
  have key := (h.coherent.guarded.keyed _ _ h.known).2
  have known : s.catalog.ref (s.catalog.table ref).id = .ok ref := by rw [key, h.known]
  unfold insertOnce begin
  simp only [Action.ends_bind, ends_table, h.byId, Action.mapError_ok, Action.andThen, schema,
    Action.ends_ofCause, made, Action.ends_get, Action.ends_set, Action.ends_pure]
  let begun : Store := { s with nextTx := s.nextTx + 1 }
  have sole : Plain.Sole s.nextTx begun.view := h.sole _ _
  refine (insertRow_stores (s := begun) (h.coherent.withNextTx _) sole h.known slots takes
    (h.extendable countable room)).mono ?_
  rintro answer u ⟨rfl, stores⟩
  have frames : 0 < u.settings.poolPages := by
    rw [stores.settings]
    exact h.frames
  rw [Action.andThen]
  refine (commit_rests stores.coherent (stores.sole sole) frames).mono ?_
  rintro answer w ⟨rfl, rest, catalog, total⟩
  have counted : (u.catalog.table ref).length / t.pageSize < UInt32.size := by
    have counted : (u.catalog.table ref).length = (s.catalog.table ref).length ∨ _ ∧ _ ∧
        (u.catalog.table ref).length / (s.catalog.table ref).pageSize < UInt32.size :=
      stores.kin.counted ref
    rcases counted with same | ⟨-, -, few⟩
    · rw [same]
      exact h.counted
    · rwa [h.pageSize] at few
  refine ⟨rfl, rest, ?_, ?_, ?_, ?_, ?_⟩
  · rw [catalog, stores.grown.ref]
    exact h.known
  · rw [catalog, stores.grown.table ref]
    exact congrArg (fun old : Table => { old with length := (u.catalog.table ref).length }) h.table
  · rw [catalog]
    exact counted
  · rw [catalog]
    exact h.short_of_stores room stores counted
  · rw [stock_congr catalog total, (stores.stock known).length_eq, List.length_cons]
    exact congrArg (· + 1) h.rows

/-- If all pages are full and none can be added, that is a crash. -/
theorem Ready.crashes (h : s.Ready ref t n) (made : Row.new t.schema values = .ok row)
    (slots : t.layout.slots ≠ 0) (full : n = (s.catalog.table ref).pages * t.layout.slots)
    (stuck : ¬(s.catalog.table ref).Extendable) (tries : Nat) :
    (insertAlone t.id row (tries + 1)).Ends s fun answer _ => answer = .error .crashed := by
  have schema : (s.catalog.table ref).schema = t.schema := by rw [h.table]
  have takes : (s.catalog.table ref).Takes row := Table.takes_new (schema ▸ made)
  have none : s.free? ref = none := by
    rw [free?_eq_none_iff, h.rows, h.layout, full]
  let begun : Store := { s with nextTx := s.nextTx + 1 }
  unfold insertAlone begin
  simp only [Action.ends_bind, Action.ends_get, Action.ends_set, Action.ends_pure, Action.andThen,
    Action.ends_attempt]
  refine (insertRow_crashes (s := begun) (h.coherent.withNextTx _) (h.sole _ _) h.known
    (h.layout.symm ▸ slots) takes none stuck).mono ?_
  rintro answer u rfl
  rfl

/-- Any number of them, one after the other. -/
theorem Ready.insertsAll (h : s.Ready ref t n) {values : Nat → List Value}
    (made : ∀ k, ∃ row, Row.new t.schema (values k) = .ok row) (countable : Layout.Countable t.pageSize)
    (count first : Nat) (room : n + count ≤ t.layout.slots * File.pageLimit t.pageSize) :
    (forFrom (fun k => insertOnce t.id (values k)) count first).Ends s fun answer s' =>
      answer = .ok () ∧ s'.Ready ref t (n + count) := by
  induction count generalizing s n first with
  | zero => exact ⟨rfl, h⟩
  | succ count ih =>
    obtain ⟨row, made'⟩ := made first
    unfold forFrom
    rw [Action.ends_bind]
    refine (h.inserts made' countable (by omega)).mono ?_
    rintro answer u ⟨rfl, ready⟩
    rw [Action.andThen, show n + (count + 1) = n + 1 + count by omega]
    exact ih ready (first + 1) (by omega)

/-- A scan that tells its rows takes locks and moves on, and nothing else. -/
theorem outlasts_moves (r : ScanRef) (sc : Scan) (start : Plain) :
    Outlasts r fun v => v.Reads r sc ∧ Plain.Moves sc.tx (some r) start v := by
  refine ⟨fun v more w kept ended => ?_, fun v row w kept ended => ?_⟩
  · have moves := (Plain.moving_hasNext kept.1).of_ok ended
    exact ⟨moves.reads kept.1, kept.2.trans moves⟩
  · have moves := (Plain.moving_nextRow kept.1).of_ok ended
    exact ⟨moves.reads kept.1, kept.2.trans moves⟩

/-- A new transaction is told a whole table. -/
theorem AtRest.tells (h : s.AtRest) (known : s.catalog.ref i = .ok ref)
    (some : (s.catalog.table ref).pageSize ≠ 0) :
    (do openScan s.scans.size; allRows s.scans.size).Ends (s.readied ref) fun answer s' =>
      answer = Except.ok (s.view.rowsFrom ref 0, none) ∧ s'.Idle ∧
        Plain.Moves s.nextTx (.some s.scans.size) (s.readied ref).view s'.view := by
  let sc : Scan := { table := ref, tx := s.nextTx }
  obtain ⟨valid, here⟩ := s.scan_readied ref
  have reads : (s.readied ref).view.Reads s.scans.size sc := ⟨valid, by rw [here], by rw [here]⟩
  have readable : ¬s.Unreadable ref := by
    rintro (none | ⟨-, impatient⟩)
    · exact some none
    · rw [h.patient] at impatient
      cases impatient
  refine (readied_ends h.idle known readable (fun u id => h.unlocked u id .exclusive) (fun w ended => ?_)
    (outlasts_moves s.scans.size sc (s.readied ref).view)).mono ?_
  · have moves := (Plain.moving_openScan reads).of_ok ended
    exact ⟨moves.reads reads, moves⟩
  · rintro answer s' ⟨answers, idle, -, moves⟩
    exact ⟨answers, idle, moves⟩

/-- A count tells the number of rows and leaves them as they are. -/
theorem Ready.counts (h : s.Ready ref t n) (some : t.pageSize ≠ 0) :
    (Workload.count t.id).Ends s fun answer s' =>
      answer = .ok n ∧ s'.Ready ref t n ∧ s'.catalog = s.catalog := by
  have key := (h.coherent.guarded.keyed _ _ h.known).2
  have rows : (s.view.rowsFrom ref 0).length = n := by
    have count : ((s.view.rowsFrom ref 0).map Row.values).length = (s.view.rowsFrom ref 0).length :=
      List.length_map _
    rw [← count, values_rowsFrom h.coherent (by rw [key, h.known]), h.rows]
  have told := h.tells h.known (h.pageSize ▸ some)
  unfold Workload.count begin newScan
  simp only [Action.ends_bind, Action.ends_get, Action.ends_set, Action.ends_pure, Action.andThen,
    Action.ends_ofCause, h.known, Action.mapError_ok]
  rw [Action.ends_bind] at told
  refine told.mono ?_
  rintro (e | a) u ended
  · cases ended.1
  rw [Action.andThen] at ended ⊢
  rw [Action.ends_bind]
  refine ended.mono ?_
  rintro answer v ⟨rfl, idle, moves⟩
  simp only [Action.andThen, Action.ends_bind]
  let closed : Store := { v with
    scans := v.scans.setIfInBounds s.scans.size { v.scans.getD s.scans.size default with rest := none } }
  have sole : Plain.Sole s.nextTx closed.view :=
    ⟨moves.patient.trans h.patient,
      fun u p mode held => (moves.locks.own u p mode held).resolve_left (h.unlocked u p mode)⟩
  have closes : (closeScan s.scans.size).Ends v fun answer w => answer = .ok () ∧ w = closed := ⟨rfl, rfl⟩
  refine closes.mono ?_
  rintro answer w ⟨rfl, rfl⟩
  rw [Action.andThen, Action.ends_bind]
  refine (commit_rests (idle.coherent.withScans closed.scans) sole idle.frames).mono ?_
  rintro answer w ⟨rfl, rest, catalog, total⟩
  have same := catalog.trans (moves.still (by simp))
  exact ⟨congrArg Except.ok rows, h.of_same rest same (total.trans moves.total), same⟩

end Store

namespace Workload
open Store

variable {o : Options} {uptime : Nat} {disk : Disk} {settings : Settings} {f : File} {s s' : Store} {table : TableId}

def pageLayout (pageSize : Nat) : Layout := .ofSchema accounts pageSize

/-- The file of the accounts, or an empty one if there is none. -/
def accountsIn (disk : Disk) : File := (disk.get? fileName).getD {}

/-- The slots in use on the complete pages of a file. -/
def usedSlots (pageSize : Nat) (f : File) : Nat :=
  ((List.range (f.length / pageSize)).flatMap fun n =>
    (pageLayout pageSize).usedSlots (f.span (n * pageSize) pageSize)).length

/-- The table of accounts when it is opened. -/
def opened (pageSize : Nat) (f : File) : Table := ⟨1, fileName, accounts, pageSize, f.length⟩

theorem extendable_opened (pageSize : Nat) (f : File) : (opened pageSize f).Extendable ↔
    pageSize < Bytes.limit ∧ f.length / pageSize + 1 < UInt32.size := Iff.rfl

/-- The store once it is. -/
def openedIn (settings : Settings) (disk : Disk) (f : File) : Store :=
  { Store.new settings disk with
    catalog := (({} : Catalog).allocate.2).add (opened settings.pageSize f) "accounts" "id" }

theorem opened_ready (there : disk.get? fileName = some f) (frames : 0 < settings.poolPages)
    (patient : settings.hasDeadline = true) (counted : f.length / settings.pageSize < UInt32.size)
    (short : f.length < File.limit) :
    (openedIn settings disk f).Ready 0 (opened settings.pageSize f) (usedSlots settings.pageSize f) := by
  have distinct : (openedIn settings disk f).catalog.Distinct := by
    intro i below j below' _
    have one : (openedIn settings disk f).catalog.opened.size = 1 := rfl
    omega
  have nameable : Disk.Nameable fileName := ⟨rfl, by decide⟩
  have coherent : (openedIn settings disk f).Coherent :=
    (coherent_new settings disk).allocate.register (t := opened settings.pageSize f) distinct
      ⟨f, there, rfl⟩ nameable
  have table : (openedIn settings disk f).catalog.table 0 = opened settings.pageSize f := rfl
  have known : (openedIn settings disk f).catalog.ref 1 = .ok 0 := rfl
  have rest : (openedIn settings disk f).AtRest :=
    ⟨coherent, fun _ _ _ => Locks.not_held_empty _, frames, patient⟩
  refine ⟨rest, known, rfl, counted, short, ?_⟩
  have listed : (openedIn settings disk f).catalog.ref
      ((openedIn settings disk f).catalog.table 0).id = .ok 0 := known
  rw [length_stock coherent listed, table, Table.pages,
    show (opened settings.pageSize f).length / (opened settings.pageSize f).pageSize % UInt32.size =
      f.length / settings.pageSize from Nat.mod_eq_of_lt counted, usedSlots]
  refine congrArg List.length (List.flatMap_congr fun n inside => ?_)
  have here : (openedIn settings disk f).catalog.ref (PageId.mk 1 n).table = .ok 0 := known
  have below : n < ((openedIn settings disk f).catalog.table 0).pages := by
    rw [table, Table.pages]
    exact Nat.lt_of_lt_of_eq (List.mem_range.mp inside) (Nat.mod_eq_of_lt counted).symm
  have bytes : (openedIn settings disk f).total ⟨1, n⟩ =
      f.span (n * settings.pageSize) settings.pageSize :=
    coherent.total_of_file (rest.idle.clean _) here below there
  exact congrArg (pageLayout settings.pageSize).usedSlots bytes

/-- What the program does first. -/
def openAccounts : Action TableId := do
  if (← get).disk.contains fileName then openTable fileName "accounts" accounts "id"
  else createTable fileName "accounts" accounts "id"

theorem run_eq (o : Options) : run o = (do
    let table ← openAccounts
    let _ ← count table
    forFrom (fun writer => do let _ ← (write table writer o.transactions).attempt) o.threads 0
    count table) := by
  unfold run openAccounts
  rw [bind_assoc]
  refine congrArg (get >>= ·) (funext fun s => ?_)
  split <;> rfl

theorem openAccounts_ready (frames : 0 < settings.poolPages) (patient : settings.hasDeadline = true)
    (counted : (accountsIn disk).length / settings.pageSize < UInt32.size)
    (short : (accountsIn disk).length < File.limit) :
    ∃ s, openAccounts (Store.new settings disk) = .ok 1 s ∧
      s.catalog.table 0 = opened settings.pageSize (accountsIn disk) ∧
      s.Ready 0 (opened settings.pageSize (accountsIn disk))
        (usedSlots settings.pageSize (accountsIn disk)) := by
  unfold accountsIn at *
  have nameable : Disk.Nameable fileName := ⟨rfl, by decide⟩
  cases there : disk.get? fileName with
  | some f =>
    rw [there] at counted short
    have loaded : Table.load disk 1 fileName accounts settings.pageSize =
        .ok (opened settings.pageSize f) :=
      Table.load_eq (t := opened settings.pageSize f) ⟨f, there, rfl⟩ nameable 1
    have opens : openAccounts (Store.new settings disk) = .ok 1 (openedIn settings disk f) := by
      have contained : (Store.new settings disk).disk.contains fileName = true := Option.isSome_of_mem there
      refine Action.bind_eq_ok_iff.mpr ⟨_, _, rfl, ?_⟩
      rw [if_pos contained]
      refine Action.bind_eq_ok_iff.mpr ⟨_, _, rfl, Action.bind_eq_ok_iff.mpr ⟨_, _, rfl, ?_⟩⟩
      exact Action.bind_eq_ok_iff.mpr ⟨_, _, openWithId_eq _ loaded, rfl⟩
    exact ⟨_, opens, rfl, opened_ready there frames patient counted short⟩
  | none =>
    rw [there] at counted short
    have created : Table.create disk 1 fileName accounts settings.pageSize =
        .ok (opened settings.pageSize {}, disk.insert fileName {}) := by
      rw [Table.create, Disk.create_of_nameable nameable there]
      rfl
    have opens : openAccounts (Store.new settings disk) =
        .ok 1 (openedIn settings (disk.insert fileName {}) {}) := by
      have absent : ¬(Store.new settings disk).disk.contains fileName = true :=
        Option.not_isSome_iff_eq_none.mpr there
      refine Action.bind_eq_ok_iff.mpr ⟨_, _, rfl, ?_⟩
      rw [if_neg absent]
      refine Action.bind_eq_ok_iff.mpr ⟨_, _, rfl, Action.bind_eq_ok_iff.mpr ⟨_, _, rfl, ?_⟩⟩
      exact Action.bind_eq_ok_iff.mpr ⟨_, _, createWithId_eq _ created, rfl⟩
    refine ⟨_, opens, rfl, opened_ready ?_ frames patient counted short⟩
    rw [Assoc.get?_insert, if_pos rfl]
    rfl

theorem new_account (transactions i : Nat) : ∃ row, Row.new accounts (account 0 transactions i) = .ok row :=
  ⟨_, rfl⟩

/-- What a transaction does that nothing comes in the way of is what the writer does for a row. -/
theorem writeOne_of_insertOnce {writer transactions i : Nat}
    (done : insertOnce table (account writer transactions i) s = .ok () s') :
    writeOne table writer transactions i s = .ok () s' := by
  obtain ⟨t, u, found, done⟩ := Action.bind_eq_ok_iff.mp done
  obtain ⟨row, u', made, done⟩ := Action.bind_eq_ok_iff.mp done
  obtain ⟨tx, v, begun, done⟩ := Action.bind_eq_ok_iff.mp done
  obtain ⟨record, w, inserted, committed⟩ := Action.bind_eq_ok_iff.mp done
  have alone : insertAlone table row tries u' = .ok 0 s' := by
    refine Action.bind_eq_ok_iff.mpr ⟨_, _, begun, ?_⟩
    refine Action.bind_eq_ok_iff.mpr ⟨_, _, Action.attempt_of_ok inserted, ?_⟩
    exact Action.bind_eq_ok_iff.mpr ⟨_, _, committed, rfl⟩
  refine Action.bind_eq_ok_iff.mpr ⟨_, _, found, ?_⟩
  refine Action.bind_eq_ok_iff.mpr ⟨_, _, made, ?_⟩
  exact Action.bind_eq_ok_iff.mpr ⟨_, _, alone, rfl⟩

theorem forFrom_of {act act' : Nat → Action Unit}
    (each : ∀ i s s', act i s = .ok () s' → act' i s = .ok () s') (count first : Nat)
    (done : forFrom act count first s = .ok () s') : forFrom act' count first s = .ok () s' := by
  induction count generalizing s first with
  | zero => exact done
  | succ count ih =>
    obtain ⟨⟨⟩, t, now, later⟩ := Action.bind_eq_ok_iff.mp done
    exact Action.bind_eq_ok_iff.mpr ⟨_, _, each first s t now, ih (first + 1) later⟩

/-- The program with one writer, without what it has to do about failures. It tells how many accounts
there were and how many there are. -/
def straight (o : Options) : Action (Nat × Nat) := do
  let table ← openAccounts
  let before ← count table
  forFrom (fun i => insertOnce table (account 0 o.transactions i)) o.transactions 0
  let after ← count table
  return (before, after)

theorem run_of_straight (one : o.threads = 1) {before after : Nat}
    (done : straight o s = .ok (before, after) s') : run o s = .ok after s' := by
  obtain ⟨table, t, opened, done⟩ := Action.bind_eq_ok_iff.mp done
  obtain ⟨n, u, counted, done⟩ := Action.bind_eq_ok_iff.mp done
  obtain ⟨⟨⟩, v, written, done⟩ := Action.bind_eq_ok_iff.mp done
  obtain ⟨m, w, counted', done⟩ := Action.bind_eq_ok_iff.mp done
  cases done
  have writes : write table 0 o.transactions u = .ok () v :=
    forFrom_of (fun i s s' => writeOne_of_insertOnce) _ _ written
  rw [run_eq, one]
  refine Action.bind_eq_ok_iff.mpr ⟨_, _, opened, ?_⟩
  refine Action.bind_eq_ok_iff.mpr ⟨_, _, counted, ?_⟩
  refine Action.bind_eq_ok_iff.mpr ⟨(), v, ?_, counted'⟩
  refine Action.bind_eq_ok_iff.mpr ⟨(), v, ?_, rfl⟩
  exact Action.bind_eq_ok_iff.mpr ⟨_, _, Action.attempt_of_ok writes, rfl⟩

theorem execute_eq (usable : Disk.checkDirectory o.data = .ok ()) (fits : o.poolSize ≤ Pool.maxCapacity) :
    executeAt uptime o disk = match run o (Store.new (o.settings uptime) disk) with
      | .ok n s => ⟨0, s!"{n} tuples in table accounts", s.disk⟩
      | .error (.failed f) s => ⟨1, s!"Error: {f.text}", s.disk⟩
      | .error .crashed s => ⟨101, "crashed", s.disk⟩ := by
  have answer : (Store.new? (o.settings uptime) disk).map (run o) =
      some (run o (Store.new (o.settings uptime) disk)) := by
    rw [Store.new?, if_pos (show (o.settings uptime).poolPages ≤ Pool.maxCapacity from fits)]
    rfl
  unfold executeAt
  rw [usable]
  dsimp only
  rw [answer]
  cases run o (Store.new (o.settings uptime) disk) with
  | ok n s => rfl
  | error e s => cases e <;> rfl

theorem pageSize_ne_zero {pageSize : Nat} (slots : 0 < (pageLayout pageSize).slots) (f : File) :
    (opened pageSize f).pageSize ≠ 0 :=
  Nat.ne_of_gt (Table.pageSize_pos_of_slots (t := opened pageSize f) (Nat.ne_of_gt slots))

/-- With one writer no transaction is aborted and no step fails, and in the end the rows are counted that
were there and those that were inserted, if there can be as many pages as they need. The file stays as short
as files have to be. Memory does not run out, and the system accepts every write. -/
theorem nothing_is_lost (usable : Disk.checkDirectory o.data = .ok ()) (one : o.threads = 1)
    (countable : Layout.Countable o.pageSize) (slots : 0 < (pageLayout o.pageSize).slots)
    (frames : 0 < o.poolSize) (fits : o.poolSize ≤ Pool.maxCapacity)
    (patient : (o.settings uptime).hasDeadline = true)
    (counted : (accountsIn disk).length / o.pageSize < UInt32.size)
    (short : (accountsIn disk).length < File.limit)
    (room : usedSlots o.pageSize (accountsIn disk) + o.transactions ≤
      (pageLayout o.pageSize).slots * File.pageLimit o.pageSize) :
    let before := usedSlots o.pageSize (accountsIn disk)
    let after := before + o.transactions
    ∃ s, straight o (Store.new (o.settings uptime) disk) = .ok (before, after) s ∧
      run o (Store.new (o.settings uptime) disk) = .ok after s ∧
      executeAt uptime o disk = ⟨0, s!"{after} tuples in table accounts", s.disk⟩ ∧
      (accountsIn s.disk).length < File.limit := by
  intro before after
  obtain ⟨s, opens, -, ready⟩ := openAccounts_ready frames patient counted short
  have some := pageSize_ne_zero slots (accountsIn disk)
  obtain ⟨t, counts, ready, -⟩ := (ready.counts some).exists_ok
  obtain ⟨u, inserts, ready⟩ :=
    (ready.insertsAll (new_account o.transactions) countable o.transactions 0 room).exists_ok
  obtain ⟨v, counts', ready, -⟩ := (ready.counts some).exists_ok
  have goes : straight o (Store.new (o.settings uptime) disk) = .ok (before, after) v := by
    refine Action.bind_eq_ok_iff.mpr ⟨_, _, opens, ?_⟩
    refine Action.bind_eq_ok_iff.mpr ⟨_, _, counts, ?_⟩
    refine Action.bind_eq_ok_iff.mpr ⟨_, _, inserts, ?_⟩
    exact Action.bind_eq_ok_iff.mpr ⟨_, _, counts', rfl⟩
  have runs := run_of_straight one goes
  refine ⟨v, goes, runs, ?_, ?_⟩
  · rw [execute_eq usable fits, runs]
  · obtain ⟨f, there, length⟩ := ready.coherent.backed 1 0 ready.known
    have file : (v.catalog.table 0).file = fileName := by
      rw [ready.table]
      rfl
    rw [file] at there
    rw [accountsIn, there, Option.getD_some, length]
    exact ready.short

/-- One writer, and a few frames. -/
def single (pageSize poolSize transactions : Nat) : Options :=
  { data := "data", poolSize, pageSize, threads := 1, transactions }

theorem slots_narrow : (pageLayout 138).slots = 1 := by decide

@[simp] theorem pageSize_single (pageSize poolSize transactions : Nat) :
    (single pageSize poolSize transactions).pageSize = pageSize := rfl

theorem usable_single (pageSize poolSize transactions : Nat) :
    Disk.checkDirectory (single pageSize poolSize transactions).data = .ok () := by
  change Disk.checkDirectory "data" = .ok ()
  unfold Disk.checkDirectory
  rw [if_neg (by decide +kernel), if_neg (by decide +kernel), if_neg (by decide +kernel),
    if_neg (by decide +kernel)]

/-- A directory with that file of accounts. -/
def holding (f : File) : Disk := ({} : Disk).insert fileName f

theorem accountsIn_holding (f : File) : accountsIn (holding f) = f := rfl

/-- Two rows on new pages behind one that is full. -/
theorem nothing_is_lost_behind_full_page :
    let o := single 138 1 2
    let disk := holding ⟨[⟨0, ⟨#[1]⟩⟩], 141⟩
    ∃ s, straight o (Store.new (o.settings 7) disk) = .ok (1, 3) s ∧
      run o (Store.new (o.settings 7) disk) = .ok 3 s ∧
      executeAt 7 o disk = ⟨0, "3 tuples in table accounts", s.disk⟩ ∧
      (accountsIn s.disk).length < File.limit := by
  intro o disk
  have before : usedSlots o.pageSize (accountsIn disk) = 1 := by decide +kernel
  have room : usedSlots o.pageSize (accountsIn disk) + o.transactions ≤
      (pageLayout o.pageSize).slots * File.pageLimit o.pageSize := by
    rw [before]
    decide +kernel
  have told := nothing_is_lost (usable_single 138 1 2) rfl (by decide)
    (Nat.lt_of_lt_of_eq Nat.one_pos slots_narrow.symm) (by decide) (by decide)
    (by decide : (o.settings 7).hasDeadline = true) (by decide) (by decide) room
  rwa [before] at told

/-- If all pages are full and no page can be added, then a transaction more is a crash. -/
theorem crashes_without_room (usable : Disk.checkDirectory o.data = .ok ()) (one : o.threads = 1)
    (slots : 0 < (pageLayout o.pageSize).slots) (frames : 0 < o.poolSize)
    (fits : o.poolSize ≤ Pool.maxCapacity) (patient : (o.settings uptime).hasDeadline = true)
    (counted : (accountsIn disk).length / o.pageSize < UInt32.size)
    (short : (accountsIn disk).length < File.limit)
    (full : usedSlots o.pageSize (accountsIn disk) =
      (accountsIn disk).length / o.pageSize * (pageLayout o.pageSize).slots)
    (stuck : ¬(opened o.pageSize (accountsIn disk)).Extendable) (some : 0 < o.transactions) :
    (executeAt uptime o disk).code = 101 := by
  obtain ⟨s, opens, table, ready⟩ := openAccounts_ready frames patient counted short
  obtain ⟨t, counts, ready, same⟩ := (ready.counts (pageSize_ne_zero slots _)).exists_ok
  obtain ⟨row, made⟩ : ∃ row, Row.new (opened (o.settings uptime).pageSize (accountsIn disk)).schema
    (account 0 o.transactions 0) = .ok row := new_account o.transactions 0
  obtain ⟨more, transactions⟩ := Nat.exists_eq_add_one.mpr some
  rw [← same] at table
  have pages : (t.catalog.table 0).pages = (accountsIn disk).length / o.pageSize := by
    rw [ready.pages, table]
    rfl
  have first : (writeOne 1 0 o.transactions 0).Ends t fun answer _ => answer = .error .crashed := by
    unfold writeOne
    rw [Action.ends_bind, ends_table, show t.catalog.byId 1 = .ok _ from ready.byId, ready.table]
    simp only [Action.mapError_ok, Action.andThen, Action.ends_bind, Action.ends_ofCause, made]
    rw [← Action.ends_bind]
    refine Action.crashes_bind (ready.crashes made (Nat.ne_of_gt slots) ?_ ?_ 99) _
    · rw [pages]
      exact full
    · rw [table]
      exact stuck
  have writes : (write 1 0 o.transactions).Ends t fun answer _ => answer = .error .crashed := by
    unfold write
    rw [transactions] at first ⊢
    exact Action.crashes_bind first _
  have runs : (run o).Ends (Store.new (o.settings uptime) disk) fun answer _ => answer = .error .crashed := by
    rw [run_eq, one]
    refine Action.ends_bind_of_ok opens (Action.ends_bind_of_ok counts ?_)
    have attempted := Action.crashes_attempt writes
    exact Action.crashes_bind (Action.crashes_bind (Action.crashes_bind attempted _) _) _
  rw [execute_eq usable fits]
  unfold Action.Ends at runs
  cases ended : run o (Store.new (o.settings uptime) disk) with
  | ok n v =>
    rw [ended] at runs
    cases runs
  | error e v =>
    rw [ended] at runs
    cases runs
    rfl

theorem length_usedSlots_le {pageSize n : Nat} {f : File} (complete : n < f.length / pageSize) :
    ((pageLayout pageSize).usedSlots (f.span (n * pageSize) pageSize)).length ≤ usedSlots pageSize f := by
  rw [usedSlots, List.length_flatMap]
  refine List.single_le_sum (fun _ _ => Nat.zero_le _) _ ?_
  exact List.mem_map.mpr ⟨n, List.mem_range.mpr complete, rfl⟩

theorem length_ones (n : Nat) : (File.ofBytes (.replicate n 255)).length = n := Bytes.size_replicate n 255

/-- In a file of ones all slots of all pages are in use. -/
theorem usedSlots_ones (pageSize n : Nat) : usedSlots pageSize (.ofBytes (.replicate n 255)) =
    (pageLayout pageSize).slots * (n / pageSize) := by
  let f : File := .ofBytes (.replicate n 255)
  have each : ∀ k ∈ List.range (n / pageSize),
      ((pageLayout pageSize).usedSlots (f.span (k * pageSize) pageSize)).length =
        (pageLayout pageSize).slots := by
    intro k inside
    have complete : k * pageSize + pageSize ≤ n := by
      rw [← Nat.succ_mul]
      have below := Nat.mul_le_mul_right pageSize (List.mem_range.mp inside)
      exact Nat.le_trans below (Nat.div_mul_le_self n pageSize)
    rw [Layout.usedSlots, List.filter_eq_self.mpr, List.length_range]
    intro i below
    have front : i / 8 < pageSize :=
      Nat.lt_of_lt_of_le (Layout.div_lt_header (List.mem_range.mp below)) (Layout.header_le _)
    have one : (f.span (k * pageSize) pageSize).byte? (i / 8) = some 255 := by
      rw [File.byte?_span _ _ front]
      simp [f, File.ofBytes, File.byte, Piece.byte?, show k * pageSize + i / 8 < n by omega]
    exact Bytes.bit_of_ones (by rw [one]; rfl)
  rw [usedSlots, length_ones, List.length_flatMap, List.map_congr_left each]
  simp [Nat.mul_comm]

/-- A pool can be too large to be made, a page that is beyond the last page number is not read, and without a
page number left nothing can be added, nor if the page can not be made. -/
theorem rows_uncounted :
    0 < (pageLayout 138).slots ∧
    (usedSlots 138 (accountsIn {}) = 0 ∧
      execute (single 138 (UInt64.size - 1) 0) {} = ⟨101, "crashed", {}⟩) ∧
    (0 < usedSlots 138 ⟨[⟨138, ⟨#[1]⟩⟩], (UInt32.size + 1) * 138⟩ ∧
      (execute (single 138 1 0) (holding ⟨[⟨138, ⟨#[1]⟩⟩], (UInt32.size + 1) * 138⟩)).line =
        "0 tuples in table accounts") ∧
    (usedSlots 138 (.ofBytes (.replicate ((UInt32.size - 1) * 138) 255)) = UInt32.size - 1 ∧
      (execute (single 138 1 1) (holding (.ofBytes (.replicate ((UInt32.size - 1) * 138) 255)))).code = 101) ∧
    0 < (pageLayout (2 ^ 63 + 200)).slots ∧ usedSlots (2 ^ 63 + 200) (accountsIn {}) = 0 ∧
      (execute (single (2 ^ 63 + 200) 50 1) {}).code = 101 := by
  have full : usedSlots 138 (.ofBytes (.replicate ((UInt32.size - 1) * 138) 255)) = UInt32.size - 1 := by
    rw [usedSlots_ones, slots_narrow, Nat.one_mul, Nat.mul_div_cancel _ (by decide)]
  refine ⟨by decide, ⟨by decide, ?_⟩, ⟨?_, by decide +kernel⟩, ⟨full, ?_⟩, by decide, by decide, ?_⟩
  · have crashed : Store.new? ((single 138 (UInt64.size - 1) 0).settings 86400) {} = none := by
      rw [Store.new?, if_neg (by decide)]
    unfold execute executeAt
    rw [usable_single, crashed]
    rfl
  · refine Nat.lt_of_lt_of_le ?_ (length_usedSlots_le (n := 1) (by decide))
    decide +kernel
  · have pages : (accountsIn (holding (.ofBytes (.replicate ((UInt32.size - 1) * 138) 255)))).length / 138 =
        UInt32.size - 1 := by
      rw [accountsIn_holding, length_ones, Nat.mul_div_cancel _ (by decide)]
    refine crashes_without_room (usable_single 138 1 1) rfl (by decide) (by decide) (by decide) (by decide)
      ?_ ?_ ?_ ?_ (by decide)
    · rw [pageSize_single, pages]
      decide
    · rw [accountsIn_holding, length_ones]
      decide
    · rw [pageSize_single, pages, accountsIn_holding, full, slots_narrow,
        Nat.mul_one]
    · rw [pageSize_single, accountsIn_holding, extendable_opened, length_ones,
        Nat.mul_div_cancel _ (by decide)]
      decide
  · exact crashes_without_room (usable_single _ 50 1) rfl (by decide) (by decide) (by decide) (by decide)
      (by decide) (by decide) (by decide) (by decide) (by decide)

end Workload
end HeapStore
