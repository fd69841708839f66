import HeapStore.Proofs.Performing

/-! What a scan returns while nobody changes anything: the rows of the pages of its table, one page
after the other. -/
namespace HeapStore

namespace Plain

variable {v w : Plain} {tx : TxId} {r : ScanRef} {ref : TableRef} {row : Row} {rows : List Row}

/-- The rows on page `number` of a table. -/
def rowsAt (v : Plain) (ref : TableRef) (number : Nat) : List Row :=
  let t := v.catalog.table ref
  (t.layout.rows? t.schema ⟨t.id, number⟩ (v.bytes ⟨t.id, number⟩)).getD []

/-- The rows on the pages of a table from page `number` on. -/
def rowsFrom (v : Plain) (ref : TableRef) (number : Nat) : List Row :=
  (List.range' number ((v.catalog.table ref).pages - number)).flatMap (v.rowsAt ref)

theorem rowsFrom_of_le {number : Nat} (beyond : (v.catalog.table ref).pages ≤ number) :
    v.rowsFrom ref number = [] := by
  rw [rowsFrom, Nat.sub_eq_zero_of_le beyond]
  rfl

theorem rowsFrom_of_lt {number : Nat} (inside : number < (v.catalog.table ref).pages) :
    v.rowsFrom ref number = v.rowsAt ref number ++ v.rowsFrom ref (number + 1) := by
  have count : (v.catalog.table ref).pages - number =
      (v.catalog.table ref).pages - (number + 1) + 1 := by omega
  rw [rowsFrom, count, List.range'_succ, List.flatMap_cons]
  rfl

/-- The transaction can read each page of the table. -/
structure Readable (v : Plain) (tx : TxId) (ref : TableRef) : Prop where
  patient : v.patient = true ∨ (v.catalog.table ref).pages = 0
  known : v.catalog.ref (v.catalog.table ref).id = .ok ref
  some : (v.catalog.table ref).pageSize ≠ 0
  whole : ∀ number < (v.catalog.table ref).pages,
    (v.bytes ⟨(v.catalog.table ref).id, number⟩).size = (v.catalog.table ref).pageSize
  free : ∀ u id, v.locks.Held u id .exclusive → u = tx

theorem Readable.withScans (h : v.Readable tx ref) (scans : Array Scan) :
    Readable { v with scans } tx ref :=
  ⟨h.patient, h.known, h.some, h.whole, h.free⟩

theorem fetchRows_eq (sc : Scan) {number : Nat} (h : v.Readable sc.tx sc.table)
    (inside : number < (v.catalog.table sc.table).pages) : ∃ locks,
      fetchRows sc number v = .ok (v.rowsAt sc.table number) { v with locks } ∧
        Readable { v with locks } sc.tx sc.table := by
  have patient : v.patient = true := h.patient.resolve_right (Nat.ne_of_gt (Nat.zero_lt_of_lt inside))
  -- a shared lock is refused only because of an exclusive one of somebody else
  have granted : v.locks.acquire? ⟨(v.catalog.table sc.table).id, number⟩ sc.tx .shared ≠ none := by
    intro denied
    obtain ⟨u, mode, other, held, clash⟩ := Locks.clash_of_denied denied
    cases mode with
    | shared => exact clash
    | exclusive => exact other (h.free u _ held)
  obtain ⟨locks, granted⟩ := Option.ne_none_iff_exists'.mp granted
  obtain ⟨rows, read⟩ := Option.isSome_iff_exists.mp (Layout.rows?_isSome
    (v.catalog.table sc.table).schema (v.catalog.table sc.table).pageSize
    ⟨(v.catalog.table sc.table).id, number⟩ (h.whole number inside))
  change (v.catalog.table sc.table).layout.rows? _ _ _ = _ at read
  refine ⟨locks, ?_, ⟨h.patient, h.known, h.some, h.whole, fun u id held => ?_⟩⟩
  · have got : getPage sc.tx ⟨(v.catalog.table sc.table).id, number⟩ .shared v =
        .ok (v.bytes ⟨(v.catalog.table sc.table).id, number⟩) { v with locks } :=
      getPage_eq_ok_iff.mpr ⟨lock_of_granted patient granted, ⟨sc.table, h.known, inside⟩, rfl⟩
    simp only [fetchRows, bind_eq, get_eq, got, read, rowsAt, Option.getD_some]
    rfl
  · rcases (Locks.held_of_acquire? granted).mp held with before | ⟨-, -, never⟩
    · exact h.free u id before
    · cases never

theorem length_rowsAt (v : Plain) (ref : TableRef) (number : Nat) :
    (v.rowsAt ref number).length ≤ (v.catalog.table ref).layout.slots := by
  unfold rowsAt
  dsimp only
  cases found : (v.catalog.table ref).layout.rows? (v.catalog.table ref).schema
      ⟨(v.catalog.table ref).id, number⟩ (v.bytes ⟨(v.catalog.table ref).id, number⟩) with
  | none => exact Nat.zero_le _
  | some rows => exact Layout.length_rows? found

theorem length_rowsFrom (v : Plain) (ref : TableRef) (number : Nat) :
    (v.rowsFrom ref number).length ≤
      ((v.catalog.table ref).pages - number) * (v.catalog.table ref).layout.slots := by
  unfold rowsFrom
  generalize (v.catalog.table ref).pages - number = count
  induction count generalizing number with
  | zero => exact Nat.zero_le _
  | succ count ih =>
    have first := v.length_rowsAt ref number
    have later := ih (number + 1)
    rw [List.range'_succ, List.flatMap_cons, List.length_append, Nat.succ_mul]
    omega

/-- Pages that are the same hold the same rows, under whatever id their table goes. -/
theorem placed_rowsAt {ref' : TableRef} {number : Nat}
    (schema : (w.catalog.table ref').schema = (v.catalog.table ref).schema)
    (pageSize : (w.catalog.table ref').pageSize = (v.catalog.table ref).pageSize)
    (bytes : w.bytes ⟨(w.catalog.table ref').id, number⟩ = v.bytes ⟨(v.catalog.table ref).id, number⟩) :
    (w.rowsAt ref' number).map Row.placed = (v.rowsAt ref number).map Row.placed := by
  have same := Layout.placed_rows? (v.catalog.table ref).layout (v.catalog.table ref).schema
    ⟨(w.catalog.table ref').id, number⟩ ⟨(v.catalog.table ref).id, number⟩ rfl
    (v.bytes ⟨(v.catalog.table ref).id, number⟩)
  have layout : (w.catalog.table ref').layout = (v.catalog.table ref).layout := by
    rw [Table.layout, Table.layout, schema, pageSize]
  have default : ∀ rows? : Option (List Row),
      (rows?.getD []).map Row.placed = (rows?.map (List.map Row.placed)).getD [] := by
    intro rows?
    cases rows? <;> rfl
  unfold rowsAt
  rw [default, default, layout, schema, bytes, same]

theorem placed_rowsFrom {ref' : TableRef}
    (schema : (w.catalog.table ref').schema = (v.catalog.table ref).schema)
    (pageSize : (w.catalog.table ref').pageSize = (v.catalog.table ref).pageSize)
    (pages : (w.catalog.table ref').pages = (v.catalog.table ref).pages)
    (bytes : ∀ number < (v.catalog.table ref).pages, w.bytes ⟨(w.catalog.table ref').id, number⟩ =
      v.bytes ⟨(v.catalog.table ref).id, number⟩) (number : Nat) :
    (w.rowsFrom ref' number).map Row.placed = (v.rowsFrom ref number).map Row.placed := by
  unfold rowsFrom
  rw [pages, List.map_flatMap, List.map_flatMap, List.flatMap_def, List.flatMap_def]
  congr 1
  refine List.map_congr_left fun k listed => placed_rowsAt schema pageSize (bytes k ?_)
  have := List.mem_range'_1.mp listed
  omega

/-- An open scan of a table with these rows left. -/
structure Scanning (v : Plain) (tx : TxId) (r : ScanRef) (ref : TableRef) (rows : List Row) : Prop where
  readable : v.Readable tx ref
  valid : r < v.scans.size
  table : (v.scans.getD r default).table = ref
  mover : (v.scans.getD r default).tx = tx
  left : ∃ rest, (v.scans.getD r default).rest = some rest ∧
    rest ++ v.rowsFrom ref ((v.scans.getD r default).page + 1) = rows

theorem getD_setIfInBounds {scans : Array Scan} (valid : r < scans.size) (sc : Scan) :
    (scans.setIfInBounds r sc).getD r default = sc := by
  simp [Array.getD_eq_getD_getElem?, valid]

/-- A scan that is set to a place has the rows from there on left. -/
theorem scanning_set (r : ScanRef) (sc : Scan) {rest : List Row} (readable : v.Readable sc.tx sc.table)
    (valid : r < v.scans.size) (here : sc.rest = some rest) :
    Scanning { v with scans := v.scans.setIfInBounds r sc } sc.tx r sc.table
      (rest ++ v.rowsFrom sc.table (sc.page + 1)) := by
  have now := getD_setIfInBounds valid sc
  refine ⟨readable.withScans _, ?_, ?_, ?_, ?_⟩
  · exact (Array.size_setIfInBounds ..).symm ▸ valid
  · exact congrArg Scan.table now
  · exact congrArg Scan.tx now
  · dsimp only
    rw [now]
    exact ⟨rest, here, rfl⟩

theorem scan_eq (r : ScanRef) (v : Plain) : scan r v = .ok (v.scans.getD r default) v := rfl

theorem pageCount_eq (sc : Scan) (some : (v.catalog.table sc.table).pageSize ≠ 0) :
    pageCount sc v = .ok (v.catalog.table sc.table).pages v := by
  simp only [pageCount, bind_eq, get_eq, Table.pageCount?, if_neg some]
  rfl

theorem setScan_eq (r : ScanRef) (sc : Scan) (v : Plain) :
    setScan r sc v = .ok () { v with scans := v.scans.setIfInBounds r sc } := rfl

/-- With enough tries the search for a row ends at one, or at the last page. -/
theorem seek_eq (fuel : Nat) (h : v.Scanning tx r ref rows)
    (enough : (v.catalog.table ref).pages ≤ (v.scans.getD r default).page + fuel) (pos : 0 < fuel) :
    ∃ w, seek r fuel v = .ok (!rows.isEmpty) w ∧ w.Scanning tx r ref rows ∧
      (∀ row rows', rows = row :: rows' → ∃ rest, (w.scans.getD r default).rest = some (row :: rest)) ∧
      (v.scans.getD r default).page ≤ (w.scans.getD r default).page := by
  induction fuel generalizing v with
  | zero => cases pos
  | succ fuel ih =>
    have scanning := h
    obtain ⟨readable, valid, rfl, rfl, rest, here, left⟩ := h
    unfold seek
    simp only [bind_eq, scan_eq]
    generalize at_r : v.scans.getD r default = sc at *
    rw [here]
    cases rest with
    | cons row rest =>
      subst left
      refine ⟨v, rfl, scanning, ?_, at_r ▸ Nat.le_refl _⟩
      intro row' rows' same
      cases same
      exact ⟨rest, at_r ▸ here⟩
    | nil =>
      rw [List.nil_append] at left
      simp only [bind_eq, pageCount_eq sc readable.some]
      split
      · rename_i last
        rw [rowsFrom_of_le last] at left
        subst left
        refine ⟨v, rfl, scanning, ?_, at_r ▸ Nat.le_refl _⟩
        intro _ _ never
        cases never
      · rename_i more
        have inside := Nat.lt_of_not_le more
        -- the next page is read, and the search goes on from there
        let next : Scan := { sc with page := sc.page + 1, rest := some [] }
        have moved : Readable { v with scans := v.scans.setIfInBounds r next } next.tx next.table :=
          readable.withScans _
        obtain ⟨locks, fetched, readable'⟩ := fetchRows_eq next moved inside
        let seen : Scan := { next with rest := some (v.rowsAt sc.table (sc.page + 1)) }
        have size : r < (v.scans.setIfInBounds r next).size := by
          rwa [Array.size_setIfInBounds]
        have scanning' := scanning_set r seen (readable'.withScans _) size rfl
        have now : ((v.scans.setIfInBounds r next).setIfInBounds r seen).getD r default = seen :=
          getD_setIfInBounds size seen
        have same : v.rowsAt sc.table (sc.page + 1) ++ v.rowsFrom sc.table (sc.page + 2) = rows := by
          rw [← left, rowsFrom_of_lt inside]
        simp only [bind_eq, setScan_eq]
        dsimp only [next] at fetched
        rw [fetched]
        dsimp only
        have before : (v.catalog.table sc.table).pages ≤ seen.page + fuel := by
          simp only [seen, next]
          omega
        obtain ⟨w, found, scanning'', first, further⟩ := ih (v := { v with
          locks, scans := (v.scans.setIfInBounds r next).setIfInBounds r seen })
          (same ▸ scanning') (by rw [now]; exact before) (by omega)
        rw [now] at further
        exact ⟨w, found, scanning'', first, Nat.le_of_succ_le further⟩

theorem hasNext_eq (h : v.Scanning tx r ref rows) : ∃ w, hasNext r v = .ok (!rows.isEmpty) w ∧
    w.Scanning tx r ref rows ∧
    (∀ row rows', rows = row :: rows' → ∃ rest, (w.scans.getD r default).rest = some (row :: rest)) ∧
    (v.scans.getD r default).page ≤ (w.scans.getD r default).page := by
  have table := h.table
  obtain ⟨w, found, rest⟩ := seek_eq ((v.catalog.table ref).pages + 2) h (by omega) (by omega)
  refine ⟨w, ?_, rest⟩
  simp only [hasNext, bind_eq, scan_eq, get_eq, table]
  exact found

theorem nextRow_eq (h : v.Scanning tx r ref (row :: rows)) :
    ∃ w, nextRow r v = .ok row w ∧ w.Scanning tx r ref rows ∧
      (v.scans.getD r default).page ≤ (w.scans.getD r default).page := by
  obtain ⟨w, found, ⟨readable, valid, table, mover, rest', here', left⟩, first, further⟩ := hasNext_eq h
  obtain ⟨rest, here⟩ := first row rows rfl
  rw [here] at here'
  cases here'
  let sc : Scan := { w.scans.getD r default with rest := some rest }
  have scanning := scanning_set r sc (table.symm ▸ mover.symm ▸ readable) valid rfl
  refine ⟨{ w with scans := w.scans.setIfInBounds r sc }, ?_, ?_, ?_⟩
  · simp only [nextRow, bind_eq, found, List.isEmpty_cons, Bool.not_false, if_true, scan_eq]
    rw [here]
    rfl
  · rw [← (List.cons.inj left).2]
    have same : sc.table = ref := table
    have same' : sc.tx = tx := mover
    rwa [same, same'] at scanning
  · dsimp only
    rw [getD_setIfInBounds valid]
    exact further

/-- A scan that is opened has all rows of its table left. -/
theorem openScan_eq (readable : v.Readable tx ref) (valid : r < v.scans.size)
    (table : (v.scans.getD r default).table = ref) (mover : (v.scans.getD r default).tx = tx) :
    ∃ w, openScan r v = .ok () w ∧ w.Scanning tx r ref (v.rowsFrom ref 0) ∧ w.catalog = v.catalog := by
  subst table
  subst mover
  simp only [openScan, bind_eq, scan_eq, setScan_eq]
  generalize v.scans.getD r default = sc at *
  let first : Scan := { sc with page := 0 }
  have size : r < (v.scans.setIfInBounds r first).size := by
    rwa [Array.size_setIfInBounds]
  have moved : Readable { v with scans := v.scans.setIfInBounds r first } first.tx first.table :=
    readable.withScans _
  have counted := pageCount_eq first moved.some
  dsimp only [first] at counted
  rw [counted]
  dsimp only
  split
  · rename_i none
    have scanning := scanning_set r { first with rest := some [] } moved size rfl
    have rows : v.rowsFrom sc.table 0 = [] ++ v.rowsFrom sc.table 1 := by
      rw [rowsFrom_of_le (Nat.le_of_eq none), rowsFrom_of_le (by omega), List.nil_append]
    rw [rows]
    exact ⟨_, rfl, scanning, rfl⟩
  · rename_i pages
    obtain ⟨locks, fetched, readable'⟩ := fetchRows_eq first moved (Nat.pos_of_ne_zero pages)
    have scanning := scanning_set r { first with rest := some (v.rowsAt sc.table 0) }
      readable' size rfl
    rw [rowsFrom_of_lt (Nat.pos_of_ne_zero pages)]
    simp only [bind_eq]
    dsimp only [first] at fetched
    rw [fetched]
    exact ⟨_, rfl, scanning, rfl⟩

/-- A scan is not opened if its pages have no size or if its lock is asked for without an end. -/
theorem openScan_crashed (table : (v.scans.getD r default).table = ref)
    (unreadable : (v.catalog.table ref).pageSize = 0 ∨
      (v.catalog.table ref).pages ≠ 0 ∧ v.patient = false) :
    ∃ w, openScan r v = .error .crashed w := by
  subst table
  simp only [openScan, bind_eq, scan_eq, setScan_eq]
  generalize v.scans.getD r default = sc at *
  let first : Scan := { sc with page := 0 }
  by_cases none : (v.catalog.table sc.table).pageSize = 0
  · have uncounted : pageCount first { v with scans := v.scans.setIfInBounds r first } =
        .error .crashed { v with scans := v.scans.setIfInBounds r first } := by
      simp only [pageCount, bind_eq, get_eq, first, Table.pageCount?, if_pos none]
      rfl
    dsimp only [first] at uncounted
    rw [uncounted]
    exact ⟨_, rfl⟩
  · obtain ⟨pages, impatient⟩ := unreadable.resolve_left none
    have counted := pageCount_eq (v := { v with scans := v.scans.setIfInBounds r first })
      first none
    dsimp only [first] at counted
    rw [counted]
    dsimp only
    rw [if_neg pages]
    simp only [fetchRows, getPage, bind_eq, get_eq, lock_eq, impatient, Bool.false_eq_true, if_false]
    exact ⟨_, rfl⟩

end Plain

namespace Store

variable {s s' : Store} {r : ScanRef} {ref : TableRef} {rows : List Row} {tx : TxId} {may : Prop}

/-- Files, tables and cached pages go together, and no page is dirty. -/
structure Idle (s : Store) : Prop where
  coherent : s.Coherent
  clean : ∀ id, s.owner id = none
  frames : 0 < s.settings.poolPages

theorem Idle.not_exhausted (h : s.Idle) {e : Stop} : ¬s.Exhausted e := by
  rintro ⟨-, full, -⟩
  obtain ⟨r, here, dirty⟩ := full 0 (by rw [h.coherent.capacity]; exact h.frames)
  have cached := image?_of_resident (h.coherent.guarded.pool.resident?_of_inFrame? here)
  have clean := h.clean (s.pool.page r).id
  rw [owner, cached] at clean
  rw [Page.isDirty, show (s.pool.page r).dirtiedBy = none from clean] at dirty
  cases dirty

theorem Upkeep.idle (upkeep : s.Upkeep tx s') (h : s.Idle) : s'.Idle where
  coherent := upkeep.coherent
  clean id := (upkeep.owner id).trans (h.clean id)
  frames := upkeep.settings ▸ h.frames

/-- Where the pool can not be exhausted, what follows the store without a pool does just the same. -/
theorem same_of_follows {tx : TxId} {α : Type} {x : Action α} {y : Plain.Act α} {a : α} {v : Plain}
    (follows : x.Ends s (Follows may tx s y Same)) (ended : y s.view = .ok a v)
    (spared : may → ∀ t e, s.Upkeep tx t → ¬t.Exhausted e) :
    x.Ends s fun answer s' => answer = .ok a ∧ s.Upkeep tx s' ∧ s'.view = v := by
  refine (answers_of_follows follows ended spared).mono ?_
  rintro answer t ⟨a, u, rfl, upkeep, view, rfl, rfl⟩
  exact ⟨rfl, upkeep, view⟩

/-- While no page is dirty it can not. -/
theorem Idle.same (tx : TxId) {α : Type} {x : Action α} {y : Plain.Act α} {a : α} {v : Plain} (h : s.Idle)
    (follows : x.Ends s (Follows may tx s y Same)) (ended : y s.view = .ok a v) :
    x.Ends s fun answer s' => answer = .ok a ∧ s'.Idle ∧ s'.view = v :=
  (same_of_follows follows ended fun _ _ _ upkeep => (upkeep.idle h).not_exhausted).mono
    fun _ _ done => ⟨done.1, done.2.1.idle h, done.2.2⟩

theorem Idle.crashes (tx : TxId) {α : Type} {x : Action α} {y : Plain.Act α} {v : Plain} (h : s.Idle)
    (follows : x.Ends s (Follows may tx s y Same)) (ended : y s.view = .error .crashed v) :
    x.Ends s fun answer _ => answer = .error .crashed :=
  crashes_of_follows follows ended fun _ _ _ upkeep => (upkeep.idle h).not_exhausted

/-- It stays true while a scan tells its rows. -/
structure Outlasts (r : ScanRef) (I : Plain → Prop) : Prop where
  hasNext : ∀ v more w, I v → Plain.hasNext r v = .ok more w → I w
  nextRow : ∀ v row w, I v → Plain.nextRow r v = .ok row w → I w

theorem nextRow?_ends {I : Plain → Prop} (outlasts : Outlasts r I) (h : s.Idle) (kept : I s.view)
    (scanning : s.view.Scanning tx r ref rows) :
    (nextRow? r).Ends s fun answer s' => answer = .ok rows.head? ∧ s'.Idle ∧ I s'.view ∧
      s'.view.Scanning tx r ref rows.tail := by
  obtain ⟨v, found, scanning', -⟩ := Plain.hasNext_eq scanning
  have kept := outlasts.hasNext _ _ _ kept found
  unfold nextRow?
  rw [Action.ends_bind]
  refine (h.same 0 (hasNext_follows h.coherent r fun _ => trivial) found).mono ?_
  rintro answer t ⟨rfl, idle, rfl⟩
  rw [Action.andThen]
  cases rows with
  | nil => exact ⟨rfl, idle, kept, scanning'⟩
  | cons row rows =>
    obtain ⟨v, next, scanning'', -⟩ := Plain.nextRow_eq scanning'
    have kept := outlasts.nextRow _ _ _ kept next
    simp only [List.isEmpty_cons, Bool.not_false, if_true]
    rw [Action.ends_bind]
    refine (idle.same 0 (nextRow_follows idle.coherent r fun _ => trivial) next).mono ?_
    rintro answer u ⟨rfl, idle', rfl⟩
    exact ⟨rfl, idle', kept, scanning''⟩

theorem takeRows_ends {I : Plain → Prop} (outlasts : Outlasts r I) (h : s.Idle) (kept : I s.view)
    (scanning : s.view.Scanning tx r ref rows) (n : Nat) :
    (takeRows r n).Ends s fun answer s' =>
      answer = .ok (rows.take n, none) ∧ s'.Idle ∧ I s'.view := by
  induction n generalizing s rows with
  | zero => exact ⟨rfl, h, kept⟩
  | succ n ih =>
    unfold takeRows
    rw [Action.ends_bind, Action.ends_attempt]
    refine (nextRow?_ends outlasts h kept scanning).mono ?_
    rintro answer t ⟨rfl, idle, kept, scanning'⟩
    cases rows with
    | nil => exact ⟨rfl, idle, kept⟩
    | cons row rows =>
      simp only [Action.attempted, Action.andThen, List.head?_cons]
      rw [Action.ends_bind]
      refine (ih idle kept scanning').mono ?_
      rintro answer u ⟨rfl, idle, kept⟩
      exact ⟨rfl, idle, kept⟩

/-- A table has no more rows than slots, so all of them are taken. -/
theorem allRows_ends {I : Plain → Prop} (outlasts : Outlasts r I) (h : s.Idle) (kept : I s.view)
    (scanning : s.view.Scanning tx r ref rows)
    (few : rows.length ≤ (s.catalog.table ref).pages * (s.catalog.table ref).layout.slots) :
    (allRows r).Ends s fun answer s' => answer = .ok (rows, none) ∧ s'.Idle ∧ I s'.view := by
  have table : (s.scans.getD r default).table = ref := scanning.table
  unfold allRows
  rw [Action.ends_bind, Action.ends_get, Action.andThen, table]
  refine (takeRows_ends outlasts h kept scanning _).mono ?_
  rintro answer t ⟨rfl, idle, kept⟩
  rw [List.take_of_length_le (Nat.le_succ_of_le few)]
  exact ⟨rfl, idle, kept⟩

/-- What a new transaction gets that scans a whole table. -/
def readTable (id : TableId) : Action (List Row × Option Failure) := do
  let tx ← begin
  let r ← newScan tx id
  openScan r
  allRows r

/-- The scan of a table can crash: if its pages have no size, or if a lock is asked for without an end. -/
def Unreadable (s : Store) (ref : TableRef) : Prop := (s.catalog.table ref).pageSize = 0 ∨
  (s.catalog.table ref).pages ≠ 0 ∧ s.settings.hasDeadline = false

instance (s : Store) (ref : TableRef) : Decidable (s.Unreadable ref) :=
  inferInstanceAs (Decidable (_ ∨ _))

theorem readable_view (h : s.Coherent) {id : TableId} (known : s.catalog.ref id = .ok ref)
    (readable : ¬s.Unreadable ref) (free : ∀ u id, s.locks.Held u id .exclusive → u = tx) :
    s.view.Readable tx ref := by
  obtain ⟨-, key⟩ := h.guarded.keyed _ _ known
  refine ⟨?_, ?_, fun none => readable (Or.inl none), fun number inside => ?_, free⟩
  · by_cases pages : (s.catalog.table ref).pages = 0
    · exact Or.inr pages
    · exact Or.inl (eq_true_of_ne_false fun never => readable (Or.inr ⟨pages, never⟩))
  · change s.catalog.ref (s.catalog.table ref).id = _
    rw [key, known]
  · exact (h.size_content _).trans (size_saved (by
      change s.catalog.ref (s.catalog.table ref).id = _
      rw [key, known]))

/-- A new transaction has a closed scan of a table. -/
def readied (s : Store) (ref : TableRef) : Store :=
  { s with nextTx := s.nextTx + 1, scans := s.scans.push { table := ref, tx := s.nextTx } }

theorem scan_readied (s : Store) (ref : TableRef) : s.scans.size < (s.readied ref).view.scans.size ∧
    (s.readied ref).view.scans.getD s.scans.size default = { table := ref, tx := s.nextTx } := by
  simp [readied, view, Array.getD_eq_getD_getElem?]

theorem Idle.readied (h : s.Idle) (ref : TableRef) : (s.readied ref).Idle :=
  ⟨(h.coherent.withScans (s.readied ref).scans).withNextTx (s.readied ref).nextTx, h.clean, h.frames⟩

/-- It is opened and told to the end. -/
theorem readied_ends {I : Plain → Prop} (h : s.Idle) {id : TableId} (known : s.catalog.ref id = .ok ref)
    (readable : ¬s.Unreadable ref) (free : ∀ u id, ¬s.locks.Held u id .exclusive)
    (opens : ∀ w, Plain.openScan s.scans.size (s.readied ref).view = .ok () w → I w)
    (outlasts : Outlasts s.scans.size I) :
    (do openScan s.scans.size; allRows s.scans.size).Ends (s.readied ref) fun answer s' =>
      answer = Except.ok (s.view.rowsFrom ref 0, none) ∧ s'.Idle ∧ I s'.view := by
  have idle := h.readied ref
  obtain ⟨valid, here⟩ := s.scan_readied ref
  obtain ⟨v, ended, scanning, catalog⟩ := Plain.openScan_eq (v := (s.readied ref).view)
    (readable_view idle.coherent known readable fun u id held => absurd held (free u id)) valid
    (by rw [here]) (congrArg Scan.tx here)
  rw [Action.ends_bind]
  refine (idle.same 0 (openScan_follows idle.coherent _ fun _ => trivial) ended).mono ?_
  rintro answer t ⟨rfl, idle', rfl⟩
  have few := (s.readied ref).view.length_rowsFrom ref 0
  rw [← catalog] at few
  exact allRows_ends outlasts idle' (opens _ ended) scanning few

/-- While no page is dirty and none is locked exclusively a scan returns all rows of its table. -/
theorem readTable_ends (h : s.Idle) {id : TableId} (known : s.catalog.ref id = .ok ref)
    (free : ∀ u id, ¬s.locks.Held u id .exclusive) : (readTable id).Ends s fun answer _ =>
      answer = if s.Unreadable ref then .error .crashed else .ok (s.view.rowsFrom ref 0, none) := by
  unfold readTable begin newScan
  simp only [Action.ends_bind, Action.ends_get, Action.ends_set, Action.ends_pure, Action.andThen,
    Action.ends_ofCause, known, Action.mapError_ok]
  rw [← Action.ends_bind (openScan s.scans.size) fun _ => allRows s.scans.size]
  change Action.Ends _ (s.readied ref) _
  split
  · rename_i unreadable
    have idle := h.readied ref
    obtain ⟨v, crashed⟩ := Plain.openScan_crashed (v := (s.readied ref).view)
      (by rw [(s.scan_readied ref).2]) unreadable
    rw [Action.ends_bind]
    refine (idle.crashes 0 (openScan_follows idle.coherent _ fun _ => trivial) crashed).mono ?_
    rintro answer t rfl
    rfl
  · rename_i readable
    refine (readied_ends (I := fun _ => True) h known readable free (fun _ _ => trivial)
      ⟨fun _ _ _ _ _ => trivial, fun _ _ _ _ _ => trivial⟩).mono ?_
    rintro answer t ⟨rfl, -, -⟩
    rfl

/-- What a scan of a whole table tells: the values of its rows and where they are in the table, and
what cut the scan short. -/
def scanned (s : Store) (id : TableId) :
    Except Stop (List (Option (Nat × Nat) × List Value) × Option Failure) :=
  match readTable id s with
  | .ok (rows, failed) _ => .ok (rows.map Row.placed, failed)
  | .error e _ => .error e

theorem scanned_eq (h : s.Idle) {id : TableId} (known : s.catalog.ref id = .ok ref)
    (free : ∀ u id, ¬s.locks.Held u id .exclusive) : s.scanned id =
      if s.Unreadable ref then .error .crashed
      else .ok ((s.view.rowsFrom ref 0).map Row.placed, none) := by
  have ends := readTable_ends h known free
  unfold scanned
  by_cases unreadable : s.Unreadable ref
  · simp only [if_pos unreadable] at ends ⊢
    cases ended : readTable id s with
    | ok answer t => cases ends.of_ok ended
    | error e t =>
      cases ends.of_error ended
      rfl
  · simp only [if_neg unreadable] at ends ⊢
    cases ended : readTable id s with
    | ok answer t =>
      cases ends.of_ok ended
      rfl
    | error e t => cases ends.of_error ended

end Store
end HeapStore
