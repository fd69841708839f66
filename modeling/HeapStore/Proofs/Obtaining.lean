import HeapStore.Proofs.Lengthening
import HeapStore.Proofs.Passing
import HeapStore.Proofs.Sizing
import HeapStore.Proofs.Slotting

/-! Which rows there are to be had, and whether they can be stored. Rows come from values that are checked,
from slots of pages, by themselves or in a scan, or from two rows. They go with their schemas, but what was
read from a page is not checked, and a row with a text that got too long by it can not be stored. -/
namespace HeapStore

namespace Row

variable {row : Row} {l : Layout} {s : Schema} {id : PageId} {page : Bytes} {i : Nat}

/-- The row is in a slot of some page, whatever else is on that. -/
def Stored (row : Row) : Prop :=
  ∃ (l : Layout) (s : Schema) (id : PageId) (page : Bytes) (i : Nat), l.row? s id page i = some (some row)

theorem stored_of_rows? {rows : List Row} (told : l.rows? s id page = some rows) :
    ∀ row ∈ rows, row.Stored := by
  intro row listed
  rw [Layout.rows?_eq told] at listed
  obtain ⟨i, -, there⟩ := List.mem_filterMap.mp listed
  exact ⟨l, s, id, page, i, Option.join_eq_some_iff.mp there⟩

theorem Stored.typed_legible (stored : row.Stored) : row.Typed ∧ row.Legible := by
  obtain ⟨l, s, id, page, i, told⟩ := stored
  have read := Layout.readRow?_of_row? told
  exact ⟨typed_readRow? read, legible_readRow? read⟩

/-- A page that is just as long as to hold one row. -/
theorem exists_stored {values : List Value} (typed : values.map Value.type = s.types)
    (legible : ∀ v ∈ values, v.Legible) (countable : Layout.Countable (s.width + 1)) (id : PageId) : ∃ page,
      (Layout.ofSchema s (s.width + 1)).row? s id page 0 = some (some ⟨s, values, some ⟨id, 0⟩⟩) := by
  obtain ⟨cell, size, read⟩ := Value.exists_readAll? legible
  rw [typed] at size read
  have size : cell.size = s.width := size
  have slots : 0 < (Layout.ofSchema s (s.width + 1)).slots ∧ (Layout.ofSchema s (s.width + 1)).slots ≤ 8 := by
    unfold Layout.slots Layout.ofSchema
    dsimp only
    rw [Nat.mod_eq_of_lt countable]
    exact ⟨Nat.div_pos (by omega) (by omega), Nat.div_le_of_le_mul (by omega)⟩
  have start : (Layout.ofSchema s (s.width + 1)).start 0 = 1 := by
    unfold Layout.start Layout.header
    omega
  refine ⟨⟨#[1]⟩ ++ (cell ++ .empty), ?_⟩
  have one : ByteArray.size ⟨#[1]⟩ = 1 := rfl
  have long : 0 < (⟨#[1]⟩ ++ (cell ++ ByteArray.empty)).size := by
    rw [ByteArray.size_append, one]
    exact Nat.lt_of_lt_of_le Nat.one_pos (Nat.le_add_right _ _)
  have used : Bytes.bit (⟨#[1]⟩ ++ (cell ++ .empty)) 0 = true := by
    refine (Bytes.bit_congr (b := ⟨#[1]⟩) ?_).trans (by decide)
    rw [Bytes.byte?_append, if_pos (by decide)]
  have cut := Bytes.slice?_append ⟨#[1]⟩ cell .empty
  have read := read .empty .empty
  rw [one, size] at cut
  rw [ByteArray.append_empty, ByteArray.empty_append, ByteArray.size_empty] at read
  unfold Layout.row?
  rw [if_neg (by omega), if_neg (by omega), if_pos used, Layout.readRow?, start]
  simp only [Layout.ofSchema, cut, read, Option.bind_eq_bind, Option.bind_some]
  rfl

end Row

/-- The rows that are left were read from pages. -/
def Scan.Genuine (sc : Scan) : Prop := ∀ row ∈ sc.rest.getD [], row.Stored

namespace Store
open HeapStore.Action

variable {s t : Store} {r : ScanRef} {sc : Scan} {turn : Turn} {reply : Reply}

/-- What scans have yet to tell was read from pages. -/
def Genuine (s : Store) : Prop := ∀ r, (s.scans.getD r default).Genuine

theorem Genuine.congr (h : s.Genuine) (scans : t.scans = s.scans) : t.Genuine := by
  intro r
  rw [scans]
  exact h r

theorem Genuine.set (h : s.Genuine) (r : ScanRef) (sc : Scan) (genuine : sc.Genuine) :
    Genuine { s with scans := s.scans.setIfInBounds r sc } := by
  intro k
  simp only [Array.getD_eq_getD_getElem?, Array.getElem?_setIfInBounds]
  split
  · split
    · exact genuine
    · exact fun _ never => by cases never
  · rw [← Array.getD_eq_getD_getElem?]
    exact h k

theorem fetched_genuine (h : s.Genuine) (sc : Scan) (number : Nat) (r : ScanRef) :
    Ends (do setScan r { sc with rest := some (← fetchRows sc number) }) s fun _ t => t.Genuine := by
  rw [ends_bind]
  refine (fetchRows_reads sc number).mono ?_
  rintro (e | rows) t ⟨scans, read⟩
  · exact h.congr scans
  · obtain ⟨_, _, told⟩ := read rows rfl
    rw [andThen, ends_setScan]
    exact (h.congr scans).set r _ (Row.stored_of_rows? told)

theorem openScan_genuine (h : s.Genuine) (r : ScanRef) : (openScan r).Ends s fun _ t => t.Genuine := by
  unfold openScan
  rw [ends_bind, ends_scan, andThen, ends_bind, ends_setScan, andThen, ends_bind]
  have moved := h.set r { s.scans.getD r default with page := 0 } (h r)
  refine ends_pageCount _ _ moved ?_
  rw [andThen]
  split
  · rw [ends_setScan]
    exact moved.set r _ fun _ never => by cases never
  · exact fetched_genuine moved { s.scans.getD r default with page := 0 } 0 r

theorem seek_genuine (h : s.Genuine) (r : ScanRef) (fuel : Nat) : (seek r fuel).Ends s fun _ t => t.Genuine := by
  induction fuel generalizing s with
  | zero => exact h
  | succ fuel ih =>
    unfold seek
    rw [ends_bind, ends_scan, andThen]
    split
    · exact h
    · exact h
    · rename_i used
      rw [ends_bind]
      refine ends_pageCount _ _ h ?_
      rw [andThen]
      split
      · exact h
      · let next : Scan := { s.scans.getD r default with page := (s.scans.getD r default).page + 1 }
        rw [ends_bind, ends_setScan, andThen, ← bind_assoc, ends_bind]
        refine (fetched_genuine (h.set r next (h r)) next _ r).mono ?_
        rintro (e | _) t genuine
        · exact genuine
        · exact ih genuine

theorem hasNext_genuine (h : s.Genuine) (r : ScanRef) : (hasNext r).Ends s fun _ t => t.Genuine := by
  unfold hasNext
  rw [ends_bind, ends_scan, andThen, ends_bind, ends_get, andThen]
  exact seek_genuine h r _

/-- A row that a scan tells was read from a page. -/
theorem nextRow_genuine (h : s.Genuine) (r : ScanRef) : (nextRow r).Ends s fun answer t => t.Genuine ∧
    ∀ row, answer = .ok row → row.Stored := by
  unfold nextRow
  rw [ends_bind]
  refine (hasNext_genuine h r).mono ?_
  rintro (e | more) t genuine
  · exact ⟨genuine, fun _ never => by cases never⟩
  · cases more with
    | false => exact ⟨genuine, fun _ never => by cases never⟩
    | true =>
      -- the row is the first of those that are left
      rw [andThen, if_pos rfl, ends_bind, ends_scan, andThen]
      have here := genuine r
      unfold Scan.Genuine at here
      cases left : (t.scans.getD r default).rest with
      | none => exact ⟨genuine, fun _ never => by cases never⟩
      | some rest =>
        cases rest with
        | nil => exact ⟨genuine, fun _ never => by cases never⟩
        | cons row rest =>
          rw [left] at here
          have popped : Scan.Genuine { t.scans.getD r default with rest := some rest } :=
            fun row' later => here row' (List.mem_cons_of_mem row later)
          refine ⟨genuine.set r _ popped, ?_⟩
          rintro row' ⟨⟩
          exact here row List.mem_cons_self

theorem closeScan_genuine (h : s.Genuine) (r : ScanRef) : (closeScan r).Ends s fun _ t => t.Genuine := by
  unfold closeScan
  rw [ends_bind, ends_scan, andThen, ends_setScan]
  exact h.set r _ fun _ never => by cases never

theorem perform_genuine (h : s.Genuine) (r : ScanRef) (step : ScanStep) :
    (step.perform r).Ends s fun _ t => t.Genuine := by
  have told : ∀ {α : Type} {x : Action α} (f : α → Answer), (x.Ends s fun _ t => t.Genuine) →
      Ends (do return f (← x)) s fun _ t => t.Genuine := by
    intro α x f ends
    rw [ends_bind]
    refine ends.mono ?_
    rintro (e | a) t genuine <;> exact genuine
  cases step with
  | start => exact told (fun _ => .done) (openScan_genuine h r)
  | hasNext => exact told .more (hasNext_genuine h r)
  | next => exact told .row ((nextRow_genuine h r).mono fun _ _ => And.left)
  | close => exact told (fun _ => .done) (closeScan_genuine h r)
  | restart =>
    refine told (fun _ => .done) ?_
    unfold rewind
    rw [ends_bind]
    refine (closeScan_genuine h r).mono ?_
    rintro (e | _) t genuine
    · exact genuine
    · exact openScan_genuine genuine r

theorem newScan_genuine (h : s.Genuine) (tx : TxId) (table : TableId) :
    (newScan tx table).Ends s fun _ t => t.Genuine := by
  unfold newScan
  rw [ends_bind, ends_get, andThen, ends_bind, ends_ofCause]
  cases s.catalog.ref table with
  | error c => exact h
  | ok ref =>
    simp only [mapError_ok, andThen, ends_bind, ends_get, ends_set, ends_pure]
    intro k
    simp only [Array.getD_eq_getD_getElem?, Array.getElem?_push]
    split
    · exact fun _ never => by cases never
    · rw [← Array.getD_eq_getD_getElem?]
      exact h k

theorem sparing_request (q : Request) : ∃ may, Sparing may q.perform := by
  cases q with
  | getPage tx id mode => exact ⟨_, sparing_bind (sparing_getPage tx id mode) fun _ => sparing_pure _⟩
  | insert tx table row => exact ⟨_, sparing_bind (sparing_insertRow tx table row) fun _ => sparing_pure _⟩
  | delete tx record? => exact ⟨_, sparing_deleteRow tx record?⟩
  | flushPage id => exact ⟨fun _ _ => False, sparing_flushPage id⟩
  | flushAll => exact ⟨fun _ _ => False, sparing_flushAll⟩
  | flushDirtiedBy tx =>
    exact ⟨fun _ _ => False, sparing_bind sparing_get fun _ => sparing_writePages _⟩
  | discard id => exact ⟨fun _ _ => False, fun _ => spares_of_same rfl rfl⟩
  | release tx id => exact ⟨fun _ _ => True, fun _ => ⟨fun _ _ _ _ => Or.inr trivial, rfl⟩⟩
  | complete tx commit => exact ⟨fun _ _ => False, sparing_complete tx commit⟩
  | addTable table =>
    exact ⟨fun _ _ => False, sparing_bind (sparing_newTable table) fun _ => sparing_pure _⟩

theorem sparing_overwrite {may : TxId → LockMode → Prop} (handle : Handle) (off : Nat) (new : Bytes) :
    Sparing may (overwrite handle off new) := by
  refine sparing_bind (sparing_page _) fun p => ?_
  split
  · exact sparing_fail _
  · exact sparing_bind (sparing_ofOption _) fun _ => sparing_updatePool _

/-- Whatever happens, scans tell what was read from pages. -/
theorem turn_genuine (h : s.Genuine) (turn : Turn) : turn.perform.Ends s fun _ t => t.Genuine := by
  have kept : ∀ {α : Type} (may : TxId → LockMode → Prop) {x : Action α}, Sparing may x →
      Ends (do let _ ← x; return Answer.done) s fun _ t => t.Genuine := fun _ _ sparing =>
    (sparing_bind sparing (fun _ => sparing_pure _) s).mono fun _ _ spares => h.congr spares.scans
  let none : TxId → LockMode → Prop := fun _ _ => False
  cases turn with
  | call c =>
    cases c with
    | serve q =>
      obtain ⟨may, sparing⟩ := sparing_request q
      exact kept may sparing
    | scan tx table =>
      unfold Turn.perform Call.perform
      rw [ends_bind]
      refine (newScan_genuine h tx table).mono ?_
      rintro (e | _) t genuine <;> exact genuine
    | iterate r step => exact perform_genuine h r step
    | write handle off new tx =>
      exact kept none (sparing_bind (sparing_overwrite handle off new) fun _ => sparing_mark _ _)
  | overwrite handle off new => exact kept none (sparing_overwrite handle off new)
  | mark r owner => exact kept none (sparing_mark r owner)
  | place ref tx row => exact kept _ (sparing_placeRow ref tx row)
  | clear ref tx record? =>
    cases record? with
    | none =>
      have unplaced : Sparing none (clearSlot ref tx .none) :=
        sparing_bind sparing_get fun _ => sparing_fail _
      exact kept none unplaced
    | some record => exact kept _ (sparing_clearSlot ref tx record)
  | write ref p => exact kept none (sparing_writeTable ref p)
  | lock tx id mode => exact kept _ (sparing_lock tx id mode)
  | begin => exact h
  | files change => exact h

/-- Whatever a store can come to. -/
inductive Arises : Store → Prop
  | new (settings : Settings) (disk : Disk) : Arises (Store.new settings disk)
  | turn {s t : Store} {turn : Turn} {reply : Reply} (before : s.Arises)
      (settled : Session.settle turn.perform s = some (reply, t)) : Arises t

theorem Arises.genuine (arises : s.Arises) : s.Genuine := by
  induction arises with
  | new settings disk => exact fun r row never => by cases never
  | turn before settled ih => exact Session.settle_eq_some (turn_genuine ih _) settled

end Store
namespace Row

variable {row : Row} {schema : Schema} {page : Bytes} {pageSize k : Nat}

/-- How a row is got: from values, from a slot of a page or with all others on a page, from a scan of any
store, or from two rows. -/
inductive Obtained : Row → Prop
  | made {schema : Schema} {values : List Value} {row : Row} (made : Row.new schema values = .ok row) :
    Obtained row
  | read {l : Layout} {s : Schema} {id : PageId} {page : Bytes} {i : Nat} {row : Row}
    (told : l.row? s id page i = some (some row)) : Obtained row
  | listed {l : Layout} {s : Schema} {id : PageId} {page : Bytes} {rows : List Row} {row : Row}
    (told : l.rows? s id page = some rows) (there : row ∈ rows) : Obtained row
  | scanned {s t : Store} {r : ScanRef} {row : Row} (arises : s.Arises)
    (told : Store.nextRow r s = .ok row t) : Obtained row
  | append {a b : Row} (first : a.Obtained) (second : b.Obtained) : Obtained (a.append b)

theorem Obtained.typed_legible (obtained : row.Obtained) : row.Typed ∧ row.Legible := by
  induction obtained with
  | made made => exact ⟨typed_new made, (sized_new made).legible⟩
  | read told => exact Stored.typed_legible ⟨_, _, _, _, _, told⟩
  | listed told there => exact (stored_of_rows? told _ there).typed_legible
  | scanned arises told =>
    exact (((Store.nextRow_genuine arises.genuine _).of_ok told).2 _ rfl).typed_legible
  | append first second ih ih' => exact ⟨ih.1.append ih'.1, ih.2.append ih'.2⟩

/-- Each value is read from a page of its own, and then they are put together. -/
theorem exists_obtained {fields : List Field} {values : List Value}
    (typed : values.map Value.type = fields.map Field.type) (legible : ∀ v ∈ values, v.Legible) :
    ∃ record, Obtained ⟨⟨fields⟩, values, record⟩ := by
  induction fields generalizing values with
  | nil =>
    cases List.map_eq_nil_iff.mp typed
    have made : Row.new ⟨[]⟩ [] = .ok ⟨⟨[]⟩, [], none⟩ := rfl
    exact ⟨none, .made made⟩
  | cons field fields ih =>
    obtain ⟨v, vs, rfl, type, types⟩ := List.map_eq_cons_iff.mp typed
    have alone : [v].map Value.type = Schema.types ⟨[field]⟩ := congrArg (fun t => [t]) type
    have narrow : Layout.Countable (Schema.width ⟨[field]⟩ + 1) := by
      unfold Schema.width Schema.types
      simp only [List.map_cons, List.map_nil]
      cases field.type <;> decide
    obtain ⟨page, told⟩ := exists_stored alone
      (fun u there => legible u (List.mem_singleton.mp there ▸ List.mem_cons_self)) narrow ⟨0, 0⟩
    obtain ⟨record, rest⟩ := ih types fun u there => legible u (List.mem_cons_of_mem v there)
    exact ⟨none, .append (.read told) rest⟩

/-- Nothing else is known of the values of a row. -/
theorem obtained_iff {values : List Value} : (∃ record, Obtained ⟨schema, values, record⟩) ↔
    values.map Value.type = schema.types ∧ ∀ v ∈ values, v.Legible := by
  constructor
  · rintro ⟨record, obtained⟩
    exact obtained.typed_legible
  · rintro ⟨typed, legible⟩
    exact exists_obtained typed legible

/-- A row with a text that is too long does not go into any free slot. -/
theorem insert?_of_long {l : Layout} (free : l.firstFree? page = some k) (long : ¬row.Sized) :
    l.insert? page row.values = none := by
  obtain ⟨v, there, long⟩ := by simpa [Sized] using long
  unfold Layout.insert?
  rw [free]
  dsimp only
  cases page.slice? (l.start k) l.rowWidth with
  | none => rfl
  | some cell =>
    rw [Option.bind_eq_bind, Option.bind_some, Value.writeAll?_of_long there long]
    rfl

/-- A row goes with its schema however it was got. It can be stored and is read back if its texts are short
enough, which they are but for those that got a U+FFFD for bytes that are no UTF-8. -/
theorem obtained_stored_if_sized (obtained : row.Obtained) (agrees : row.schema.Agrees schema)
    (whole : page.size = pageSize) (below : k < (Layout.ofSchema schema pageSize).slots)
    (free : Layout.used? page k = some false) (least : ∀ i < k, Layout.used? page i = some true) :
    let l := Layout.ofSchema schema pageSize
    row.Typed ∧ row.Legible ∧ (∀ s, .text s ∈ row.values → s.utf8ByteSize ≤ 3 * textLimit) ∧
    ((∀ s, .text s ∈ row.values → Utf8.replacement ∉ s.toList) → row.Sized) ∧
    (row.Sized → ∃ page', l.insert? page row.values = some (some (k % UInt16.size), page') ∧
      ∀ t : Schema, t.Agrees schema → ∀ id, ∃ row', l.row? t id page' k = some (some row') ∧
        row'.sameValues row = true) ∧
    (¬row.Sized → l.insert? page row.values = none) := by
  intro l
  obtain ⟨typed, legible⟩ := obtained.typed_legible
  have whole : page.size = l.pageSize := whole
  refine ⟨typed, legible, fun s there => (legible _ there).size_le, fun plain v there => ?_,
    fun sized => ?_, fun long => ?_⟩
  · refine (legible v there).short fun s same => ?_
    exact plain s (same ▸ there)
  · have typed : row.values.map Value.type = schema.types := typed.trans agrees
    obtain ⟨page', done, -, -, read⟩ := Layout.insert?_of_least whole below free least
      (congrArg (fun types => (types.map FieldType.width).foldr (· + ·) 0) typed) sized
    exact ⟨page', done, fun t agrees' id => ⟨_, read t (typed.trans agrees'.symm) id, decide_eq_true rfl⟩⟩
  · exact insert?_of_long (Layout.firstFree?_of_least whole below free least) long

/-- Two stray bytes around a letter come to seven bytes of text. -/
theorem obtained_stored_with_replacements :
    let schema : Schema := ⟨[⟨.text, none⟩]⟩
    let l := Layout.ofSchema schema 133
    let values : List Value := [.text (.ofList [Utf8.replacement, 'a', Utf8.replacement])]
    ∃ record page' row', Obtained ⟨schema, values, record⟩ ∧
      l.insert? (.zeros 133) values = some (some 0, page') ∧
      l.row? schema ⟨1, 1⟩ page' 0 = some (some row') ∧ row'.values = values := by
  intro schema l values
  have typed : values.map Value.type = schema.types := rfl
  obtain ⟨record, obtained⟩ := obtained_iff.mpr ⟨typed, by decide +kernel⟩
  have agrees : schema.Agrees schema := rfl
  obtain ⟨-, -, -, -, stores, -⟩ := obtained_stored_if_sized obtained agrees (Bytes.size_zeros 133)
    (by decide : 0 < l.slots) (by decide +kernel) fun _ never => absurd never (Nat.not_lt_zero _)
  obtain ⟨page', done, read⟩ := stores fun v there => by
    cases List.mem_singleton.mp there
    exact Value.checkSize_text_iff.mpr (by decide +kernel)
  obtain ⟨row', there, same⟩ := read schema agrees ⟨1, 1⟩
  exact ⟨record, page', row', obtained, done, there, of_decide_eq_true same⟩

/-- Forty-three bytes that are no UTF-8 are read as a text of 129, for which an empty page has no room. -/
theorem obtained_row_not_stored :
    let schema : Schema := ⟨[⟨.text, none⟩]⟩
    let l := Layout.ofSchema schema 133
    let page : Bytes := ⟨#[1, 0, 0, 0, 43] ++ Array.replicate 43 0xff ++ Array.replicate 85 0⟩
    let text : String := .ofList (List.replicate 43 Utf8.replacement)
    let row : Row := ⟨schema, [.text text], some ⟨⟨1, 0⟩, 0⟩⟩
    page.size = 133 ∧ l.row? schema ⟨1, 0⟩ page 0 = some (some row) ∧ row.Obtained ∧
      (Value.text text).checkSize = .error (.valueTooLarge 129 128) ∧
      l.firstFree? (.zeros 133) = some 0 ∧ l.insert? (.zeros 133) row.values = none := by
  intro schema l page text row
  have told : l.row? schema ⟨1, 0⟩ page 0 = some (some row) := by decide +kernel
  have size : text.utf8ByteSize = 129 := by decide +kernel
  have long : (Value.text text).checkSize = .error (.valueTooLarge 129 128) := by
    rw [Value.checkSize, size]
    rfl
  have free : l.firstFree? (.zeros 133) = some 0 := by decide +kernel
  have unsized : ¬row.Sized := fun sized => by
    have short := sized (.text text) List.mem_cons_self
    rw [long] at short
    cases short
  exact ⟨by decide +kernel, told, .read told, long, free, insert?_of_long free unsized⟩

end Row
end HeapStore
