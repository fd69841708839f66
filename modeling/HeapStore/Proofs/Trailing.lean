import HeapStore.Proofs.Opening

/-! A table file under writes of whole pages and under inserts, which put empty pages behind its last one.
Each page holds what was written there last. Where nothing was, it holds what the file began with: a page of
it, or zeros, or the part of a page at its end with zeros behind. -/
namespace HeapStore

/-- The bytes at the place of page `n`, with zeros behind the end. -/
def Bytes.pageOf (b : Bytes) (pageSize n : Nat) : Bytes :=
  if n < b.size / pageSize then b.extract (n * pageSize) (n * pageSize + pageSize)
  else if n = b.size / pageSize then
    b.extract (n * pageSize) b.size ++ .zeros (pageSize - b.size % pageSize)
  else .zeros pageSize

theorem Bytes.byte?_pageOf (b : Bytes) {pageSize : Nat} (some : 0 < pageSize) (n i : Nat) :
    (b.pageOf pageSize n).byte? i =
      if i < pageSize then .some ((b.byte? (n * pageSize + i)).getD 0) else none := by
  have split : b.size / pageSize * pageSize + b.size % pageSize = b.size := Nat.div_add_mod' _ _
  have part : b.size % pageSize < pageSize := Nat.mod_lt _ some
  have there : ∀ j, j < b.size → b.byte? j = .some ((b.byte? j).getD 0) := by
    intro j inside
    rw [byte?, dif_pos inside, Option.getD_some]
  have missing : ∀ j, b.size ≤ j → (b.byte? j).getD 0 = 0 := fun j beyond => by
    rw [byte?_eq_none_iff.mpr beyond, Option.getD_none]
  unfold pageOf
  rcases Nat.lt_trichotomy n (b.size / pageSize) with complete | rfl | beyond
  · have inside : n * pageSize + pageSize ≤ b.size / pageSize * pageSize := by
      rw [← Nat.succ_mul]
      exact Nat.mul_le_mul_right _ complete
    rw [if_pos complete, byte?_extract]
    by_cases below : i < pageSize
    · rw [if_pos (by omega), if_pos below, there _ (by omega)]
      rfl
    · rw [if_neg (by omega), if_neg below]
  · have tail : (b.extract (b.size / pageSize * pageSize) b.size).size = b.size % pageSize := by
      rw [ByteArray.size_extract]
      omega
    rw [if_neg (Nat.lt_irrefl _), if_pos rfl, byte?_append, tail, byte?_extract, zeros, byte?_replicate]
    by_cases left : i < b.size % pageSize
    · rw [if_pos left, if_pos (by omega), if_pos (by omega), there _ (by omega)]
      rfl
    · have within : i - b.size % pageSize < pageSize - b.size % pageSize ↔ i < pageSize := by omega
      rw [if_neg left, missing _ (by omega)]
      simp only [within]
  · have behind : b.size / pageSize * pageSize + pageSize ≤ n * pageSize := by
      rw [← Nat.succ_mul]
      exact Nat.mul_le_mul_right _ beyond
    rw [if_neg (Nat.lt_asymm beyond), if_neg (Nat.ne_of_gt beyond), zeros, byte?_replicate,
      missing _ (by omega)]

namespace File

/-- The file has these bytes and no others. -/
structure Holds (f : File) (content : Bytes) : Prop where
  length : f.length = content.size
  byte : ∀ i, f.byte i = (content.byte? i).getD 0

theorem holds_ofBytes (content : Bytes) : (ofBytes content).Holds content := by
  refine ⟨rfl, fun i => ?_⟩
  simp only [ofBytes, byte, List.findSome?_cons, Piece.byte?, Nat.zero_le, if_true, Nat.sub_zero]
  cases content.byte? i <;> rfl

theorem Holds.span {f : File} {content : Bytes} (h : f.Holds content) {pageSize : Nat}
    (some : 0 < pageSize) (n : Nat) : f.span (n * pageSize) pageSize = content.pageOf pageSize n := by
  apply Bytes.eq_of_byte?
  intro i
  rw [Bytes.byte?_pageOf content some]
  split
  · rename_i inside
    rw [byte?_span _ _ inside, h.byte]
  · rename_i beyond
    rw [Bytes.byte?_eq_none_iff, size_span]
    exact Nat.le_of_not_lt beyond

end File

/-- Bytes that were written as a page. -/
structure Written where
  number : Nat
  bytes : Bytes
  deriving DecidableEq

namespace Written

/-- One past the highest page that was written. -/
def reach (log : List Written) : Nat := log.foldr (fun w n => max (w.number + 1) n) 0

/-- What was written last to a page. The log has the last writes first. -/
def latest? (log : List Written) (n : Nat) : Option Bytes :=
  (log.find? (·.number = n)).map Written.bytes

theorem reach_cons (w : Written) (log : List Written) : reach (w :: log) = max (w.number + 1) (reach log) := rfl

theorem lt_reach {w : Written} {log : List Written} (there : w ∈ log) : w.number < reach log := by
  induction log with
  | nil => cases there
  | cons v log ih =>
    rw [reach_cons]
    rcases List.mem_cons.mp there with rfl | later
    · exact Nat.le_max_left _ _
    · exact Nat.lt_of_lt_of_le (ih later) (Nat.le_max_right _ _)

theorem latest?_cons (w : Written) (log : List Written) (n : Nat) :
    latest? (w :: log) n = if n = w.number then some w.bytes else latest? log n := by
  rw [latest?, List.find?_cons]
  by_cases here : w.number = n
  · simp only [here, decide_true, if_true, Option.map_some]
  · simp only [here, decide_false, Ne.symm here, if_false, latest?]

end Written

namespace Table

variable {t : Table} {d : Disk} {content : Bytes} {log : List Written}

/-- The file of the table came about from its content by the writes of the log. -/
structure Shows (t : Table) (d : Disk) (content : Bytes) (log : List Written) : Prop where
  some : 0 < t.pageSize
  backed : t.Backed d
  length : t.length = max content.size (Written.reach log * t.pageSize)
  bytes : ∀ n, t.bytes d n = (Written.latest? log n).getD (content.pageOf t.pageSize n)

/-- A file that was opened. -/
theorem shows_nil {f : File} (there : d.get? t.file = some f) (holds : f.Holds content)
    (some : 0 < t.pageSize) (length : t.length = f.length) : t.Shows d content [] where
  some := some
  backed := ⟨f, there, length.symm⟩
  length := by
    rw [length, holds.length]
    simp [Written.reach]
  bytes n := by
    rw [Table.bytes, there]
    exact holds.span some n

/-- A page is written, which may be one behind the end of the file, and also far behind it. -/
theorem Shows.writeAt (h : t.Shows d content log) {n : Nat} {new : Bytes} (whole : new.size = t.pageSize) :
    (t.writeAt d n new).1.Shows (t.writeAt d n new).2 content (⟨n, new⟩ :: log) where
  some := h.some
  backed := backed_writeAt h.backed (whole ▸ Nat.ne_of_gt h.some)
  length := by
    have reached : n * t.pageSize + new.size = (n + 1) * t.pageSize := by rw [whole, Nat.succ_mul]
    have raised : (t.writeAt d n new).1.length = max t.length ((n + 1) * t.pageSize) := reached ▸ rfl
    rw [raised, pageSize_writeAt, Written.reach_cons, ← Nat.mul_max_mul_right, h.length]
    dsimp only
    omega
  bytes k := by
    rw [Written.latest?_cons]
    refine (bytes_writeAt whole k).trans ?_
    split
    · rfl
    · exact h.bytes k

/-- In a file that there can be no offset has wrapped around, of a page that is counted or was written. -/
theorem Shows.addressable (h : t.Shows d content log) (short : t.length < File.limit) {n : Nat}
    (there : n < t.pages ∨ n ∈ log.map Written.number) : t.Addressable n := by
  refine Nat.lt_of_le_of_lt ?_ short
  rcases there with counted | written
  · exact Nat.le_trans (Nat.mul_le_mul_right _ (Nat.le_trans counted (Nat.mod_le _ _)))
      (Nat.div_mul_le_self _ _)
  · obtain ⟨w, there, rfl⟩ := List.mem_map.mp written
    rw [h.length]
    exact Nat.le_trans (Nat.mul_le_mul_right _ (Written.lt_reach there)) (Nat.le_max_right _ _)

theorem Shows.pages (h : t.Shows d content log) :
    t.pages = max (content.size / t.pageSize) (Written.reach log) % UInt32.size := by
  have larger : max content.size (Written.reach log * t.pageSize) / t.pageSize =
      max (content.size / t.pageSize) (Written.reach log) := by
    rcases Nat.le_total content.size (Written.reach log * t.pageSize) with less | more
    · rw [Nat.max_eq_right less, Nat.mul_div_cancel _ h.some]
      exact (Nat.max_eq_right (Nat.div_le_of_le_mul (Nat.mul_comm _ _ ▸ less))).symm
    · rw [Nat.max_eq_left more]
      exact (Nat.max_eq_left ((Nat.le_div_iff_mul_le h.some).mpr more)).symm
  rw [Table.pages, h.length, larger]

theorem Shows.read (h : t.Shows d content log) (n : Nat) : t.read d ⟨t.id, n⟩ =
    if n < t.pages then .ok ((Written.latest? log n).getD (content.pageOf t.pageSize n))
    else .error (.ofCause (.noSuchPage ⟨t.id, n⟩)) := by
  rw [read_eq h.backed rfl, pageCount?, if_neg (Nat.ne_of_gt h.some)]
  dsimp only
  by_cases inside : n < t.pages
  · rw [if_pos inside, if_neg (Nat.not_le_of_lt inside), h.bytes]
  · rw [if_neg inside, if_pos (Nat.le_of_not_lt inside)]

end Table

namespace Store

variable {s t u : Store} {ref : TableRef} {table : Table} {content : Bytes} {log : List Written}

/-- What is read from tables and files is what was read before. -/
structure Rests (s t : Store) : Prop where
  catalog : t.catalog = s.catalog
  disk : t.disk = s.disk

theorem Rests.refl (s : Store) : s.Rests s := ⟨rfl, rfl⟩

theorem Rests.trans (first : s.Rests t) (second : t.Rests u) : s.Rests u :=
  ⟨second.catalog.trans first.catalog, second.disk.trans first.disk⟩

abbrev Resting {α : Type} (x : Action α) : Prop := Action.Respects Rests x

theorem resting_bind {α β : Type} {x : Action α} {f : α → Action β} (first : Resting x)
    (later : ∀ a, Resting (f a)) : Resting (x >>= f) :=
  Action.respects_bind (R := Rests) Rests.trans first later

theorem resting_pure {α : Type} (a : α) : Resting (pure a : Action α) := Action.respects_pure Rests.refl a

theorem resting_get : Resting (get : Action Store) := Action.respects_get Rests.refl

theorem resting_updatePool (f : Pool → Pool) : Resting (updatePool f) :=
  Action.respects_modify fun _ => ⟨rfl, rfl⟩

theorem resting_lock (tx : TxId) (id : PageId) (mode : LockMode) : Resting (lock tx id mode) := by
  intro s
  rw [ends_lock]
  split
  · split
    · exact Or.inr ⟨rfl, rfl⟩
    · exact Or.inr (.refl s)
  · exact Or.inl rfl

theorem resting_load (id : PageId) : Resting (load id) := by
  intro s
  rw [ends_load]
  split
  · exact Or.inr ⟨rfl, rfl⟩
  · exact Or.inr (.refl s)

theorem resting_fetch (id : PageId) (must : Bool) : Resting (fetch id must) := by
  refine resting_bind resting_get fun _ => ?_
  split
  · exact resting_bind (resting_updatePool _) fun _ => resting_pure _
  · refine resting_bind (fun _ => Or.inr ⟨rfl, rfl⟩) fun frame => ?_
    cases frame with
    | some frame =>
      exact resting_bind (resting_load id) fun _ =>
        resting_bind (resting_updatePool _) fun _ => resting_pure _
    | none =>
      dsimp only
      split
      · exact resting_bind resting_get fun _ => Action.respects_stop Rests.refl _
      · exact resting_load id

theorem resting_insertInto (t : Table) (tx : TxId) (row : Row) (number : Nat) :
    Resting (insertInto t tx row number) := by
  refine resting_bind (resting_bind (resting_lock _ _ _) fun _ => resting_fetch _ _) fun r =>
    resting_bind (resting_bind resting_get fun _ => resting_pure _) fun p =>
      resting_bind (Action.respects_ofOption Rests.refl _) fun found => ?_
  obtain ⟨_ | slot, bytes⟩ := found
  · exact resting_pure _
  · exact resting_bind (resting_updatePool _) fun _ => resting_pure _

theorem resting_insertFrom (t : Table) (tx : TxId) (row : Row) (count number : Nat) :
    Resting (insertFrom t tx row count number) := by
  induction count generalizing number with
  | zero => exact resting_pure none
  | succ count ih =>
    refine resting_bind (resting_insertInto t tx row number) fun place => ?_
    cases place with
    | some place => exact resting_pure _
    | none => exact ih (number + 1)

/-- The table is the one that was opened, and its file came about from its content by the writes of the log. -/
structure Logs (s : Store) (ref : TableRef) (table : Table) (content : Bytes) (log : List Written) : Prop where
  valid : ref < s.catalog.opened.size
  same : s.catalog.table ref = { table with length := (s.catalog.table ref).length }
  shows : (s.catalog.table ref).Shows s.disk content log

theorem Logs.pages (h : s.Logs ref table content log) : (s.catalog.table ref).pages =
    max (content.size / table.pageSize) (Written.reach log) % UInt32.size := by
  rw [h.shows.pages, h.same]

theorem Logs.read (h : s.Logs ref table content log) (n : Nat) :
    (s.catalog.table ref).read s.disk ⟨table.id, n⟩ = if n < (s.catalog.table ref).pages then
      .ok ((Written.latest? log n).getD (content.pageOf table.pageSize n))
    else .error (.ofCause (.noSuchPage ⟨table.id, n⟩)) := by
  have id : (s.catalog.table ref).id = table.id := by rw [h.same]
  have pageSize : (s.catalog.table ref).pageSize = table.pageSize := by rw [h.same]
  rw [← id, ← pageSize]
  exact h.shows.read n

theorem Logs.rests (h : s.Logs ref table content log) (rests : s.Rests t) : t.Logs ref table content log := by
  obtain ⟨catalog, disk⟩ := rests
  exact ⟨catalog ▸ h.valid, catalog ▸ h.same, catalog ▸ disk ▸ h.shows⟩

theorem logs_opened {name key : String} {f : File} (there : s.disk.get? table.file = some f)
    (holds : f.Holds content) (some : 0 < table.pageSize) (length : table.length = f.length) :
    Logs { s with catalog := s.catalog.add table name key } s.catalog.opened.size table content [] := by
  have opened : (s.catalog.add table name key).table s.catalog.opened.size = table := by
    rw [Catalog.table_add, if_pos rfl]
  refine ⟨?_, ?_, ?_⟩
  · exact (Array.size_push _).symm ▸ Nat.lt_succ_self _
  · dsimp only
    rw [opened]
  · dsimp only
    rw [opened]
    exact Table.shows_nil there holds some length

/-- Bytes are put at the place of a page of the table. -/
def pageWritten (s : Store) (ref : TableRef) (n : Nat) (bytes : Bytes) : Store :=
  let written := (s.catalog.table ref).writeAt s.disk n bytes
  { s with catalog := s.catalog.update ref written.1, disk := written.2 }

theorem Logs.pageWritten (h : s.Logs ref table content log) {n : Nat} {bytes : Bytes}
    (whole : bytes.size = table.pageSize) :
    (s.pageWritten ref n bytes).Logs ref table content (⟨n, bytes⟩ :: log) := by
  have pageSize : (s.catalog.table ref).pageSize = table.pageSize := by rw [h.same]
  have written : (s.pageWritten ref n bytes).catalog.table ref =
      ((s.catalog.table ref).writeAt s.disk n bytes).1 :=
    (Catalog.table_update _ _ _ _ h.valid).trans (if_pos rfl)
  refine ⟨?_, ?_, ?_⟩
  · exact (Catalog.opened_size_update _ _ _).symm ▸ h.valid
  · rw [written, Table.writeAt, h.same]
  · rw [written]
    exact h.shows.writeAt (whole.trans pageSize.symm)

/-- The pages that a search puts behind the last one, the last of them first and before the log. -/
def growth (ref : TableRef) (tx : TxId) (row : Row) :
    (appends number : Nat) → Store → List Written → List Written
  | 0, _, _, log => log
  | appends + 1, number, s, log =>
    let t := s.catalog.table ref
    match insertFrom t tx row (t.pages - number) number s with
    | .ok none s' =>
      let t' := s'.catalog.table ref
      growth ref tx row appends (max number t.pages) (s'.appended ref) (⟨t'.pages, .zeros t'.pageSize⟩ :: log)
    | _ => log

theorem insertGrowing_logs (h : s.Logs ref table content log) (tx : TxId) (row : Row) (appends number : Nat) :
    (insertGrowing ref tx row appends number).Ends s fun answer t =>
      answer = .error .crashed ∨ t.Logs ref table content (growth ref tx row appends number s log) := by
  induction appends generalizing s number log with
  | zero =>
    unfold insertGrowing
    rw [Action.ends_bind, Action.ends_get, Action.andThen, Action.ends_bind]
    refine (resting_insertFrom _ _ _ _ _ s).mono ?_
    rintro (e | _ | place) t rests
    · exact rests.imp (fun crashed => by cases crashed; rfl) h.rests
    · exact Or.inl rfl
    · exact Or.inr (h.rests (rests.resolve_left (by simp)))
  | succ appends ih =>
    unfold insertGrowing growth
    rw [Action.ends_bind, Action.ends_get, Action.andThen, Action.ends_bind]
    dsimp only
    have rests := resting_insertFrom (s.catalog.table ref) tx row
      ((s.catalog.table ref).pages - number) number s
    unfold Action.Ends at rests ⊢
    cases searched : insertFrom (s.catalog.table ref) tx row ((s.catalog.table ref).pages - number) number s with
    | error e t =>
      rw [searched] at rests
      exact rests.imp (fun crashed => by cases crashed; rfl) h.rests
    | ok place? t =>
      rw [searched] at rests
      have kept := h.rests (rests.resolve_left (by simp))
      cases place? with
      | some place => exact Or.inr kept
      | none =>
        dsimp only [Action.andThen]
        rw [Action.ends_bind, ends_appendPage]
        split
        · -- a page that is added is one more write, at the number of pages that the table counts
          have whole : (Bytes.zeros (t.catalog.table ref).pageSize).size = table.pageSize := by
            rw [Bytes.size_zeros, kept.same]
          exact ih (kept.pageWritten whole) _
        · exact Or.inl rfl

end Store

/-- What can be done about a table file: a page is written, or a place is found for a row. -/
inductive FileCall where
  | write (number : Nat) (bytes : Bytes)
  | insert (tx : TxId) (row : Row)

namespace FileCall
open Store

variable {s t : Store} {ref : TableRef} {table : Table} {content : Bytes} {log : List Written}

def perform (ref : TableRef) : FileCall → Action Unit
  | write number bytes => do
    writeTable ref ⟨⟨((← get).catalog.table ref).id, number⟩, bytes, none⟩
  | insert tx row => do
    let _ ← placeRow ref tx row
    return ()

/-- Pages are only written as a whole. -/
def Whole (pageSize : Nat) : FileCall → Prop
  | write _ bytes => bytes.size = pageSize
  | insert .. => True

/-- The pages that the call writes or puts behind the last one, before the log. -/
def logged (c : FileCall) (ref : TableRef) (s : Store) (log : List Written) : List Written :=
  match c with
  | write number bytes => ⟨number, bytes⟩ :: log
  | insert tx row =>
    let t := s.catalog.table ref
    match t.checkSchema row with
    | .error _ => log
    | .ok () => if t.layout.slots = 0 then log else growth ref tx row (s.pool.capacity + 1) 0 s log

/-- Runs calls one after another, and keeps the log of what they wrote. Nothing comes after a crash. -/
def run (ref : TableRef) (s : Store) (log : List Written) : List FileCall → Option (Store × List Written)
  | [] => some (s, log)
  | c :: cs =>
    match (c.perform ref).told? s with
    | some (_, t) => run ref t (c.logged ref s log) cs
    | none => none

theorem write_eq (ref : TableRef) (s : Store) (number : Nat) (bytes : Bytes) :
    (write number bytes).perform ref s = .ok () (s.pageWritten ref number bytes) := by
  simp only [perform, writeTable, bind, EStateM.bind, Action.get_eq, Table.write, ne_eq, not_true,
    if_false, Action.ofStop]
  rfl

theorem logs_perform (h : s.Logs ref table content log) {c : FileCall} (whole : c.Whole table.pageSize) :
    (c.perform ref).Ends s fun answer t =>
      answer = .error .crashed ∨ t.Logs ref table content (c.logged ref s log) := by
  cases c with
  | write number bytes =>
    unfold Action.Ends
    rw [write_eq]
    exact Or.inr (h.pageWritten whole)
  | insert tx row =>
    unfold perform placeRow logged
    rw [Action.ends_bind, Action.ends_bind, Action.ends_get, Action.andThen, Action.ends_bind,
      Action.ends_ofCause]
    dsimp only
    cases (s.catalog.table ref).checkSchema row with
    | error cause => exact Or.inr h
    | ok _ =>
      rw [Action.mapError_ok, Action.andThen]
      dsimp only
      split
      · exact Or.inr h
      · refine (insertGrowing_logs h tx row _ 0).mono ?_
        rintro (e | place) t logs
        · exact logs.imp (fun crashed => by cases crashed; rfl) id
        · exact Or.inr (logs.resolve_left (by simp))

theorem logs_run {cs : List FileCall} (h : s.Logs ref table content log) {log' : List Written}
    (whole : ∀ c ∈ cs, c.Whole table.pageSize) (ran : run ref s log cs = some (t, log')) :
    t.Logs ref table content log' := by
  induction cs generalizing s log with
  | nil =>
    cases ran
    exact h
  | cons c cs ih =>
    have first := logs_perform h (whole c List.mem_cons_self)
    have later : ∀ d ∈ cs, d.Whole table.pageSize := fun d mem => whole d (List.mem_cons_of_mem c mem)
    unfold Action.Ends at first
    unfold run Action.told? at ran
    cases performed : c.perform ref s with
    | ok a u =>
      rw [performed] at ran first
      exact ih (first.resolve_left (by simp)) later ran
    | error e u =>
      rw [performed] at ran first
      cases e with
      | crashed => cases ran
      | failed f => exact ih (first.resolve_left (by simp)) later ran

/-- After any writes of whole pages and any inserts on a file that was opened, there are as many pages as the
file had complete ones at first, or up to the highest one that was written or added. Each holds what was
written to it last, or else what the file had there at first, and zeros where it had nothing. Writing a page
leaves all others as they are. As the file is one that there can be, no offset has wrapped around. -/
theorem pages_hold_what_was_written_last (s : Store) (id : TableId) (path name : String) (schema : Schema)
    (key : String) {pageSize : Nat} (some : 0 < pageSize) {file : String} {f : File}
    (found : s.disk.find path = .ok (file, f)) {content : Bytes} (holds : f.Holds content) :
    ∃ opened, openWithId id path name schema key pageSize s = .ok () opened ∧
      ∀ calls t log, (∀ c ∈ calls, c.Whole pageSize) →
        run s.catalog.opened.size opened [] calls = .some (t, log) →
        let table := t.catalog.table s.catalog.opened.size
        table.length < File.limit →
        (∀ n, n < table.pages ∨ n ∈ log.map Written.number →
          PageId.offset ⟨id, n⟩ pageSize = n * pageSize) ∧
        table.pages = max (content.size / pageSize) (Written.reach log) % UInt32.size ∧
        (∀ n, table.read t.disk ⟨id, n⟩ = if n < table.pages then
          .ok ((Written.latest? log n).getD (content.pageOf pageSize n))
          else .error (.ofCause (.noSuchPage ⟨id, n⟩))) ∧
        ∀ n bytes, bytes.size = pageSize → table.Addressable n → ∃ u,
          (write n bytes).perform s.catalog.opened.size t = .ok () u ∧
          let table' := u.catalog.table s.catalog.opened.size
          ∀ m, m ≠ n → m < table.pages → m < table'.pages →
            table'.read u.disk ⟨id, m⟩ = table.read t.disk ⟨id, m⟩ := by
  let table : Table := ⟨id, file, schema, pageSize, f.length⟩
  have loaded : Table.load s.disk id path schema pageSize = .ok table := by
    rw [Table.load, found]
    rfl
  refine ⟨_, openWithId_eq s loaded, fun calls t log whole ran => ?_⟩
  have logs := logs_run (logs_opened (Disk.find_eq_ok found).1 holds some rfl) whole ran
  have size : (t.catalog.table s.catalog.opened.size).pageSize = pageSize := by rw [logs.same]
  refine fun short => ⟨fun n there => ?_, logs.pages, logs.read,
    fun n bytes full _ => ⟨_, write_eq _ _ _ _, fun m other there there' => ?_⟩⟩
  · rw [← size]
    exact Table.offset_of_addressable (logs.shows.addressable short there)
  have latest : Written.latest? (⟨n, bytes⟩ :: log) m = Written.latest? log m := by
    rw [Written.latest?_cons, if_neg other]
  have after := (logs.pageWritten (n := n) full).read m
  rw [if_pos there', latest] at after
  rw [logs.read, if_pos there]
  exact after

/-- A file ends within its second page. The third one is written, and as it is full a row goes to a fourth. What
is then written to the first one leaves that as it is. -/
theorem pages_hold_what_was_written_last_full :
    let schema : Schema := ⟨[⟨.integer, some "n"⟩]⟩
    let start := Store.new { pageSize := 16, poolPages := 1 } ⟨[("t.dat", .ofBytes (.replicate 20 255))]⟩
    let calls := [write 2 (.replicate 16 255), insert 1 ⟨schema, [.integer 7], none⟩]
    let log : List Written := [⟨3, .zeros 16⟩, ⟨2, .replicate 16 255⟩]
    ∃ opened t, openWithId 1 "t.dat" "t" schema "n" 16 start = .ok () opened ∧
      run 0 opened [] calls = some (t, log) ∧ (t.catalog.table 0).pages = 4 ∧
      (∀ n < 4, (t.catalog.table 0).read t.disk ⟨1, n⟩ =
        .ok ((Written.latest? log n).getD ((Bytes.replicate 20 255).pageOf 16 n))) ∧
      ∃ u, (write 0 (.zeros 16)).perform 0 t = .ok () u ∧
        (u.catalog.table 0).read u.disk ⟨1, 3⟩ = (t.catalog.table 0).read t.disk ⟨1, 3⟩ := by
  intro schema start calls log
  have found : (start.disk.find "t.dat").toOption = some ("t.dat", .ofBytes (.replicate 20 255)) := by
    decide +kernel
  have ran : ((openWithId 1 "t.dat" "t" schema "n" 16).told? start).any (fun told =>
      (run 0 told.2 [] calls).any (fun ended => ended.2 = log ∧
        (ended.1.catalog.table 0).length = 64 ∧ (ended.1.catalog.table 0).pageSize = 16 ∧
        ((ended.1.pageWritten 0 0 (.zeros 16)).catalog.table 0).pages = 4) = true) = true := by
    decide +kernel
  obtain ⟨told, first, ran⟩ := exists_of_any ran
  obtain ⟨⟨t, log'⟩, ran, rfl, length, size, after⟩ := exists_of_any ran
  obtain ⟨opened, opens, rest⟩ := pages_hold_what_was_written_last start 1 "t.dat" "t" schema "n"
    (by decide : 0 < 16) (of_toOption found) (File.holds_ofBytes _)
  obtain rfl : told = (.ok (), opened) :=
    Option.some.inj (first.symm.trans (Action.told?_eq_ok_iff.mpr opens))
  have whole : ∀ c ∈ calls, c.Whole 16 := by
    intro c mem
    rcases List.mem_cons.mp mem with rfl | mem
    · rfl
    · cases List.mem_singleton.mp mem
      trivial
  have short : (t.catalog.table 0).length < File.limit := length ▸ by decide
  obtain ⟨-, pages, read, writes⟩ := rest calls t log whole ran short
  have four : (t.catalog.table 0).pages = 4 := pages.trans (by decide +kernel)
  have near : (t.catalog.table 0).Addressable 0 := by
    rw [Table.Addressable, size]
    decide
  obtain ⟨u, written, others⟩ := writes 0 (.zeros 16) rfl near
  cases written.symm.trans (write_eq 0 t 0 (.zeros 16))
  exact ⟨opened, t, opens, ran, four, fun n below => (read n).trans (if_pos (four ▸ below)),
    _, write_eq _ _ _ _, others 3 (by decide) (four ▸ by decide) (after ▸ by decide)⟩

/-- A page that was never written holds the end of the file, once a page behind it was written. And there is
no page at all once the last one was written that has a number. -/
theorem trailing_bytes_become_data :
    let schema : Schema := ⟨[⟨.integer, some "n"⟩]⟩
    let start := Store.new { pageSize := 16, poolPages := 1 } ⟨[("t.dat", .ofBytes (.replicate 20 255))]⟩
    ∃ opened t u, openWithId 1 "t.dat" "t" schema "n" 16 start = .ok () opened ∧
      (opened.catalog.table 0).pages = 1 ∧
      (write 2 (.zeros 16)).perform 0 opened = .ok () t ∧ (t.catalog.table 0).pages = 3 ∧
      (t.catalog.table 0).read t.disk ⟨1, 1⟩ = .ok (.replicate 4 255 ++ .zeros 12) ∧
      (write (UInt32.size - 1) (.zeros 16)).perform 0 opened = .ok () u ∧ (u.catalog.table 0).pages = 0 := by
  intro schema start
  have loaded : Table.load start.disk 1 "t.dat" schema 16 = .ok ⟨1, "t.dat", schema, 16, 20⟩ :=
    of_toOption (by decide +kernel)
  let opened : Store := { start with catalog := start.catalog.add ⟨1, "t.dat", schema, 16, 20⟩ "t" "n" }
  have opens : openWithId 1 "t.dat" "t" schema "n" 16 start = .ok () opened := openWithId_eq start loaded
  have first : (opened.catalog.table 0).pages = 1 := by decide +kernel
  let t := opened.pageWritten 0 2 (.zeros 16)
  have near : (t.catalog.table 0).pages = 3 ∧
      ((t.catalog.table 0).read t.disk ⟨1, 1⟩).toOption = some (.replicate 4 255 ++ .zeros 12) := by
    decide +kernel
  let u := opened.pageWritten 0 (UInt32.size - 1) (.zeros 16)
  have last : (u.catalog.table 0).pages = 0 := by decide +kernel
  exact ⟨opened, t, u, opens, first, write_eq _ _ _ _, near.1, of_toOption near.2, write_eq _ _ _ _, last⟩

end FileCall
end HeapStore
