import HeapStore.Proofs.Totals

/-! What a step of a transaction can change before its change of a page shows. It takes locks, and it
moves one of its scans or adds an empty page to a table. For that it holds the first page of the table
exclusively. -/
namespace HeapStore

namespace Catalog

variable {c : Catalog} {ref : TableRef}

theorem kin_extended (valid : ref < c.opened.size) (room : (c.table ref).Growable) :
    c.Kin (c.extended ref) := by
  have grown := grown_extended valid room
  refine ⟨grown.ref, grown.size, grown.table, fun k => ?_⟩
  by_cases here : k = ref
  · subst here
    have few := room.2.2
    have size : (c.table k).extended.length / (c.table k).pageSize = (c.table k).pages + 1 := by
      rw [Table.length_extended room, Nat.mul_div_cancel _ room.1]
    rw [Table.pages_of_growable room] at size
    refine Or.inr ⟨room.2.1, by omega, ?_⟩
    simp [table_extended valid, size, few]
  · exact Or.inl (by simp [table_extended valid, here])

/-- Each table that is in use has a page. -/
def Paged (c : Catalog) : Prop := ∀ id ref, c.ref id = .ok ref → 0 < (c.table ref).pages

end Catalog

namespace Plain

variable {α β : Type} {v w u : Plain} {tx : TxId} {own : Option ScanRef} {id : PageId}
  {ref : TableRef} {r : ScanRef} {row : Row} {mode : LockMode}

/-- The transaction may have taken locks. If it has moved the scan `own`, it has added no pages. -/
structure Moves (tx : TxId) (own : Option ScanRef) (v w : Plain) : Prop where
  patient : w.patient = v.patient
  nextTx : w.nextTx = v.nextTx
  locks : Locks.Grows tx v.locks w.locks
  kin : v.catalog.Kin w.catalog
  pages : ∀ ref, (v.catalog.table ref).pages ≤ (w.catalog.table ref).pages
  first : ∀ ref, (v.catalog.table ref).pages = 0 ∨
    (w.catalog.table ref).pages = (v.catalog.table ref).pages ∨
    w.locks.Held tx ⟨(v.catalog.table ref).id, 0⟩ .exclusive
  still : own ≠ none → w.catalog = v.catalog
  total : w.total = v.total
  size : v.scans.size ≤ w.scans.size
  others : ∀ r < v.scans.size, own ≠ some r → w.scans.getD r default = v.scans.getD r default
  table : ∀ r < v.scans.size, (w.scans.getD r default).table = (v.scans.getD r default).table
  mover : ∀ r < v.scans.size, (w.scans.getD r default).tx = (v.scans.getD r default).tx

theorem Moves.refl (v : Plain) : Moves tx own v v :=
  ⟨rfl, rfl, .refl _ _, .refl _, fun _ => Nat.le_refl _, fun _ => Or.inr (Or.inl rfl), fun _ => rfl, rfl,
    Nat.le_refl _, fun _ _ _ => rfl, fun _ _ => rfl, fun _ _ => rfl⟩

theorem Moves.trans (h : Moves tx own v w) (h' : Moves tx own w u) : Moves tx own v u where
  patient := h'.patient.trans h.patient
  nextTx := h'.nextTx.trans h.nextTx
  locks := h.locks.trans h'.locks
  kin := h.kin.trans h'.kin
  pages ref := Nat.le_trans (h.pages ref) (h'.pages ref)
  first ref := by
    have later := h'.first ref
    rw [h.kin.key] at later
    rcases later with none | same | held
    · exact Or.inl (Nat.le_zero.mp (none ▸ h.pages ref))
    · rw [same]
      exact (h.first ref).imp_right (Or.imp_right (h'.locks.kept _ _ _))
    · exact Or.inr (Or.inr held)
  still moved := (h'.still moved).trans (h.still moved)
  total := h'.total.trans h.total
  size := Nat.le_trans h.size h'.size
  others r valid other :=
    (h'.others r (Nat.lt_of_lt_of_le valid h.size) other).trans (h.others r valid other)
  table r valid := (h'.table r (Nat.lt_of_lt_of_le valid h.size)).trans (h.table r valid)
  mover r valid := (h'.mover r (Nat.lt_of_lt_of_le valid h.size)).trans (h.mover r valid)

theorem Moves.keyed (h : Moves tx own v w) (keyed : v.catalog.Keyed) : w.catalog.Keyed :=
  h.kin.keyed keyed

theorem Moves.paged (h : Moves tx own v w) (paged : v.catalog.Paged) : w.catalog.Paged :=
  fun id ref known => Nat.lt_of_lt_of_le (paged id ref (h.kin.ref id ▸ known)) (h.pages ref)

theorem moves_of_locks {locks : Locks} (grows : Locks.Grows tx v.locks locks) :
    Moves tx own v { v with locks } :=
  ⟨rfl, rfl, grows, .refl _, fun _ => Nat.le_refl _, fun _ => Or.inr (Or.inl rfl), fun _ => rfl, rfl,
    Nat.le_refl _, fun _ _ _ => rfl, fun _ _ => rfl, fun _ _ => rfl⟩

/-- A scan is moved to another place in the table that it reads. -/
theorem moves_of_scan {sc : Scan} (table : sc.table = (v.scans.getD r default).table)
    (mover : sc.tx = (v.scans.getD r default).tx) :
    Moves tx (some r) v { v with scans := v.scans.setIfInBounds r sc } := by
  have at_other : ∀ k, k ≠ r → (v.scans.setIfInBounds r sc).getD k default = v.scans.getD k default := by
    intro k other
    simp [Array.getD_eq_getD_getElem?, Ne.symm other]
  refine ⟨rfl, rfl, .refl _ _, .refl _, fun _ => Nat.le_refl _, fun _ => Or.inr (Or.inl rfl),
    fun _ => rfl, rfl, by simp, fun k valid other => at_other k ?_, fun k valid => ?_, fun k valid => ?_⟩
  · rintro rfl
    exact other rfl
  all_goals
    by_cases here : k = r
    · subst here
      simp [getD_setIfInBounds valid, table, mover]
    · simp [at_other k here]

/-- What there is to see once an empty page was added to a table. -/
def appended (v : Plain) (ref : TableRef) : Plain :=
  { v with
    catalog := v.catalog.extended ref
    bytes := fun id => if id = ⟨(v.catalog.table ref).id, (v.catalog.table ref).pages⟩ then
      .zeros (v.catalog.table ref).pageSize else v.bytes id }

theorem append_eq (ref : TableRef) (v : Plain) : append ref v = .ok () (v.appended ref) := rfl

theorem total_appended (keyed : v.catalog.Keyed) {tableId : TableId}
    (known : v.catalog.ref tableId = .ok ref) (room : (v.catalog.table ref).Growable) :
    (v.appended ref).total = v.total := by
  obtain ⟨valid, key⟩ := keyed _ _ known
  have has : ∀ id, (v.appended ref).catalog.Has id ↔ _ := fun _ => Catalog.has_extended keyed known room
  funext id
  by_cases new : id = ⟨(v.catalog.table ref).id, (v.catalog.table ref).pages⟩
  · have known : v.catalog.ref id.table = .ok ref := by rw [new, key, known]
    have lacks : ¬v.catalog.Has id := by
      rw [Catalog.has_iff known]
      simp [new]
    rw [total, Catalog.fill_of_has (c := (v.appended ref).catalog) ((has id).mpr (Or.inr new)), total,
      Catalog.fill_of_lacks lacks, Catalog.blank_of_ref known]
    simp [appended, new]
  · by_cases there : v.catalog.Has id
    · rw [total, Catalog.fill_of_has (c := (v.appended ref).catalog) ((has id).mpr (Or.inl there)), total,
        Catalog.fill_of_has there]
      simp [appended, new]
    · have lacks : ¬(v.appended ref).catalog.Has id := fun now => ((has id).mp now).elim there new
      rw [total, Catalog.fill_of_lacks lacks, total, Catalog.fill_of_lacks there]
      exact (Catalog.kin_extended valid room).blank id

theorem moves_of_append (keyed : v.catalog.Keyed) {tableId : TableId}
    (known : v.catalog.ref tableId = .ok ref) (room : (v.catalog.table ref).Growable)
    (held : (v.catalog.table ref).pages = 0 ∨
      v.locks.Held tx ⟨(v.catalog.table ref).id, 0⟩ .exclusive) :
    Moves tx none v (v.appended ref) := by
  obtain ⟨valid, -⟩ := keyed _ _ known
  refine ⟨rfl, rfl, .refl _ _, Catalog.kin_extended valid room, (Catalog.grown_extended valid room).pages,
    fun k => ?_, fun never => absurd rfl never, total_appended keyed known room, Nat.le_refl _,
    fun _ _ _ => rfl, fun _ _ => rfl, fun _ _ => rfl⟩
  by_cases here : k = ref
  · subst here
    exact held.imp_right Or.inr
  · exact Or.inr (Or.inl (by simp [appended, Catalog.table_extended valid, here]))

/-! Actions that do no more than that -/

/-- However the action ends, it has done no more. -/
def Moving (tx : TxId) (own : Option ScanRef) (y : Act α) (v : Plain) : Prop :=
  match y v with
  | .ok _ w | .error _ w => Moves tx own v w

theorem Moving.of_ok {y : Act α} {a : α} (h : Moving tx own y v) (ended : y v = .ok a w) :
    Moves tx own v w := by
  rwa [Moving, ended] at h

theorem Moving.of_error {y : Act α} {e : Stop} (h : Moving tx own y v) (ended : y v = .error e w) :
    Moves tx own v w := by
  rwa [Moving, ended] at h

theorem moving_bind {y : Act α} {g : α → Act β} (first : Moving tx own y v)
    (later : ∀ a u, y v = .ok a u → Moves tx own v u → Moving tx own (g a) u) :
    Moving tx own (y >>= g) v := by
  unfold Moving
  rw [bind_eq]
  cases ended : y v with
  | error e u => exact first.of_error ended
  | ok a u =>
    have before := first.of_ok ended
    have after := later a u ended before
    unfold Moving at after
    dsimp only
    cases ended' : g a u with
    | ok b w =>
      rw [ended'] at after
      exact before.trans after
    | error e w =>
      rw [ended'] at after
      exact before.trans after

theorem moving_pure (a : α) (v : Plain) : Moving tx own (pure a) v := Moves.refl v

theorem moving_throw (e : Stop) (v : Plain) : Moving tx own (throw e : Act α) v := Moves.refl v

theorem moving_get {g : Plain → Act α} (h : Moving tx own (g v) v) : Moving tx own (get >>= g) v := h

theorem moving_ofOption (o : Option α) (v : Plain) : Moving tx own (ofOption o) v := by
  cases o with
  | none => exact moving_throw _ v
  | some a => exact moving_pure a v

theorem moving_ofCause (o : Except Cause α) (v : Plain) : Moving tx own (ofCause o) v := by
  cases o with
  | error c => exact moving_throw _ v
  | ok a => exact moving_pure a v

theorem moving_lock (tx : TxId) (id : PageId) (mode : LockMode) (v : Plain) :
    Moving tx own (lock tx id mode) v := by
  by_cases patient : v.patient = true
  · cases granted : v.locks.acquire? id tx mode with
    | none =>
      rw [Moving, lock_of_denied patient granted]
      exact Moves.refl v
    | some locks =>
      rw [Moving, lock_of_granted patient granted]
      exact moves_of_locks (Locks.grows_of_acquire? granted)
  · rw [Moving, lock_of_impatient patient]
    exact Moves.refl v

theorem moving_read (id : PageId) (v : Plain) : Moving tx own (read id) v := by
  unfold Moving
  rw [read_eq]
  cases v.catalog.missing? id <;> exact Moves.refl v

theorem moving_getPage (tx : TxId) (id : PageId) (mode : LockMode) (v : Plain) :
    Moving tx own (getPage tx id mode) v :=
  moving_bind (moving_lock tx id mode v) fun _ u _ _ => moving_read id u

/-! Rows -/

theorem moving_insertInto (t : Table) (tx : TxId) (row : Row) (number : Nat) (v : Plain) :
    Moving tx own (insertInto t tx row number) v := by
  refine moving_bind (moving_getPage tx _ .exclusive v) fun bytes u _ _ => ?_
  refine moving_bind (moving_ofOption _ u) fun found u _ _ => ?_
  obtain ⟨_ | slot, bytes⟩ := found
  · exact moving_pure _ u
  · exact moving_pure _ u

theorem moving_insertFrom (t : Table) (tx : TxId) (row : Row) (count number : Nat) (v : Plain) :
    Moving tx own (insertFrom t tx row count number) v := by
  induction count generalizing v number with
  | zero => exact moving_pure _ v
  | succ count ih =>
    refine moving_bind (moving_insertInto t tx row number v) fun found u _ _ => ?_
    cases found with
    | some place => exact moving_pure _ u
    | none => exact ih (number + 1) u

/-- A search for room holds the page that it starts from. -/
theorem held_of_insertFrom {t : Table} {count number : Nat} {found : Option (RecordId × Bytes)}
    (ended : insertFrom t tx row (count + 1) number v = .ok found w) :
    w.locks.Held tx ⟨t.id, number⟩ .exclusive := by
  unfold insertFrom at ended
  obtain ⟨place?, u, first, rest⟩ := bind_eq_ok_iff.mp ended
  have held := (held_of_lock (getPage_eq_ok_iff.mp (insertInto_eq_ok_iff.mp first).1).1).1
  cases place? with
  | some place =>
    cases rest
    exact held
  | none =>
    have later : Moves tx none u w := (moving_insertFrom t tx row count (number + 1) u).of_ok rest
    exact later.locks.kept _ _ _ held

theorem moving_insertAnywhere (keyed : v.catalog.Keyed) {tableId : TableId}
    (known : v.catalog.ref tableId = .ok ref) (pageSize : 0 < (v.catalog.table ref).pageSize)
    (tx : TxId) (row : Row) : Moving tx none (insertAnywhere ref tx row) v := by
  refine moving_get (moving_bind (moving_insertFrom _ tx row _ 0 v) fun found u ended _ => ?_)
  cases found with
  | some place => exact moving_pure _ u
  | none =>
    obtain ⟨locks, rfl⟩ := insertFrom_locks ended
    have held : (v.catalog.table ref).pages = 0 ∨
        locks.Held tx ⟨(v.catalog.table ref).id, 0⟩ .exclusive := by
      cases count : (v.catalog.table ref).pages with
      | zero => exact Or.inl rfl
      | succ last =>
        rw [count] at ended
        exact Or.inr (held_of_insertFrom ended)
    dsimp only
    split
    · rename_i few
      refine moving_bind (moves_of_append (v := { v with locks }) keyed known ⟨pageSize, few⟩ held)
        fun _ u _ _ => moving_get (moving_bind (moving_insertInto _ tx row _ u) fun found u _ _ => ?_)
      cases found with
      | some place => exact moving_pure _ u
      | none => exact moving_throw _ u
    · exact moving_throw _ _

theorem moving_insertRow (keyed : v.catalog.Keyed) (tx : TxId) (table : TableId) (row : Row) :
    Moving tx none (insertRow tx table row) v := by
  refine moving_get (moving_bind (moving_ofCause _ v) fun ref u found _ => ?_)
  obtain ⟨known, rfl⟩ := ofCause_eq_ok_iff.mp found
  refine moving_bind ?_ fun placed u _ _ => moving_pure _ u
  refine moving_get (moving_bind (moving_ofCause _ u) fun _ u' checked _ => ?_)
  obtain ⟨-, rfl⟩ := ofCause_eq_ok_iff.mp checked
  split
  · exact moving_throw _ _
  · rename_i slots
    exact moving_insertAnywhere keyed known (Table.pageSize_pos_of_slots slots) tx row

theorem moving_deleteRow (tx : TxId) (record? : Option RecordId) (v : Plain) :
    Moving tx own (deleteRow tx record?) v := by
  cases record? with
  | none => exact moving_throw _ v
  | some record =>
    refine moving_get (moving_bind (moving_ofCause _ v) fun ref u _ _ => ?_)
    refine moving_bind (moving_get ?_) fun bytes u _ _ => moving_pure _ u
    dsimp only
    split
    · exact moving_throw _ u
    · refine moving_bind (moving_getPage tx _ .exclusive u) fun bytes u _ _ => ?_
      refine moving_bind (moving_ofOption _ u) fun removed u _ _ => ?_
      obtain ⟨_ | _, bytes⟩ := removed
      · exact moving_throw _ u
      · exact moving_pure _ u

/-! Scans -/

/-- The scan reads the table for the transaction that `sc` tells, wherever it has got to. -/
def Reads (v : Plain) (r : ScanRef) (sc : Scan) : Prop :=
  r < v.scans.size ∧ sc.table = (v.scans.getD r default).table ∧ sc.tx = (v.scans.getD r default).tx

variable {sc : Scan}

theorem Moves.reads (h : Moves tx own v w) (reads : v.Reads r sc) : w.Reads r sc :=
  ⟨Nat.lt_of_lt_of_le reads.1 h.size, by rw [h.table r reads.1, reads.2.1],
    by rw [h.mover r reads.1, reads.2.2]⟩

theorem moving_newScan (tx : TxId) (table : TableId) (v : Plain) : Moving tx own (newScan tx table) v := by
  refine moving_get (moving_bind (moving_ofCause _ v) fun ref u _ _ => ?_)
  refine ⟨rfl, rfl, .refl _ _, .refl _, fun _ => Nat.le_refl _, fun _ => Or.inr (Or.inl rfl),
    fun _ => rfl, rfl, by simp, ?_, ?_, ?_⟩
  all_goals
    intro k valid
    simp [Array.getD_eq_getD_getElem?, Array.getElem?_push, Nat.ne_of_lt valid]

theorem moving_setScan (reads : v.Reads r sc) : Moving tx (some r) (setScan r sc) v :=
  moves_of_scan reads.2.1 reads.2.2

theorem moving_fetchRows (sc : Scan) (number : Nat) (v : Plain) :
    Moving sc.tx own (fetchRows sc number) v := by
  refine moving_get (moving_bind (moving_getPage sc.tx _ .shared v) fun bytes u _ _ => ?_)
  exact moving_ofOption _ u

theorem moving_pageCount (sc : Scan) (v : Plain) : Moving tx own (pageCount sc) v :=
  moving_get (moving_ofOption _ v)

theorem moving_scan {g : Scan → Act α} (h : Moving tx own (g (v.scans.getD r default)) v) :
    Moving tx own (scan r >>= g) v := h

theorem moving_openScan (reads : v.Reads r sc) : Moving sc.tx (some r) (openScan r) v := by
  obtain ⟨valid, table, mover⟩ := reads
  refine moving_scan ?_
  generalize at_r : v.scans.getD r default = here at *
  rw [mover]
  have reads : v.Reads r { here with page := 0 } := ⟨valid, by rw [at_r], by rw [at_r]⟩
  refine moving_bind (moving_setScan reads) fun _ u _ moves => ?_
  have reads := moves.reads reads
  refine moving_bind (moving_pageCount _ u) fun count u _ moves => ?_
  have reads := moves.reads reads
  split
  · exact moving_setScan reads
  · refine moving_bind (moving_fetchRows { here with page := 0 } 0 u) fun rows u _ moves => ?_
    exact moving_setScan (moves.reads reads)

theorem moving_seek (fuel : Nat) (reads : v.Reads r sc) : Moving sc.tx (some r) (seek r fuel) v := by
  induction fuel generalizing v with
  | zero => exact moving_pure false v
  | succ fuel ih =>
    obtain ⟨valid, table, mover⟩ := reads
    refine moving_scan ?_
    generalize at_r : v.scans.getD r default = here at *
    have reads : v.Reads r { here with page := here.page + 1 } := ⟨valid, by rw [at_r], by rw [at_r]⟩
    cases here.rest with
    | none => exact moving_pure false v
    | some rows =>
      cases rows with
      | cons row rows => exact moving_pure true v
      | nil =>
        refine moving_bind (moving_pageCount here v) fun count u _ moves => ?_
        have reads := moves.reads reads
        split
        · exact moving_pure false u
        · refine moving_bind (moving_setScan reads) fun _ u _ moves => ?_
          have reads := moves.reads reads
          have fetches : Moving here.tx (some r) _ u :=
            moving_fetchRows { here with page := here.page + 1 } (here.page + 1) u
          rw [mover]
          refine moving_bind fetches fun rows u _ moves => ?_
          have reads := moves.reads reads
          refine moving_bind (moving_setScan reads) fun _ u _ moves => ?_
          have reads := moves.reads reads
          rw [← mover]
          exact ih ⟨reads.1, table.trans reads.2.1, mover.trans reads.2.2⟩

theorem moving_hasNext (reads : v.Reads r sc) : Moving sc.tx (some r) (hasNext r) v :=
  moving_scan (moving_get (moving_seek _ reads))

theorem moving_nextRow (reads : v.Reads r sc) : Moving sc.tx (some r) (nextRow r) v := by
  unfold nextRow
  refine moving_bind (moving_hasNext reads) fun more u _ moves => ?_
  have reads := moves.reads reads
  split
  · refine moving_scan ?_
    generalize at_r : u.scans.getD r default = here at *
    cases here.rest with
    | none => exact moving_throw _ u
    | some rows =>
      cases rows with
      | nil => exact moving_throw _ u
      | cons row rows =>
        refine moving_bind (moving_setScan ⟨reads.1, by rw [at_r], by rw [at_r]⟩) fun _ u _ _ => ?_
        exact moving_pure row u
  · exact moving_throw _ u

theorem moving_closeScan (valid : r < v.scans.size) : Moving tx (some r) (closeScan r) v :=
  moving_scan (moving_setScan ⟨valid, rfl, rfl⟩)

theorem moving_performScan (reads : v.Reads r sc) (step : ScanStep) :
    Moving sc.tx (some r) (performScan r step) v := by
  cases step with
  | start => exact moving_bind (moving_openScan reads) fun _ u _ _ => moving_pure _ u
  | hasNext => exact moving_bind (moving_hasNext reads) fun _ u _ _ => moving_pure _ u
  | next => exact moving_bind (moving_nextRow reads) fun _ u _ _ => moving_pure _ u
  | close => exact moving_bind (moving_closeScan reads.1) fun _ u _ _ => moving_pure _ u
  | restart =>
    refine moving_bind ?_ fun _ u _ _ => moving_pure _ u
    exact moving_bind (moving_closeScan reads.1) fun _ u _ moves => moving_openScan (moves.reads reads)

/-! Steps -/

/-- The scan that a step moves. -/
def touched? (scans : List ScanRef) : Op → Option ScanRef
  | .iterate k _ => scans[k]?
  | _ => none

/-- A step does no more than that, and then it may change a page. -/
theorem moving_perform {scans : List ScanRef} {o : Op} {y : Act Outcome}
    (found : perform? tx scans o = some y) (keyed : v.catalog.Keyed)
    (own : ∀ r ∈ scans, r < v.scans.size ∧ (v.scans.getD r default).tx = tx) :
    Moving tx (touched? scans o) y v := by
  cases o with
  | insert table row =>
    cases found
    exact moving_insertRow keyed tx table row
  | delete record? =>
    cases found
    exact moving_deleteRow tx record? v
  | scan table =>
    cases found
    exact moving_bind (moving_newScan tx table v) fun _ u _ _ => moving_pure _ u
  | iterate k step =>
    obtain ⟨r, mine, rfl⟩ := Option.map_eq_some_iff.mp found
    obtain ⟨valid, mover⟩ := own r (List.mem_of_getElem? mine)
    rw [touched?, mine, ← mover]
    exact moving_performScan ⟨valid, rfl, rfl⟩ step

end Plain
end HeapStore
