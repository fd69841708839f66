import HeapStore.Proofs.Locking
import HeapStore.Proofs.Running

/-! What an action leaves alone. Nobody gets a lock but the transaction that acts, and no scan moves
but the one that is used, which stays with its table and its transaction. This holds whatever is in
the pool and in the files, and however the action ends. -/
namespace HeapStore.Store

open HeapStore.Action

variable {α β : Type} {s s' t : Store} {may : TxId → LockMode → Prop} {tx : TxId} {r : ScanRef}

/-- No locks were got but those in `may`, and no scan was moved. -/
structure Spares (may : TxId → LockMode → Prop) (s s' : Store) : Prop where
  own : ∀ u id mode, s'.locks.Held u id mode → s.locks.Held u id mode ∨ may u mode
  scans : s'.scans = s.scans

theorem Spares.refl (s : Store) : Spares may s s := ⟨fun _ _ _ held => Or.inl held, rfl⟩

theorem Spares.trans {s t u : Store} (h : Spares may s t) (h' : Spares may t u) : Spares may s u where
  own v id mode held := (h'.own v id mode held).elim (h.own v id mode) Or.inr
  scans := h'.scans.trans h.scans

/-- The locks of one mode that one transaction can get. -/
def Gets (tx : TxId) (mode : LockMode) (u : TxId) (k : LockMode) : Prop := u = tx ∧ k = mode

/-- However the action ends, it spares locks and scans. -/
def Sparing (may : TxId → LockMode → Prop) (x : Action α) : Prop := ∀ s, x.Ends s fun _ => Spares may s

theorem sparing_bind {x : Action α} {f : α → Action β} (first : Sparing may x)
    (later : ∀ a, Sparing may (f a)) : Sparing may (x >>= f) := by
  intro s
  rw [ends_bind]
  refine (first s).mono ?_
  rintro (e | a) t spares
  · exact spares
  · exact (later a t).mono fun _ _ => spares.trans

theorem sparing_pure (a : α) : Sparing may (pure a : Action α) := .refl

theorem sparing_get : Sparing may (get : Action Store) := .refl

theorem sparing_stop (e : Stop) : Sparing may (stop e : Action α) := .refl

theorem sparing_fail (c : Cause) : Sparing may (fail c : Action α) := .refl

theorem sparing_crash : Sparing may (crash : Action α) := .refl

theorem sparing_ofStop (o : Except Stop α) : Sparing may (ofStop o) := by
  cases o with
  | ok a => exact sparing_pure a
  | error e => exact sparing_stop e

theorem sparing_ofCause (o : Except Cause α) : Sparing may (ofCause o) := by
  cases o with
  | ok a => exact sparing_pure a
  | error c => exact sparing_fail c

theorem sparing_ofFile (o : Except FileError α) : Sparing may (ofFile o) := by
  cases o with
  | ok a => exact sparing_pure a
  | error e => exact sparing_stop _

theorem sparing_ofOption (o : Option α) : Sparing may (ofOption o) := by
  cases o with
  | some a => exact sparing_pure a
  | none => exact sparing_crash

theorem sparing_ofAttempt (o : Except Failure α) : Sparing may (ofAttempt o) := by
  cases o with
  | ok a => exact sparing_pure a
  | error f => exact sparing_stop _

theorem sparing_within (a : Activity) {x : Action α} (h : Sparing may x) : Sparing may (within a x) :=
  fun s => (ends_within a x _).mpr (h s)

theorem sparing_attempt {x : Action α} (h : Sparing may x) : Sparing may (attempt x) :=
  fun s => (ends_attempt x _).mpr (h s)

theorem spares_of_same (locks : s'.locks = s.locks) (scans : s'.scans = s.scans) :
    Spares may s s' :=
  ⟨fun _ _ _ held => Or.inl (locks ▸ held), scans⟩

theorem sparing_updatePool (f : Pool → Pool) : Sparing may (updatePool f) :=
  fun _ => spares_of_same rfl rfl

theorem sparing_mark (r : PageRef) (owner : Option TxId) : Sparing may (mark r owner) :=
  sparing_updatePool _

theorem sparing_page (r : PageRef) : Sparing may (page r) := .refl

theorem sparing_table (id : TableId) : Sparing may (table id) :=
  sparing_bind sparing_get fun _ => sparing_ofCause _

theorem sparing_lock (tx : TxId) (id : PageId) (mode : LockMode) :
    Sparing (Gets tx mode) (lock tx id mode) := by
  intro s
  rw [ends_lock]
  split
  · split
    · rename_i locks granted
      refine ⟨fun u page k held => ?_, rfl⟩
      exact ((Locks.held_of_acquire? granted).mp held).imp_right fun own => ⟨own.1, own.2.2⟩
    · exact .refl s
  · exact .refl s

/-! Pages -/

theorem sparing_load (id : PageId) : Sparing may (load id) :=
  sparing_bind (sparing_table _) fun _ =>
    sparing_bind (sparing_within _ (sparing_bind sparing_get fun _ => sparing_ofStop _)) fun _ _ =>
      spares_of_same rfl rfl

theorem sparing_fetch (id : PageId) (must : Bool) : Sparing may (fetch id must) := by
  refine sparing_bind sparing_get fun _ => ?_
  split
  · exact sparing_bind (sparing_updatePool _) fun _ => sparing_pure _
  · refine sparing_bind (fun _ => spares_of_same rfl rfl) fun frame => ?_
    cases frame with
    | some frame =>
      exact sparing_bind (sparing_load id) fun _ =>
        sparing_bind (sparing_updatePool _) fun _ => sparing_pure _
    | none =>
      dsimp only
      split
      · exact sparing_bind sparing_get fun _ => sparing_fail _
      · exact sparing_load id

theorem sparing_getPage (tx : TxId) (id : PageId) (mode : LockMode) :
    Sparing (Gets tx mode) (getPage tx id mode) :=
  sparing_bind (sparing_lock tx id mode) fun _ => sparing_bind (sparing_fetch id true) fun _ =>
    sparing_pure _

theorem sparing_getPageForUpdate (tx : TxId) (id : PageId) :
    Sparing (Gets tx .exclusive) (getPageForUpdate tx id) :=
  sparing_bind (sparing_lock tx id .exclusive) fun _ => sparing_fetch id false

theorem sparing_writeTable (ref : TableRef) (p : Page) : Sparing may (writeTable ref p) := by
  intro s
  unfold writeTable
  rw [ends_bind, ends_get, andThen, ends_bind, ends_ofStop]
  cases (s.catalog.table ref).write s.disk p with
  | error e => exact .refl s
  | ok written => exact spares_of_same rfl rfl

theorem sparing_writePage (r : PageRef) : Sparing may (writePage r) :=
  sparing_bind (sparing_page r) fun _ => sparing_bind sparing_get fun _ =>
    sparing_bind (sparing_ofCause _) fun _ =>
      sparing_bind (sparing_within _ (sparing_writeTable _ _)) fun _ => sparing_mark r none

theorem sparing_keepDirty (tx : TxId) (r : PageRef) : Sparing may (keepDirty tx r) := by
  refine sparing_bind (sparing_mark r _) fun _ => sparing_bind sparing_get fun _ =>
    sparing_bind (sparing_page r) fun _ => ?_
  split
  · exact sparing_updatePool _
  · refine sparing_bind (fun _ => spares_of_same rfl rfl) fun frame => ?_
    cases frame with
    | some frame => exact sparing_updatePool _
    | none => exact sparing_writePage r

theorem sparing_writePages (rs : List PageRef) : Sparing may (writePages rs) := by
  induction rs with
  | nil => exact sparing_pure ()
  | cons r rs ih => exact sparing_bind (sparing_writePage r) fun _ => ih

theorem sparing_flushPage (id : PageId) : Sparing may (flushPage id) := by
  refine sparing_bind sparing_get fun s => ?_
  dsimp only
  split
  · split
    · exact sparing_writePage _
    · exact sparing_pure ()
  · exact sparing_pure ()

theorem sparing_flushAll : Sparing may flushAll :=
  sparing_bind sparing_get fun _ => sparing_writePages _

theorem sparing_restorePage (r : PageRef) : Sparing may (restorePage r) := by
  refine sparing_bind (sparing_page r) fun p => ?_
  have read : Sparing may (readPage p.id) := sparing_bind (sparing_table _) fun _ =>
    sparing_bind sparing_get fun _ => sparing_ofStop _
  refine sparing_bind (sparing_attempt (sparing_within _ read)) fun answer => ?_
  cases answer with
  | ok bytes =>
    dsimp only
    split
    · exact sparing_bind (sparing_updatePool _) fun _ => sparing_pure _
    · exact sparing_crash
  | error f => exact sparing_bind (sparing_updatePool _) fun _ => sparing_pure _

theorem sparing_restorePages (rs : List PageRef) : Sparing may (restorePages rs) := by
  induction rs with
  | nil => exact sparing_pure none
  | cons r rs ih =>
    exact sparing_bind (sparing_restorePage r) fun _ => sparing_bind ih fun _ => sparing_pure _

/-! Rows -/

theorem sparing_insertInto (t : Table) (tx : TxId) (row : Row) (number : Nat) :
    Sparing (Gets tx .exclusive) (insertInto t tx row number) := by
  refine sparing_bind (sparing_getPageForUpdate tx _) fun r => sparing_bind (sparing_page r) fun p =>
    sparing_bind (sparing_ofOption _) fun found => ?_
  obtain ⟨_ | slot, bytes⟩ := found
  · exact sparing_pure none
  · exact sparing_bind (sparing_updatePool _) fun _ => sparing_pure _

theorem sparing_insertFrom (t : Table) (tx : TxId) (row : Row) (count number : Nat) :
    Sparing (Gets tx .exclusive) (insertFrom t tx row count number) := by
  induction count generalizing number with
  | zero => exact sparing_pure none
  | succ count ih =>
    refine sparing_bind (sparing_insertInto t tx row number) fun found => ?_
    cases found with
    | some place => exact sparing_pure _
    | none => exact ih (number + 1)

theorem sparing_appendPage (ref : TableRef) : Sparing may (appendPage ref) := by
  intro s
  rw [ends_appendPage]
  split <;> exact spares_of_same rfl rfl

theorem sparing_insertGrowing (ref : TableRef) (tx : TxId) (row : Row) (appends number : Nat) :
    Sparing (Gets tx .exclusive) (insertGrowing ref tx row appends number) := by
  induction appends generalizing number with
  | zero =>
    unfold insertGrowing
    refine sparing_bind sparing_get fun _ => sparing_bind (sparing_insertFrom _ tx row _ _) fun found => ?_
    cases found with
    | some place => exact sparing_pure _
    | none => exact sparing_crash
  | succ appends ih =>
    unfold insertGrowing
    refine sparing_bind sparing_get fun _ => sparing_bind (sparing_insertFrom _ tx row _ _) fun found => ?_
    cases found with
    | some place => exact sparing_pure _
    | none => exact sparing_bind (sparing_appendPage ref) fun _ => ih _

theorem sparing_placeRow (ref : TableRef) (tx : TxId) (row : Row) :
    Sparing (Gets tx .exclusive) (placeRow ref tx row) := by
  refine sparing_bind sparing_get fun s => sparing_bind (sparing_ofCause _) fun _ => ?_
  split
  · exact sparing_fail _
  · exact sparing_insertGrowing ref tx row _ 0

theorem sparing_insertRow (tx : TxId) (table : TableId) (row : Row) :
    Sparing (Gets tx .exclusive) (insertRow tx table row) :=
  sparing_bind sparing_get fun _ => sparing_bind (sparing_ofCause _) fun ref =>
    sparing_bind (sparing_placeRow ref tx row) fun _ => sparing_bind (sparing_keepDirty tx _) fun _ =>
      sparing_pure _

theorem sparing_clearSlot (ref : TableRef) (tx : TxId) (record : RecordId) :
    Sparing (Gets tx .exclusive) (clearSlot ref tx (some record)) := by
  refine sparing_bind sparing_get fun s => ?_
  dsimp only
  split
  · exact sparing_fail _
  · refine sparing_bind (sparing_getPageForUpdate tx _) fun r => sparing_bind (sparing_page r) fun p =>
      sparing_bind (sparing_ofOption _) fun removed => ?_
    obtain ⟨_ | _, bytes⟩ := removed
    · exact sparing_fail _
    · exact sparing_bind (sparing_updatePool _) fun _ => sparing_pure r

theorem sparing_deleteRow (tx : TxId) (record? : Option RecordId) :
    Sparing (Gets tx .exclusive) (deleteRow tx record?) := by
  cases record? with
  | none => exact sparing_fail _
  | some record =>
    exact sparing_bind sparing_get fun _ => sparing_bind (sparing_ofCause _) fun ref =>
      sparing_bind (sparing_clearSlot ref tx record) fun r => sparing_keepDirty tx r

/-! Transactions and tables -/

theorem sparing_complete (tx : TxId) (commit : Bool) : Sparing may (complete tx commit) := by
  have settling : Sparing may (if commit then flushDirtiedBy tx else restoreDirtiedBy tx) := by
    cases commit with
    | true => exact sparing_bind sparing_get fun _ => sparing_writePages _
    | false =>
      refine sparing_bind sparing_get fun _ => sparing_bind (sparing_restorePages _) fun failed => ?_
      cases failed with
      | none => exact sparing_pure ()
      | some f => exact sparing_stop _
  refine sparing_bind (sparing_attempt settling) fun answer => sparing_bind ?_ fun _ => sparing_ofAttempt _
  exact fun _ => ⟨fun _ _ _ held => Or.inl (Locks.held_releaseAll.mp held).1, rfl⟩

theorem sparing_drop (tx : TxId) : Sparing may (drop tx) :=
  sparing_bind (sparing_attempt (sparing_complete tx false)) fun _ => sparing_pure ()

theorem sparing_register (t : Table) (name key : String) : Sparing may (register t name key) :=
  fun _ => spares_of_same rfl rfl

theorem sparing_createWithId (id : TableId) (path name : String) (schema : Schema) (key : String)
    (pageSize : Nat) : Sparing may (createWithId id path name schema key pageSize) :=
  sparing_bind (sparing_within _ (sparing_bind sparing_get fun _ => sparing_ofFile _)) fun _ =>
    sparing_bind (fun _ => spares_of_same rfl rfl) fun _ => sparing_register _ _ _

theorem sparing_openWithId (id : TableId) (path name : String) (schema : Schema) (key : String)
    (pageSize : Nat) : Sparing may (openWithId id path name schema key pageSize) :=
  sparing_bind (sparing_within _ (sparing_bind sparing_get fun _ => sparing_ofFile _)) fun _ =>
    sparing_register _ _ _

theorem sparing_allocate {x : TableId → Nat → Action Unit}
    (later : ∀ id pageSize, Sparing may (x id pageSize)) : Sparing may
      (do let id ← allocateId; x id (← get).settings.pageSize; return id) :=
  sparing_bind (fun _ => spares_of_same rfl rfl) fun _ => sparing_bind sparing_get fun _ =>
    sparing_bind (later _ _) fun _ => sparing_pure _

theorem sparing_newTable (t : NewTable) : Sparing may t.perform := by
  cases t with
  | create path name schema key =>
    exact sparing_bind (sparing_allocate fun id => sparing_createWithId id path name schema key)
      fun _ => sparing_pure _
  | load path name schema key =>
    exact sparing_bind (sparing_allocate fun id => sparing_openWithId id path name schema key)
      fun _ => sparing_pure _
  | createWithId id path name schema key pageSize =>
    exact sparing_bind (sparing_createWithId id path name schema key pageSize) fun _ => sparing_pure _
  | loadWithId id path name schema key pageSize =>
    exact sparing_bind (sparing_openWithId id path name schema key pageSize) fun _ => sparing_pure _

/-! Scans -/

/-- The scan may have moved on, and its transaction may have got shared locks. -/
structure Turns (r : ScanRef) (s s' : Store) : Prop where
  own : ∀ u id mode, s'.locks.Held u id mode →
    s.locks.Held u id mode ∨ Gets (s.scans.getD r default).tx .shared u mode
  size : s'.scans.size = s.scans.size
  others : ∀ k ≠ r, s'.scans.getD k default = s.scans.getD k default
  table : (s'.scans.getD r default).table = (s.scans.getD r default).table
  mover : (s'.scans.getD r default).tx = (s.scans.getD r default).tx

theorem Turns.refl (r : ScanRef) (s : Store) : Turns r s s :=
  ⟨fun _ _ _ held => Or.inl held, rfl, fun _ _ => rfl, rfl, rfl⟩

theorem Turns.trans {s t u : Store} (h : Turns r s t) (h' : Turns r t u) : Turns r s u where
  own v id mode held := (h'.own v id mode held).elim (h.own v id mode) fun mine => Or.inr (h.mover ▸ mine)
  size := h'.size.trans h.size
  others k other := (h'.others k other).trans (h.others k other)
  table := h'.table.trans h.table
  mover := h'.mover.trans h.mover

theorem Spares.turns (h : Spares (Gets (s.scans.getD r default).tx .shared) s s') : Turns r s s' := by
  have scans := h.scans
  exact ⟨h.own, by rw [scans], fun _ _ => by rw [scans], by rw [scans], by rw [scans]⟩

theorem turns_bind {x : Action α} {f : α → Action β} (first : x.Ends s fun _ => Turns r s)
    (later : ∀ a t, Turns r s t → (f a).Ends t fun _ => Turns r t) :
    (x >>= f).Ends s fun _ => Turns r s := by
  rw [ends_bind]
  refine first.mono ?_
  rintro (e | a) t turns
  · exact turns
  · exact (later a t turns).mono fun _ _ => turns.trans

/-- The scan `sc` reads the same table for the same transaction. -/
def Serves (s : Store) (r : ScanRef) (sc : Scan) : Prop :=
  sc.table = (s.scans.getD r default).table ∧ sc.tx = (s.scans.getD r default).tx

theorem Turns.serves {sc : Scan} (h : Turns r s s') (serves : s.Serves r sc) : s'.Serves r sc :=
  ⟨serves.1.trans h.table.symm, serves.2.trans h.mover.symm⟩

theorem setScan_turns {sc : Scan} (serves : s.Serves r sc) :
    (setScan r sc).Ends s fun _ => Turns r s := by
  have here : (s.scans.setIfInBounds r sc).getD r default = s.scans.getD r default ∨
      (s.scans.setIfInBounds r sc).getD r default = sc := by
    simp only [Array.getD_eq_getD_getElem?, Array.getElem?_setIfInBounds, if_true]
    split
    · exact Or.inr rfl
    · rename_i beyond
      rw [Array.getElem?_eq_none (Nat.le_of_not_lt beyond)]
      exact Or.inl rfl
  refine ⟨fun _ _ _ held => Or.inl held, Array.size_setIfInBounds, fun k other => ?_, ?_, ?_⟩
  · simp [Array.getD_eq_getD_getElem?, Ne.symm other]
  · rcases here with same | set
    · exact congrArg Scan.table same
    · exact (congrArg Scan.table set).trans serves.1
  · rcases here with same | set
    · exact congrArg Scan.tx same
    · exact (congrArg Scan.tx set).trans serves.2

theorem fetchRows_turns {sc : Scan} (serves : s.Serves r sc) (number : Nat) :
    (fetchRows sc number).Ends s fun _ => Turns r s := by
  have sparing : Sparing (Gets sc.tx .shared) (fetchRows sc number) := sparing_bind sparing_get fun _ =>
    sparing_bind (sparing_getPage _ _ _) fun _ => sparing_bind (sparing_page _) fun _ =>
      sparing_ofOption _
  rw [serves.2] at sparing
  exact (sparing s).mono fun _ _ spares => spares.turns

theorem pageCount_turns (sc : Scan) : (pageCount sc).Ends s fun _ => Turns r s :=
  ((sparing_bind sparing_get fun _ => sparing_ofOption _ : Sparing _ (pageCount sc)) s).mono
    fun _ _ spares => spares.turns

theorem turns_scan {f : Scan → Action α} (h : (f (s.scans.getD r default)).Ends s fun _ => Turns r s) :
    (scan r >>= f).Ends s fun _ => Turns r s := h

theorem openScan_turns (r : ScanRef) (s : Store) : (openScan r).Ends s fun _ => Turns r s := by
  refine turns_scan (turns_bind (setScan_turns ⟨rfl, rfl⟩) fun _ t turns => ?_)
  refine turns_bind (pageCount_turns _) fun n u turns' => ?_
  have serves : u.Serves r { s.scans.getD r default with page := 0 } :=
    (turns.trans turns').serves ⟨rfl, rfl⟩
  split
  · exact setScan_turns serves
  · exact turns_bind (fetchRows_turns serves 0) fun rows v turns'' => setScan_turns (turns''.serves serves)

theorem seek_turns (r : ScanRef) (fuel : Nat) (s : Store) : (seek r fuel).Ends s fun _ => Turns r s := by
  induction fuel generalizing s with
  | zero => exact .refl r s
  | succ fuel ih =>
    refine turns_scan ?_
    dsimp only
    split
    · exact .refl r s
    · exact .refl r s
    · refine turns_bind (pageCount_turns _) fun n t turns => ?_
      split
      · exact .refl r t
      · let next : Scan :=
          { s.scans.getD r default with page := (s.scans.getD r default).page + 1 }
        have serves : t.Serves r next := turns.serves ⟨rfl, rfl⟩
        refine turns_bind (setScan_turns serves) fun _ u turns => ?_
        have serves := turns.serves serves
        refine turns_bind (fetchRows_turns serves _) fun rows v turns => ?_
        exact turns_bind (setScan_turns (turns.serves serves)) fun _ w _ => ih w

theorem hasNext_turns (r : ScanRef) (s : Store) : (hasNext r).Ends s fun _ => Turns r s :=
  turns_scan (turns_bind (.refl r s) fun _ t _ => seek_turns r _ t)

theorem nextRow_turns (r : ScanRef) (s : Store) : (nextRow r).Ends s fun _ => Turns r s := by
  refine turns_bind (hasNext_turns r s) fun more t _ => ?_
  split
  · refine turns_scan ?_
    split
    · exact turns_bind (setScan_turns ⟨rfl, rfl⟩) fun _ u _ => .refl r u
    · exact .refl r t
  · exact .refl r t

theorem closeScan_turns (r : ScanRef) (s : Store) : (closeScan r).Ends s fun _ => Turns r s :=
  turns_scan (setScan_turns ⟨rfl, rfl⟩)

theorem perform_turns (r : ScanRef) (step : ScanStep) (s : Store) :
    (step.perform r).Ends s fun _ => Turns r s := by
  cases step with
  | start => exact turns_bind (openScan_turns r s) fun _ t _ => .refl r t
  | hasNext => exact turns_bind (hasNext_turns r s) fun _ t _ => .refl r t
  | next => exact turns_bind (nextRow_turns r s) fun _ t _ => .refl r t
  | close => exact turns_bind (closeScan_turns r s) fun _ t _ => .refl r t
  | restart =>
    exact turns_bind (turns_bind (closeScan_turns r s) fun _ t _ => openScan_turns r t)
      fun _ t _ => .refl r t

end HeapStore.Store

/-- The locks that a step can get, only shared ones if it is a step of a scan. -/
def HeapStore.Event.Gets (e : Event) (u : TxId) (mode : LockMode) : Prop :=
  ∃ o, e = .op u o ∧ (o.iterates = true → mode = .shared)

namespace HeapStore.Session

open Store

variable {S S' : Session} {e : Event} {reply : Reply} {s : Store} {tx : TxId}

/-- The scan that a step uses. -/
def used? (S : Session) : Event → Option ScanRef
  | .op tx (.iterate k _) => (S.clients.get? tx).bind fun c => c.scans[k]?
  | _ => none

/-- A step gives locks to nobody but the transaction that takes it, and moves no scan but the one that
it uses. -/
structure Sparse (S : Session) (e : Event) (s : Store) : Prop where
  own : ∀ u id mode, s.locks.Held u id mode → S.store.locks.Held u id mode ∨ e.Gets u mode
  size : S.store.scans.size ≤ s.scans.size
  others : ∀ r < S.store.scans.size, S.used? e ≠ some r →
    s.scans.getD r default = S.store.scans.getD r default
  table : ∀ r < S.store.scans.size, (s.scans.getD r default).table = (S.store.scans.getD r default).table
  mover : ∀ r < S.store.scans.size, (s.scans.getD r default).tx = (S.store.scans.getD r default).tx

/-- Each scan belongs to one transaction, which has made it. -/
def Assigned (S : Session) : Prop := ∀ tx c, S.clients.get? tx = some c → c.scans.Nodup ∧
  ∀ r ∈ c.scans, r < S.store.scans.size ∧ (S.store.scans.getD r default).tx = tx

theorem assigned_start (s : Store) : Assigned (start s) := fun _ _ never => by cases never

theorem sparse_of_spares (h : Spares e.Gets S.store s) : Sparse S e s := by
  have scans := h.scans
  exact ⟨h.own, Nat.le_of_eq (congrArg Array.size scans.symm), fun _ _ _ => by rw [scans],
    fun _ _ => by rw [scans], fun _ _ => by rw [scans]⟩

theorem sparse_of_sparing {x : Action Answer} (h : Sparing e.Gets x)
    (settled : settle x S.store = some (reply, s)) : Sparse S e s :=
  sparse_of_spares (settle_eq_some (h S.store) settled)

theorem sparse_of_op {o : Op} {x : Action Answer} (h : Sparing (Gets tx .exclusive) x)
    (own : o.iterates = false) (settled : settle x S.store = some (reply, s)) : Sparse S (.op tx o) s := by
  have spares := settle_eq_some (h S.store) settled
  refine sparse_of_spares ⟨fun u id mode held => (spares.own u id mode held).imp_right ?_, spares.scans⟩
  rintro ⟨rfl, -⟩
  exact ⟨o, rfl, by simp [own]⟩

/-- A scan that is made is the last one. -/
theorem scan_settled {table : TableId} (settled : settle (do
      let _ ← newScan tx table
      return .done) S.store = some (reply, s)) :
    (∃ answer, reply = .ok answer ∧ ∃ ref, s = { S.store with
      scans := S.store.scans.push { table := ref, tx } }) ∨ ∃ f, reply = .error f ∧ s = S.store := by
  have ends : Action.Ends (do
      let _ ← newScan tx table
      return Answer.done) S.store fun
        | .ok _ => fun s => ∃ ref, s = { S.store with scans := S.store.scans.push { table := ref, tx } }
        | .error _ => fun s => s = S.store := by
    unfold newScan
    rw [Action.ends_bind, Action.ends_bind, Action.ends_get, Action.andThen, Action.ends_bind,
      Action.ends_ofCause]
    cases S.store.catalog.ref table with
    | error c => rfl
    | ok ref => exact ⟨ref, rfl⟩
  have ended := settle_eq_some ends settled
  cases reply with
  | ok answer => exact Or.inl ⟨answer, rfl, ended⟩
  | error f => exact Or.inr ⟨f, rfl, ended⟩

theorem getD_push_of_lt (scans : Array Scan) {sc : Scan} {r : ScanRef} (valid : r < scans.size) :
    (scans.push sc).getD r default = scans.getD r default := by
  simp [Array.getD_eq_getD_getElem?, Array.getElem?_push, Nat.ne_of_lt valid]

theorem Assigned.sparse (h : S.Assigned) (told : S.outcome? e = some (reply, s)) : Sparse S e s := by
  obtain ⟨x, found, settled⟩ := Option.bind_eq_some_iff.mp told
  cases e with
  | begin =>
    cases found
    cases settled
    exact sparse_of_spares (spares_of_same rfl rfl)
  | op tx o =>
    obtain ⟨c, client, -, found⟩ := action?_op_eq_some_iff.mp found
    cases o with
    | insert table row =>
      cases found
      exact sparse_of_op (sparing_bind (sparing_insertRow tx table row) fun _ => sparing_pure _) rfl settled
    | delete record? =>
      cases found
      exact sparse_of_op (sparing_bind (sparing_deleteRow tx record?) fun _ => sparing_pure _) rfl settled
    | scan table =>
      cases found
      rcases scan_settled settled with ⟨answer, -, ref, rfl⟩ | ⟨f, -, rfl⟩
      · have kept : ∀ r < S.store.scans.size, (S.store.scans.push { table := ref, tx }).getD r default =
            S.store.scans.getD r default := fun r valid => getD_push_of_lt _ valid
        exact ⟨fun _ _ _ held => Or.inl held, by simp, fun r valid _ => kept r valid,
          fun r valid => congrArg Scan.table (kept r valid),
          fun r valid => congrArg Scan.tx (kept r valid)⟩
      · exact sparse_of_spares (.refl S.store)
    | iterate k step =>
      obtain ⟨r, mine, rfl⟩ := Option.map_eq_some_iff.mp found
      obtain ⟨valid, mover⟩ := (h tx c client).2 r (List.mem_of_getElem? mine)
      have turns := settle_eq_some (perform_turns r step S.store) settled
      have used : S.used? (.op tx (.iterate k step)) = some r := by simp [used?, client, mine]
      have same : ∀ k, k = r ∨ s.scans.getD k default = S.store.scans.getD k default := fun k =>
        if here : k = r then Or.inl here else Or.inr (turns.others k here)
      refine ⟨fun u id mode held => ?_, Nat.le_of_eq turns.size.symm, fun k _ other => ?_, fun k _ => ?_,
        fun k _ => ?_⟩
      · refine (turns.own u id mode held).imp_right ?_
        rw [mover]
        rintro ⟨rfl, shared⟩
        exact ⟨_, rfl, fun _ => shared⟩
      · refine (same k).resolve_left ?_
        rintro rfl
        exact other used
      · rcases same k with rfl | same
        · exact turns.table
        · rw [same]
      · rcases same k with rfl | same
        · exact turns.mover
        · rw [same]
  | commit tx =>
    obtain ⟨-, rfl⟩ := action?_commit_eq_some_iff.mp found
    exact sparse_of_sparing (sparing_bind (sparing_complete tx true) fun _ => sparing_pure _) settled
  | abort tx =>
    obtain ⟨-, rfl⟩ := action?_abort_eq_some_iff.mp found
    exact sparse_of_sparing (sparing_bind (sparing_complete tx false) fun _ => sparing_pure _) settled
  | drop tx =>
    obtain ⟨-, rfl⟩ := action?_drop_eq_some_iff.mp found
    exact sparse_of_sparing (sparing_bind (sparing_drop tx) fun _ => sparing_pure _) settled
  | flushPage id =>
    cases found
    exact sparse_of_sparing (sparing_bind (sparing_flushPage id) fun _ => sparing_pure _) settled
  | flushAll =>
    cases found
    exact sparse_of_sparing (sparing_bind sparing_flushAll fun _ => sparing_pure _) settled
  | discard id =>
    cases found
    exact sparse_of_sparing (sparing_bind (sparing_updatePool _) fun _ => sparing_pure _) settled
  | addTable t =>
    cases found
    exact sparse_of_sparing (sparing_newTable t) settled

/-- The scans of a transaction stay its own, and one may come to them that it has just made. -/
theorem scans_after {u : TxId} {c' : Client} (client : (S.after e reply s).clients.get? u = some c') :
    (e = .begin ∧ reply = .ok (.began u)) ∧ c'.scans = [] ∨
      ∃ c, S.clients.get? u = some c ∧ (c'.scans = c.scans ∨
        (∃ table answer, e = .op u (.scan table) ∧ reply = .ok answer) ∧
          c'.scans = c.scans ++ [S.store.scans.size]) := by
  have updated : ∀ {tx f}, (S.update tx f).get? u = some c' → ∃ c, S.clients.get? u = some c ∧
      (u ≠ tx ∧ c' = c ∨ u = tx ∧ c' = f c) := by
    intro tx f found
    rw [get?_update] at found
    split at found
    · rename_i mine
      obtain ⟨c, was, rfl⟩ := Option.map_eq_some_iff.mp found
      exact ⟨c, was, Or.inr ⟨mine, rfl⟩⟩
    · rename_i other
      exact ⟨c', found, Or.inl ⟨other, rfl⟩⟩
  have finished : ∀ {tx}, (S.update tx .finish).get? u = some c' → ∃ c, S.clients.get? u = some c ∧
      c'.scans = c.scans := by
    intro tx found
    obtain ⟨c, was, ⟨-, rfl⟩ | ⟨-, rfl⟩⟩ := updated found
    · exact ⟨c', was, rfl⟩
    · exact ⟨c, was, rfl⟩
  simp only [after, clientsAfter] at client
  split at client
  · split at client
    · rw [Assoc.get?_insert] at client
      split at client
      · rename_i here
        cases client
        exact Or.inl ⟨⟨rfl, by rw [here]⟩, rfl⟩
      · exact Or.inr ⟨c', client, Or.inl rfl⟩
    · exact Or.inr ⟨c', client, Or.inl rfl⟩
  · rename_i tx o
    obtain ⟨c, was, ⟨-, rfl⟩ | ⟨rfl, rfl⟩⟩ := updated client
    · exact Or.inr ⟨c', was, Or.inl rfl⟩
    · refine Or.inr ⟨c, was, ?_⟩
      simp only [Client.note]
      split
      · exact Or.inr ⟨⟨_, _, rfl, rfl⟩, rfl⟩
      · exact Or.inl rfl
  · exact Or.inr ((finished client).imp fun c found => found.imp_right Or.inl)
  · exact Or.inr ((finished client).imp fun c found => found.imp_right Or.inl)
  · exact Or.inr ((finished client).imp fun c found => found.imp_right Or.inl)
  · exact Or.inr ⟨c', client, Or.inl rfl⟩

theorem Assigned.step (h : S.Assigned) (told : S.outcome? e = some (reply, s)) :
    (S.after e reply s).Assigned := by
  have sparse := h.sparse told
  intro u c' client'
  have kept : ∀ {c}, S.clients.get? u = some c → ∀ r ∈ c.scans,
      r < s.scans.size ∧ (s.scans.getD r default).tx = u := by
    intro c client r mine
    obtain ⟨valid, mover⟩ := (h u c client).2 r mine
    exact ⟨Nat.lt_of_lt_of_le valid sparse.size, (sparse.mover r valid).trans mover⟩
  rcases scans_after client' with ⟨-, none⟩ | ⟨c, client, same | ⟨⟨table, answer, rfl, rfl⟩, more⟩⟩
  · simp [none]
  · rw [same]
    exact ⟨(h u c client).1, kept client⟩
  · -- the scan that was made is the last one
    obtain ⟨_, _, _, found, settled⟩ := settled_of_op told
    cases found
    rcases scan_settled settled with ⟨_, -, ref, rfl⟩ | ⟨f, never, -⟩
    · have fresh : S.store.scans.size ∉ c.scans := fun mine =>
        Nat.lt_irrefl _ ((h u c client).2 _ mine).1
      rw [more]
      refine ⟨?_, fun r listed => ?_⟩
      · rw [List.nodup_append]
        refine ⟨(h u c client).1, by simp, ?_⟩
        rintro r mine _ last rfl
        exact fresh (List.mem_singleton.mp last ▸ mine)
      · rcases List.mem_append.mp listed with mine | last
        · exact kept client r mine
        · rw [List.mem_singleton.mp last]
          have here : (S.store.scans.push { table := ref, tx := u }).getD S.store.scans.size default =
              { table := ref, tx := u } := by
            simp [Array.getD_eq_getD_getElem?]
          exact ⟨by simp [after], congrArg Scan.tx here⟩
    · cases never

theorem assigned_run {es : List Event} {settings : Settings} {disk : Disk}
    (ran : (start (Store.new settings disk)).run es = some S) : S.Assigned :=
  run_invariant (I := fun _ => Assigned) (fun h stepped => by
    obtain ⟨reply, s, told, rfl⟩ := outcome?_of_step stepped
    exact h.step told) (assigned_start _) ran

end HeapStore.Session
