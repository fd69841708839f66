import HeapStore.Proofs.Growing

/-! Every step of a transaction follows the store without a pool: changes of rows and scans. -/
namespace HeapStore.Store

variable {α β : Type} {s s' t u : Store} {id : PageId} {tx : TxId} {may : Prop}

theorem placeRow_follows (h : s.Coherent) {tableId : TableId} {ref : TableRef}
    (known : s.catalog.ref tableId = .ok ref) (tx : TxId) (row : Row) :
    (placeRow ref tx row).Ends s (Follows may tx s (Plain.placeRow ref tx row) fun a b t s' =>
      Searched tx (some a) (some b) t s') := by
  have view : s.view.catalog = s.catalog := rfl
  unfold placeRow Plain.placeRow
  rw [Action.ends_bind, Action.ends_get, Action.andThen]
  apply follows_get
  rw [view]
  refine follows_bind (follows_ofCause h _) ?_
  rintro _ _ _ _ - - ⟨⟨rfl, rfl⟩, -, -⟩
  split
  · exact follows_fail h _
  · rename_i slots
    exact insertGrowing_follows h known slots tx row _

theorem clearSlot_follows (h : s.Coherent) (ref : TableRef) (tx : TxId) (record : RecordId) :
    (clearSlot ref tx (some record)).Ends s (Follows may tx s (Plain.clearSlot ref tx record)
      (Drafted tx record.page)) := by
  have view : s.view.catalog = s.catalog := rfl
  unfold clearSlot Plain.clearSlot
  rw [Action.ends_bind, Action.ends_get, Action.andThen]
  apply follows_get
  rw [view]
  dsimp only
  split
  · exact follows_fail h _
  · refine follows_bind (getPageForUpdate_follows h tx record.page) ?_
    rintro r _ v _ - upkeep ⟨⟨rfl, stands, rfl⟩, held⟩
    rw [Action.ends_bind, ends_page, Action.andThen, stands.bytes upkeep.coherent]
    refine follows_bind (follows_ofOption upkeep.coherent _) ?_
    rintro ⟨_ | _, bytes⟩ _ _ _ - - ⟨⟨rfl, rfl⟩, rfl, found⟩
    · exact follows_fail upkeep.coherent _
    · refine follows_pure upkeep.coherent ⟨stands, held, ?_, rfl⟩
      rw [Layout.size_remove? found, upkeep.coherent.size_content]

/-- What a step has made of the store. -/
def Applied (tx : TxId) : Option (PageId × Bytes) → Store → Store → Prop
  | none, t, s' => s' = t
  | some (id, bytes), t, s' => t.Rewritten tx id bytes s'

theorem Applied.catalog (h : Applied tx change t s) : s.catalog = t.catalog := by
  cases change with
  | none => rw [show s = t from h]
  | some page => rw [Rewritten.rest h]

theorem Applied.locks (h : Applied tx change t s) : s.locks = t.locks := by
  cases change with
  | none => rw [show s = t from h]
  | some page => rw [Rewritten.rest h]

theorem Drafted.keepDirty {r : PageRef} {bytes : Bytes} (h : t.Coherent)
    (drafted : Drafted tx id r bytes t s') :
    (keepDirty tx r).Ends s' fun answer u => answer = .ok () ∧ t.Rewritten tx id bytes u := by
  obtain ⟨stands, held, whole, rfl⟩ := drafted
  exact (change_ends h.guarded.pool stands tx bytes).mono fun answer u changed =>
    h.rewritten stands held whole changed

theorem insertRow_follows (h : s.Coherent) (tx : TxId) (table : TableId) (row : Row) :
    (insertRow tx table row).Ends s (Follows may tx s (Plain.insertRow tx table row)
      fun record o t s' => o.answer = .stored record ∧ Applied tx o.change t s') := by
  have view : s.view.catalog = s.catalog := rfl
  unfold insertRow Plain.insertRow
  rw [Action.ends_bind, Action.ends_get, Action.andThen]
  apply follows_get
  rw [view]
  refine follows_bind (follows_ofCause h _) ?_
  rintro ref _ _ _ - - ⟨⟨rfl, rfl⟩, rfl, known⟩
  refine follows_bind (placeRow_follows h known tx row) ?_
  rintro ⟨r, record⟩ ⟨_, bytes⟩ t u - upkeep searched
  cases searched with
  | place drafted =>
    rw [Action.ends_bind]
    refine (drafted.keepDirty upkeep.coherent).mono ?_
    rintro answer v ⟨rfl, rewritten⟩
    rw [Action.andThen, Action.ends_pure]
    exact .pure upkeep.coherent ⟨rfl, rewritten⟩

theorem deleteRow_follows (h : s.Coherent) (tx : TxId) (record? : Option RecordId) :
    (deleteRow tx record?).Ends s (Follows may tx s (Plain.deleteRow tx record?)
      fun _ o t s' => o.answer = .done ∧ Applied tx o.change t s') := by
  cases record? with
  | none => exact follows_fail h _
  | some record =>
    have view : s.view.catalog = s.catalog := rfl
    unfold deleteRow Plain.deleteRow
    dsimp only
    rw [Action.ends_bind, Action.ends_get, Action.andThen]
    apply follows_get
    rw [view]
    refine follows_bind (follows_ofCause h _) ?_
    rintro ref _ _ _ - - ⟨⟨rfl, rfl⟩, rfl, known⟩
    refine follows_bind (clearSlot_follows h ref tx record) ?_
    rintro r bytes t u - upkeep drafted
    refine (drafted.keepDirty upkeep.coherent).mono ?_
    rintro answer v ⟨rfl, rewritten⟩
    exact .pure upkeep.coherent ⟨rfl, rewritten⟩

/-! Scans -/

theorem Coherent.withScans (h : s.Coherent) (scans : Array Scan) : Coherent { s with scans } :=
  ⟨⟨h.guarded.pool, h.guarded.locks, h.guarded.keyed, h.guarded.owned, h.guarded.known⟩,
    h.capacity, h.apart, h.backed, h.named, h.has, h.whole, h.clean⟩

theorem Coherent.withNextTx (h : s.Coherent) (nextTx : TxId) : Coherent { s with nextTx } :=
  ⟨⟨h.guarded.pool, h.guarded.locks, h.guarded.keyed, h.guarded.owned, h.guarded.known⟩,
    h.capacity, h.apart, h.backed, h.named, h.has, h.whole, h.clean⟩

theorem upkeep_of_scans (h : s.Coherent) (scans : Array Scan) : s.Upkeep tx { s with scans } :=
  ⟨h.withScans scans, rfl, .refl _, fun _ => rfl, fun _ _ => rfl,
    fun _ lacks has => absurd has lacks, fun _ _ => rfl,
    fun id ref known => (h.backed id ref known).padded rfl, fun _ _ => rfl,
    fun all => ⟨all, fun _ => rfl⟩, fun _ _ held => Or.inl held⟩

theorem setScan_follows (h : s.Coherent) (r : ScanRef) (sc : Scan) :
    (setScan r sc).Ends s (Follows may tx s (Plain.setScan r sc) Same) := by
  unfold setScan
  rw [Action.ends_modify]
  exact .returns rfl (upkeep_of_scans h _) rfl ⟨rfl, rfl⟩

theorem newScan_follows (h : s.Coherent) (tx : TxId) (table : TableId) :
    (newScan tx table).Ends s (Follows may tx s (Plain.newScan tx table) Same) := by
  have view : s.view.catalog = s.catalog := rfl
  unfold newScan Plain.newScan
  rw [Action.ends_bind, Action.ends_get, Action.andThen]
  apply follows_get
  rw [view]
  refine follows_bind (follows_ofCause h _) ?_
  rintro ref _ _ _ - - ⟨⟨rfl, rfl⟩, rfl, known⟩
  rw [Action.ends_bind, Action.ends_get, Action.andThen, Action.ends_bind, Action.ends_set,
    Action.andThen, Action.ends_pure]
  exact .returns rfl (upkeep_of_scans h _) rfl ⟨rfl, rfl⟩

theorem follows_scan (h : s.Coherent) (r : ScanRef) :
    (scan r).Ends s (Follows may tx s (Plain.scan r) Same) :=
  follows_pure h ⟨rfl, rfl⟩

theorem follows_scan_bind {r : ScanRef} {f : Scan → Action α} {g : Scan → Plain.Act β}
    {rel : α → β → Store → Store → Prop}
    (h : (f (s.scans.getD r default)).Ends s (Follows may tx s (g (s.scans.getD r default)) rel)) :
    (scan r >>= f).Ends s (Follows may tx s (Plain.scan r >>= g) rel) := h

theorem fetchRows_follows (h : s.Coherent) (allowed : may) (sc : Scan) {number : Nat}
    (inside : number < (s.catalog.table sc.table).pages) :
    (fetchRows sc number).Ends s (Follows may tx s (Plain.fetchRows sc number) Same) := by
  have view : s.view.catalog = s.catalog := rfl
  unfold fetchRows Plain.fetchRows
  rw [Action.ends_bind, Action.ends_get, Action.andThen]
  apply follows_get
  rw [view]
  dsimp only
  refine follows_bind (getPageShared_follows h allowed sc.tx _ ⟨sc.table, rfl, inside⟩) ?_
  rintro handle _ t _ - upkeep ⟨rfl, stands, rfl⟩
  rw [Action.ends_bind, ends_page, Action.andThen, stands.bytes upkeep.coherent]
  exact follows_weaken (follows_ofOption upkeep.coherent _) fun a b t u same =>
    ⟨same.2.1, same.1.2.trans same.1.1.symm⟩

theorem pageCount_follows (h : s.Coherent) (sc : Scan) :
    (pageCount sc).Ends s (Follows may tx s (Plain.pageCount sc) fun a b t s' =>
      (t = s ∧ s' = s) ∧ a = b ∧ a = (s.catalog.table sc.table).pages) := by
  unfold pageCount Plain.pageCount
  rw [Action.ends_bind, Action.ends_get, Action.andThen]
  apply follows_get
  refine follows_weaken (follows_ofOption h _) fun a b t u same => ⟨same.1, same.2.1, ?_⟩
  obtain ⟨-, -, counted⟩ := same
  unfold Table.pageCount? at counted
  split at counted
  · cases counted
  · cases counted
    rfl

theorem openScan_follows (h : s.Coherent) (r : ScanRef)
    (allowed : (s.catalog.table (s.scans.getD r default).table).pages ≠ 0 → may) :
    (openScan r).Ends s (Follows may tx s (Plain.openScan r) Same) := by
  unfold openScan Plain.openScan
  refine follows_scan_bind ?_
  refine follows_bind (setScan_follows h r _) ?_
  rintro _ _ _ t ended upkeep ⟨-, rfl⟩
  have catalog : t.catalog = s.catalog := congrArg Plain.catalog (Plain.setScan_eq_ok ended)
  refine follows_bind (pageCount_follows upkeep.coherent _) ?_
  rintro n _ _ _ - upkeep ⟨⟨rfl, rfl⟩, rfl, rfl⟩
  split
  · exact setScan_follows upkeep.coherent r _
  · rename_i some
    refine follows_bind (fetchRows_follows upkeep.coherent (allowed (catalog ▸ some)) _
      (Nat.pos_of_ne_zero some)) ?_
    rintro rows _ t _ - upkeep ⟨rfl, rfl⟩
    exact setScan_follows upkeep.coherent r _

/-- A page has to be fetched before it is known whether a row is left. -/
def Awaits (s : Store) (r : ScanRef) : Prop := (s.scans.getD r default).rest = some [] ∧
  (s.scans.getD r default).page + 1 < (s.catalog.table (s.scans.getD r default).table).pages

theorem seek_follows (h : s.Coherent) (r : ScanRef) (allowed : s.Awaits r → may) (fuel : Nat) :
    (seek r fuel).Ends s (Follows may tx s (Plain.seek r fuel) Same) := by
  induction fuel generalizing s with
  | zero => exact follows_pure h ⟨rfl, rfl⟩
  | succ fuel ih =>
    unfold seek Plain.seek
    refine follows_scan_bind ?_
    cases rest : (s.scans.getD r default).rest with
    | none => exact follows_pure h ⟨rfl, rfl⟩
    | some rows =>
      cases rows with
      | cons row rows => exact follows_pure h ⟨rfl, rfl⟩
      | nil =>
        refine follows_bind (pageCount_follows h _) ?_
        rintro n _ _ _ - upkeep ⟨⟨rfl, rfl⟩, rfl, rfl⟩
        split
        · exact follows_pure upkeep.coherent ⟨rfl, rfl⟩
        · rename_i more
          have allowed := allowed ⟨rest, Nat.lt_of_not_le more⟩
          refine follows_bind (setScan_follows upkeep.coherent r _) ?_
          rintro _ _ _ t ended upkeep ⟨-, rfl⟩
          have catalog := congrArg Plain.catalog (Plain.setScan_eq_ok ended)
          change t.catalog = _ at catalog
          refine follows_bind (fetchRows_follows upkeep.coherent allowed _ ?_) ?_
          · rw [catalog]
            exact Nat.lt_of_not_le more
          rintro rows _ t _ - upkeep ⟨rfl, rfl⟩
          refine follows_bind (setScan_follows upkeep.coherent r _) ?_
          rintro _ _ t _ - upkeep ⟨-, rfl⟩
          exact ih upkeep.coherent fun _ => allowed

theorem hasNext_follows (h : s.Coherent) (r : ScanRef) (allowed : s.Awaits r → may) :
    (hasNext r).Ends s (Follows may tx s (Plain.hasNext r) Same) := by
  unfold hasNext Plain.hasNext
  refine follows_scan_bind ?_
  rw [Action.ends_bind, Action.ends_get, Action.andThen]
  apply follows_get
  exact seek_follows h r allowed _

theorem nextRow_follows (h : s.Coherent) (r : ScanRef) (allowed : s.Awaits r → may) :
    (nextRow r).Ends s (Follows may tx s (Plain.nextRow r) Same) := by
  unfold nextRow Plain.nextRow
  refine follows_bind (hasNext_follows h r allowed) ?_
  rintro more _ t _ - upkeep ⟨rfl, rfl⟩
  split
  · refine follows_bind (follows_scan upkeep.coherent r) ?_
    rintro sc _ t _ - upkeep ⟨rfl, rfl⟩
    cases sc.rest with
    | none => exact follows_fail upkeep.coherent _
    | some rows =>
      cases rows with
      | nil => exact follows_fail upkeep.coherent _
      | cons row rows =>
        refine follows_bind (setScan_follows upkeep.coherent r _) ?_
        rintro _ _ t _ - upkeep ⟨-, rfl⟩
        exact follows_pure upkeep.coherent ⟨rfl, rfl⟩
  · exact follows_fail upkeep.coherent _

theorem closeScan_follows (h : s.Coherent) (r : ScanRef) :
    (closeScan r).Ends s (Follows may tx s (Plain.closeScan r) Same) := by
  unfold closeScan Plain.closeScan
  refine follows_bind (follows_scan h r) ?_
  rintro sc _ t _ - upkeep ⟨rfl, rfl⟩
  exact setScan_follows upkeep.coherent r _

theorem rewind_follows (h : s.Coherent) (allowed : may) (r : ScanRef) :
    (rewind r).Ends s (Follows may tx s (Plain.rewind r) Same) := by
  refine follows_bind (closeScan_follows h r) ?_
  rintro _ _ t _ - upkeep ⟨-, rfl⟩
  exact openScan_follows upkeep.coherent r fun _ => allowed

/-- The outcome of a step is that of the same step on a store without a pool. -/
def Performs (may : Prop) (tx : TxId) (s : Store) (y : Plain.Act Plain.Outcome) :
    Except Stop Answer → Store → Prop :=
  Follows may tx s y fun answer o t s' => answer = o.answer ∧ Applied tx o.change t s'

theorem performs_quietly {x : Action α} {y : Plain.Act α} {k : α → Answer}
    (h : x.Ends s (Follows may tx s y Same)) :
    (do return k (← x)).Ends s (Performs may tx s do return ⟨k (← y), none⟩) := by
  refine follows_bind h ?_
  rintro a _ t _ - upkeep ⟨rfl, rfl⟩
  exact follows_pure upkeep.coherent ⟨rfl, rfl⟩

theorem performScan_follows (h : s.Coherent) (allowed : may) (tx : TxId) (r : ScanRef) (step : ScanStep) :
    (step.perform r).Ends s (Performs may tx s (Plain.performScan r step)) := by
  cases step with
  | start => exact performs_quietly (openScan_follows h r fun _ => allowed)
  | hasNext => exact performs_quietly (hasNext_follows h r fun _ => allowed)
  | next => exact performs_quietly (nextRow_follows h r fun _ => allowed)
  | close => exact performs_quietly (closeScan_follows h r)
  | restart => exact performs_quietly (rewind_follows h allowed r)

/-- Every step of a transaction does what it does on a store without a pool. -/
theorem perform_follows (h : s.Coherent) {scans : List ScanRef} {o : Op} {x : Action Answer}
    (found : o.perform? tx scans = some x) :
    ∃ y, Plain.perform? tx scans o = some y ∧ x.Ends s (Performs (o.iterates = true) tx s y) := by
  cases o with
  | insert table row =>
    cases found
    refine ⟨_, rfl, ?_⟩
    exact follows_map (insertRow_follows h tx table row) fun record o t u done => ⟨done.1.symm, done.2⟩
  | delete record? =>
    cases found
    refine ⟨_, rfl, ?_⟩
    exact follows_map (deleteRow_follows h tx record?) fun _ o t u done => ⟨done.1.symm, done.2⟩
  | scan table =>
    cases found
    exact ⟨_, rfl, performs_quietly (newScan_follows h tx table)⟩
  | iterate k step =>
    obtain ⟨r, mine, rfl⟩ := Option.map_eq_some_iff.mp found
    refine ⟨Plain.performScan r step, ?_, performScan_follows h rfl tx r step⟩
    rw [Plain.perform?, mine]
    rfl

end HeapStore.Store
