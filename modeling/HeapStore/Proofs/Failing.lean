import HeapStore.Proofs.Calling

/-! Storing or removing a row in vain. Whatever it was that could not be done, the rows are as before; at
most an empty page has come to the table, from which another transaction then kept the one that stores. -/
namespace HeapStore

namespace Store
open HeapStore.Action

variable {s t u : Store} {id : PageId} {tx : TxId} {ref : TableRef} {i : TableId} {row : Row} {e : Stop}
  {may : TxId → PageId → Prop} {past : List (Call × Reply)} {settings : Settings} {disk : Disk}

/-- Every page holds what it held and belongs to whoever it belonged to, and only one transaction got
locks. -/
structure Intact (tx : TxId) (s t : Store) : Prop where
  rest : t = { s with catalog := t.catalog, disk := t.disk, pool := t.pool, locks := t.locks }
  content : ∀ id, s.catalog.Has id → t.content id = s.content id
  owner : ∀ id, t.owner id = s.owner id
  locks : Locks.Grows tx s.locks t.locks

theorem Intact.refl (tx : TxId) (s : Store) : s.Intact tx s :=
  ⟨rfl, fun _ _ => rfl, fun _ => rfl, .refl tx s.locks⟩

theorem Looked.intact (looked : s.Looked may t) (own : ∀ u p, may u p → u = tx) : s.Intact tx t := by
  refine ⟨?_, fun id _ => looked.content id, looked.owner, looked.locks.grows own⟩
  rw [looked.rest]

/-- A table has got an empty page, and no other file has changed. -/
structure Enlarged (ref : TableRef) (s t : Store) : Prop where
  catalog : t.catalog = s.catalog.extended ref
  pages : (t.catalog.table ref).pages = (s.catalog.table ref).pages + 1
  file : ∃ f f', s.disk.get? (s.catalog.table ref).file = some f ∧
    t.disk.get? (s.catalog.table ref).file = some f' ∧ f.Lengthened (s.catalog.table ref).pageSize f'
  others : ∀ name ≠ (s.catalog.table ref).file, t.disk.get? name = s.disk.get? name
  content : t.content (s.nextPage ref) = .zeros (s.catalog.table ref).pageSize

theorem Pooled.not_has_next (h : s.Pooled) (known : s.catalog.ref i = .ok ref) :
    ¬s.catalog.Has (s.nextPage ref) := by
  rintro ⟨ref', known', below⟩
  obtain ⟨-, key⟩ := h.keyed i ref known
  have same : s.catalog.ref i = .ok ref' := key ▸ known'
  cases Except.ok.inj (known.symm.trans same)
  exact Nat.lt_irrefl _ below

/-- Once there is an empty page, looking around leaves all other pages as they were. -/
theorem Looked.intact_appended (h : s.Pooled) (known : s.catalog.ref i = .ok ref)
    (looked : (s.appended ref).Looked may t) (own : ∀ u p, may u p → u = tx) : s.Intact tx t where
  rest := by
    rw [looked.rest]
    rfl
  content id has := by
    have old : id ≠ s.nextPage ref := by
      rintro rfl
      exact h.not_has_next known has
    rw [looked.content, h.content_appended known, if_neg old]
  owner := looked.owner
  locks := looked.locks.grows own

theorem Looked.enlarged (h : s.Pooled) (known : s.catalog.ref i = .ok ref)
    (room : (s.catalog.table ref).Growable) (looked : (s.appended ref).Looked may t) :
    s.Enlarged ref t := by
  obtain ⟨locks, coherent⟩ := h.coherent
  have backed : (s.catalog.table ref).Backed s.disk := coherent.backed i ref known
  refine ⟨looked.catalog.trans (catalog_appended s ref), ?_, ?_, fun name other => ?_, ?_⟩
  · rw [looked.catalog, table_appended (h.keyed i ref known).1, Table.pages_extended room]
  · rw [looked.disk]
    exact Table.lengthened_append backed room
  · rw [looked.disk]
    exact (Table.get?_writeAt _ _ _ _ name).trans (if_neg other)
  · rw [looked.content, h.content_appended known, if_pos rfl]

/-- A row that was given a place is stored. -/
theorem insertRow_eq_error (h : s.Pooled) (failed : insertRow tx i row s = .error e t) :
    (∃ c, s.catalog.ref i = .error c ∧ e = .ofCause c ∧ t = s) ∨
      ∃ ref, s.catalog.ref i = .ok ref ∧ placeRow ref tx row s = .error e t := by
  unfold insertRow at failed
  obtain never | ⟨_, _, ⟨⟩, failed⟩ := bind_eq_error_iff.mp failed
  · cases never
  cases known : s.catalog.ref i with
  | error c =>
    rw [known] at failed
    obtain failed | ⟨_, _, never, -⟩ := bind_eq_error_iff.mp failed
    · cases failed
      exact Or.inl ⟨_, rfl, rfl, rfl⟩
    · cases never
  | ok ref =>
    rw [known] at failed
    obtain never | ⟨_, _, ⟨⟩, failed⟩ := bind_eq_error_iff.mp failed
    · cases never
    obtain failed | ⟨place, u, placed, failed⟩ := bind_eq_error_iff.mp failed
    · exact Or.inr ⟨ref, rfl, failed⟩
    have kept : (keepDirty tx place.1).Ends u fun answer _ => answer = .ok () := by
      cases (placeRow_places h known tx row).of_ok placed with
      | found has seated => exact seated.keeps.mono fun _ _ kept => kept.1
      | foundBeyond room crowded there seated => exact seated.keeps.mono fun _ _ kept => kept.1
    obtain failed | ⟨_, _, -, never⟩ := bind_eq_error_iff.mp failed
    · cases kept.of_error failed
    · cases never

/-- A search fails for no reason of the pool's. If it comes to an empty page at all, it fails because the
transaction is kept from that page. -/
theorem Places.intact (h : s.Pooled) (known : s.catalog.ref i = .ok ref) {f : Failure}
    (places : Places tx ref row s (.error (.failed f)) t) :
    s.Intact tx t ∧ (∀ n, f.cause? ≠ some (.poolExhausted n)) ∧
      (t.catalog = s.catalog ∧ t.disk = s.disk ∨
        s.Enlarged ref t ∧ f = .ofCause (.aborted tx) ∧
          t.locks.acquire? (s.nextPage ref) tx .exclusive = none) := by
  generalize answer : Except.error (Stop.failed f) = a at places
  cases places with
  | crashed => cases answer
  | found has seated => cases answer
  | foundBeyond room crowded there seated => cases answer
  | unfit why =>
    cases answer
    refine ⟨.refl tx s, fun n exhausted => ?_, Or.inl ⟨rfl, rfl⟩⟩
    rcases why with rfl | ⟨detail, rfl⟩
    · cases exhausted
    · cases exhausted
  | denied inside looked denied =>
    cases answer
    refine ⟨looked.intact fun _ _ own => own.1, fun n exhausted => ?_, Or.inl ⟨looked.catalog, looked.disk⟩⟩
    cases exhausted
  | deniedBeyond room crowded looked denied =>
    cases answer
    refine ⟨looked.intact_appended h known fun _ _ own => own.1, fun n exhausted => ?_,
      Or.inr ⟨looked.enlarged h known room, rfl, denied⟩⟩
    cases exhausted

theorem insertRow_intact (h : s.Pooled) {f : Failure}
    (failed : insertRow tx i row s = .error (.failed f) t) :
    s.Intact tx t ∧ (∀ n, f.cause? ≠ some (.poolExhausted n)) ∧
      (∀ ref, s.catalog.ref i = .ok ref → placeRow ref tx row s = .error (.failed f) t) ∧
      (t.catalog = s.catalog ∧ t.disk = s.disk ∨ ∃ ref, s.catalog.ref i = .ok ref ∧ s.Enlarged ref t ∧
        f = .ofCause (.aborted tx) ∧ t.locks.acquire? (s.nextPage ref) tx .exclusive = none) := by
  obtain ⟨c, unknown, same, rfl⟩ | ⟨ref, known, unplaced⟩ := insertRow_eq_error h failed
  · cases same
    refine ⟨.refl tx t, fun n exhausted => ?_, fun ref known => ?_, Or.inl ⟨rfl, rfl⟩⟩
    · cases Catalog.eq_unknownTable unknown
      cases exhausted
    · rw [known] at unknown
      cases unknown
  · obtain ⟨intact, spared, files⟩ :=
      Places.intact h known ((placeRow_places h known tx row).of_error unplaced)
    refine ⟨intact, spared, fun ref' known' => ?_, files.imp_right fun grown => ⟨ref, known, grown⟩⟩
    cases Except.ok.inj (known.symm.trans known')
    exact unplaced

theorem Clears.intact {record : RecordId} {f : Failure}
    (clears : Clears tx ref record s (.error (.failed f)) t) :
    s.Intact tx t ∧ (∀ n, f.cause? ≠ some (.poolExhausted n)) ∧ t.catalog = s.catalog ∧ t.disk = s.disk := by
  have alone : ∀ u p, Locks.Only tx record.page u p → u = tx := fun _ _ own => own.1
  obtain never | ⟨rfl, why⟩ | ⟨looked, missing | ⟨has, why⟩⟩ := clears
  · cases never
  · refine ⟨.refl tx t, fun n exhausted => ?_, rfl, rfl⟩
    rcases why with why | why
    · cases why
      cases exhausted
    · cases why
      cases exhausted
  · refine ⟨looked.intact alone, fun n exhausted => ?_, looked.catalog, looked.disk⟩
    obtain never | ⟨g, same, cause⟩ := Catalog.cause_of_missing? missing
    · cases never
    · cases same
      rcases cause with cause | cause
      · cases cause.symm.trans exhausted
      · cases cause.symm.trans exhausted
  · cases why
    refine ⟨looked.intact alone, fun n exhausted => ?_, looked.catalog, looked.disk⟩
    cases exhausted

theorem deleteRow_intact (h : s.Pooled) {f : Failure} {record? : Option RecordId}
    (failed : deleteRow tx record? s = .error (.failed f) t) :
    s.Intact tx t ∧ (∀ n, f.cause? ≠ some (.poolExhausted n)) ∧ t.catalog = s.catalog ∧ t.disk = s.disk := by
  cases record? with
  | none =>
    cases failed
    refine ⟨.refl tx s, fun n exhausted => ?_, rfl, rfl⟩
    cases exhausted
  | some record =>
    unfold deleteRow at failed
    obtain never | ⟨_, _, ⟨⟩, failed⟩ := bind_eq_error_iff.mp failed
    · cases never
    cases known : s.catalog.ref record.page.table with
    | error c =>
      rw [known] at failed
      obtain failed | ⟨_, _, never, -⟩ := bind_eq_error_iff.mp failed
      · cases failed
        refine ⟨.refl tx s, fun n exhausted => ?_, rfl, rfl⟩
        cases Catalog.eq_unknownTable known
        cases exhausted
      · cases never
    | ok ref =>
      rw [known] at failed
      obtain never | ⟨_, _, ⟨⟩, failed⟩ := bind_eq_error_iff.mp failed
      · cases never
      obtain failed | ⟨r, u, cleared, failed⟩ := bind_eq_error_iff.mp failed
      · exact ((clearSlot_clears h ref tx record).of_error failed).intact
      · cases (((clearSlot_clears h ref tx record).of_ok cleared).keeps.of_error failed).1

/-- Storing and removing rows either succeeds or changes no data. The search for a place may have put an
empty page behind the others by then, but only if the transaction is kept from that very page. -/
theorem failures_change_no_data (ran : (Store.new settings disk).follow past = some s) (tx : TxId)
    (f : Failure) :
    (∀ i row t, insertRow tx i row s = .error (.failed f) t →
      s.Intact tx t ∧ (∀ n, f.cause? ≠ some (.poolExhausted n)) ∧
        (∀ ref, s.catalog.ref i = .ok ref → placeRow ref tx row s = .error (.failed f) t) ∧
        (t.catalog = s.catalog ∧ t.disk = s.disk ∨ ∃ ref, s.catalog.ref i = .ok ref ∧ s.Enlarged ref t ∧
          f = .ofCause (.aborted tx) ∧ t.locks.acquire? (s.nextPage ref) tx .exclusive = none)) ∧
    ∀ record? t, deleteRow tx record? s = .error (.failed f) t →
      s.Intact tx t ∧ (∀ n, f.cause? ≠ some (.poolExhausted n)) ∧
        t.catalog = s.catalog ∧ t.disk = s.disk := by
  have pooled : s.Pooled := (follow_pooled (pooled_new settings disk) ran).1
  constructor
  · intro i row t failed
    exact insertRow_intact pooled failed
  · intro record? t failed
    exact deleteRow_intact pooled failed

/-- Another transaction has asked for the first page of a table before there was one. -/
theorem failures_change_no_data_beyond :
    let schema : Schema := ⟨[⟨.integer, some "n"⟩]⟩
    let absent : Failure := (Failure.ofCause (.noSuchPage ⟨1, 0⟩)).within (.loading ⟨1, 0⟩)
    ∃ s t ref, (Store.new { pageSize := 16, poolPages := 1 }).follow
        [(.serve (.addTable (.create "odd" "odd" schema "n")), .ok .done),
          (.serve (.getPage 2 ⟨1, 0⟩ .shared), .error absent)] = some s ∧
      insertRow 1 1 ⟨schema, [.integer 7], none⟩ s = .error (.ofCause (.aborted 1)) t ∧
      s.Intact 1 t ∧ s.Enlarged ref t ∧ t.locks.acquire? (s.nextPage ref) 1 .exclusive = none := by
  intro schema absent
  have facts : ((Store.new { pageSize := 16, poolPages := 1 }).follow
      [(.serve (.addTable (.create "odd" "odd" schema "n")), .ok .done),
        (.serve (.getPage 2 ⟨1, 0⟩ .shared), .error absent)]).any (fun s =>
          ((insertRow 1 1 ⟨schema, [.integer 7], none⟩).told? s).any (fun told =>
            told.1 = .error (.ofCause (.aborted 1)) ∧ told.2.catalog ≠ s.catalog) = true) = true := by
    decide +kernel
  obtain ⟨s, ran, facts⟩ := exists_of_any facts
  obtain ⟨⟨answer, t⟩, told, rfl, grown⟩ := exists_of_any facts
  have failed := told?_eq_error_iff.mp told
  obtain ⟨intact, -, -, ⟨same, -⟩ | ⟨ref, -, enlarged, -, denied⟩⟩ :=
    (failures_change_no_data ran 1 _).1 _ _ _ failed
  · exact absurd same grown
  · exact ⟨s, t, ref, ran, failed, intact, enlarged, denied⟩

/-- Removing a row in vain makes the pool forget a clean page. That shows if the page is one of a table
that has lost its id to another, and if bytes were written to the page without saying so. A row that finds no
place makes a part of a page at the end of a file into an empty page. -/
theorem failures_change_data :
    let schema : Schema := ⟨[⟨.integer, some "n"⟩]⟩
    let file (bytes : Bytes) (length : Nat) : File := ⟨[⟨0, bytes⟩], length⟩
    let load (id : TableId) (path : String) : Request := .addTable (.loadWithId id path path schema "n" 16)
    let served (disk : Disk) (qs : List Request) : Option Store :=
      qs.foldlM serve (Store.new { pageSize := 16, poolPages := 1 } disk)
    let seven : Bytes := ⟨#[1, 0, 0, 0, 7]⟩
    let remove : Action Unit := deleteRow 1 (some ⟨⟨2, 0⟩, 0⟩)
    let failure : Failure := .ofCause (.noSuchRow ⟨⟨2, 0⟩, 0⟩)
    (∃ s t, served ⟨[("odd", file seven 16), ("even", ⟨[], 16⟩), ("more", ⟨[], 16⟩)]⟩
        [load 1 "odd", .getPage 1 ⟨1, 0⟩ .shared, load 1 "even", load 2 "more"] = some s ∧
      remove s = .error (.failed failure) t ∧ s.content ⟨1, 0⟩ ≠ t.content ⟨1, 0⟩) ∧
    (∃ s s' t, served ⟨[("odd", ⟨[], 16⟩), ("more", ⟨[], 16⟩)]⟩ [load 1 "odd", load 2 "more"] = some s ∧
      (do overwrite (← getPage 1 ⟨1, 0⟩ .exclusive) 0 seven) s = .ok () s' ∧
      remove s' = .error (.failed failure) t ∧ s'.content ⟨1, 0⟩ ≠ t.content ⟨1, 0⟩) ∧
    ∃ s t, served ⟨[("odd", file ⟨#[255, 255, 255, 255]⟩ 4)]⟩
        [load 1 "odd", .getPage 2 ⟨1, 0⟩ .shared] = some s ∧
      insertRow 1 1 ⟨schema, [.integer 7], none⟩ s = .error (.ofCause (.aborted 1)) t ∧
      (s.disk.get? "odd").map File.toBytes = some ⟨#[255, 255, 255, 255]⟩ ∧
      (t.disk.get? "odd").map File.toBytes = some (.zeros 16) := by
  intro schema file load served seven remove failure
  have renamed : (served ⟨[("odd", file seven 16), ("even", ⟨[], 16⟩), ("more", ⟨[], 16⟩)]⟩
      [load 1 "odd", .getPage 1 ⟨1, 0⟩ .shared, load 1 "even", load 2 "more"]).any (fun s =>
        (remove.told? s).any (fun told => told.1 = .error failure ∧
          s.content ⟨1, 0⟩ ≠ told.2.content ⟨1, 0⟩) = true) = true := by
    decide +kernel
  have unmarked : (served ⟨[("odd", ⟨[], 16⟩), ("more", ⟨[], 16⟩)]⟩ [load 1 "odd", load 2 "more"]).any (fun s =>
      (Action.told? (do overwrite (← getPage 1 ⟨1, 0⟩ .exclusive) 0 seven) s).any (fun written =>
        written.1 = .ok () ∧ (remove.told? written.2).any (fun told => told.1 = .error failure ∧
          written.2.content ⟨1, 0⟩ ≠ told.2.content ⟨1, 0⟩) = true) = true) = true := by
    decide +kernel
  have rest : (served ⟨[("odd", file ⟨#[255, 255, 255, 255]⟩ 4)]⟩
      [load 1 "odd", .getPage 2 ⟨1, 0⟩ .shared]).any (fun s =>
        ((insertRow 1 1 ⟨schema, [.integer 7], none⟩).told? s).any (fun told =>
          told.1 = .error (.ofCause (.aborted 1)) ∧
          (s.disk.get? "odd").map File.toBytes = some ⟨#[255, 255, 255, 255]⟩ ∧
          (told.2.disk.get? "odd").map File.toBytes = some (.zeros 16)) = true) = true := by
    decide +kernel
  refine ⟨?_, ?_, ?_⟩
  · obtain ⟨s, ran, found⟩ := exists_of_any renamed
    obtain ⟨⟨answer, t⟩, told, rfl, differs⟩ := exists_of_any found
    exact ⟨s, t, ran, told?_eq_error_iff.mp told, differs⟩
  · obtain ⟨s, ran, found⟩ := exists_of_any unmarked
    obtain ⟨⟨answer, s'⟩, written, rfl, found⟩ := exists_of_any found
    obtain ⟨⟨answer, t⟩, told, rfl, differs⟩ := exists_of_any found
    exact ⟨s, s', t, ran, told?_eq_ok_iff.mp written, told?_eq_error_iff.mp told, differs⟩
  · obtain ⟨s, ran, found⟩ := exists_of_any rest
    obtain ⟨⟨answer, t⟩, told, rfl, before, after⟩ := exists_of_any found
    exact ⟨s, t, ran, told?_eq_error_iff.mp told, before, after⟩

end Store
end HeapStore
