import HeapStore.Proofs.Calling
import HeapStore.Proofs.Visiting

/-! A scan that fails to get a page has passed it. It returns no row of this page until it starts over, and
the rows of all other pages, as far as its transaction changes nothing itself. -/
namespace HeapStore

/-- The scan, when it has asked for the next page. -/
def Scan.next (sc : Scan) : Scan := { sc with page := sc.page + 1 }

/-- The scan had the row left at `sc`, or has read it on its way to `sc'`. -/
def Scan.Meets (sc sc' : Scan) (row : Row) : Prop :=
  row ∈ sc.rest.getD [] ∨ ∃ n, sc.page < n ∧ n ≤ sc'.page ∧ row.OnPage n

/-- The scan has gone on from `sc` to `sc'`. -/
structure Scan.Onward (sc sc' : Scan) : Prop where
  table : sc'.table = sc.table
  tx : sc'.tx = sc.tx
  page : sc.page ≤ sc'.page
  rows : ∀ row ∈ sc'.rest.getD [], sc.Meets sc' row

theorem Scan.Onward.refl (sc : Scan) : sc.Onward sc := ⟨rfl, rfl, Nat.le_refl _, fun _ => Or.inl⟩

theorem Scan.Meets.later {sc sc' sc'' : Scan} {row : Row} (met : sc.Meets sc' row)
    (later : sc'.page ≤ sc''.page) : sc.Meets sc'' row := by
  refine met.imp_right ?_
  rintro ⟨n, after, before, there⟩
  exact ⟨n, after, Nat.le_trans before later, there⟩

theorem Scan.Onward.meets {sc sc' sc'' : Scan} {row : Row} (first : sc.Onward sc')
    (second : sc'.page ≤ sc''.page) (met : sc'.Meets sc'' row) : sc.Meets sc'' row := by
  rcases met with kept | ⟨n, after, before, there⟩
  · exact (first.rows row kept).later second
  · exact Or.inr ⟨n, Nat.lt_of_le_of_lt first.page after, before, there⟩

theorem Scan.Onward.trans {sc sc' sc'' : Scan} (first : sc.Onward sc') (second : sc'.Onward sc'') :
    sc.Onward sc'' where
  table := second.table.trans first.table
  tx := second.tx.trans first.tx
  page := Nat.le_trans first.page second.page
  rows row listed := first.meets second.page (second.rows row listed)

/-- The next page has been asked for, and perhaps its rows have been read. -/
theorem Scan.onward_next {sc : Scan} {rest : Option (List Row)}
    (read : ∀ row ∈ rest.getD [], row.OnPage sc.next.page) : sc.Onward { sc.next with rest } where
  table := rfl
  tx := rfl
  page := Nat.le_succ _
  rows row listed := Or.inr ⟨sc.next.page, Nat.lt_succ_self _, Nat.le_refl _, read row listed⟩

/-- What a scan has told, and what it has left to tell, is on pages up to the one that it has come to. The
pages that are `gone` are not among them. -/
structure Scan.Apart (told : List Row) (gone : List Nat) (sc : Scan) : Prop where
  ascending : gone.Pairwise (· < ·)
  behind : ∀ n ∈ gone, n ≤ sc.page
  others : ∀ row ∈ told ++ sc.rest.getD [], ∃ n ≤ sc.page, n ∉ gone ∧ row.OnPage n

theorem Scan.Apart.onward {sc sc' : Scan} {told more : List Row} {gone : List Nat} (h : sc.Apart told gone)
    (onward : sc.Onward sc') (meets : ∀ row ∈ more, sc.Meets sc' row) : sc'.Apart (told ++ more) gone where
  ascending := h.ascending
  behind n listed := Nat.le_trans (h.behind n listed) onward.page
  others row listed := by
    have known : ∀ row ∈ told ++ sc.rest.getD [], ∃ n ≤ sc'.page, n ∉ gone ∧ row.OnPage n := by
      intro row listed
      obtain ⟨n, before, other, there⟩ := h.others row listed
      exact ⟨n, Nat.le_trans before onward.page, other, there⟩
    have met : sc.Meets sc' row → ∃ n ≤ sc'.page, n ∉ gone ∧ row.OnPage n := by
      rintro (left | ⟨n, after, before, there⟩)
      · exact known row (List.mem_append_right _ left)
      · exact ⟨n, before, fun listed => absurd (h.behind n listed) (Nat.not_le_of_lt after), there⟩
    rw [List.append_assoc, List.mem_append, List.mem_append] at listed
    rcases listed with old | new | left
    · exact known row (List.mem_append_left _ old)
    · exact met (meets row new)
    · exact met (onward.rows row left)

/-- One page more is gone. -/
theorem Scan.Apart.stumble {sc sc' : Scan} {told : List Row} {gone : List Nat} (h : sc.Apart told gone)
    (later : sc.page < sc'.page) (used : sc'.rest = some []) : sc'.Apart told (gone ++ [sc'.page]) where
  ascending := by
    refine List.pairwise_append.mpr ⟨h.ascending, List.pairwise_singleton _ _, fun n listed m same => ?_⟩
    rw [List.mem_singleton.mp same]
    exact Nat.lt_of_le_of_lt (h.behind n listed) later
  behind n listed := by
    rcases List.mem_append.mp listed with old | new
    · exact Nat.le_of_lt (Nat.lt_of_le_of_lt (h.behind n old) later)
    · exact Nat.le_of_eq (List.mem_singleton.mp new)
  others row listed := by
    have told : row ∈ told ++ sc.rest.getD [] := by
      rw [used] at listed
      exact List.mem_append_left _ (by simpa using listed)
    obtain ⟨n, before, other, there⟩ := h.others row told
    have early := Nat.lt_of_le_of_lt before later
    refine ⟨n, Nat.le_of_lt early, fun listed => ?_, there⟩
    rcases List.mem_append.mp listed with old | new
    · exact other old
    · exact absurd (List.mem_singleton.mp new) (Nat.ne_of_lt early)

namespace Plain
variable {v : Plain} {ref : TableRef} {gone : List Nat} {told : List Row} {n : Nat}

/-- The rows on all pages of a table but some. -/
def rowsBut (v : Plain) (ref : TableRef) (gone : List Nat) : List Row :=
  ((List.range (v.catalog.table ref).pages).filter (· ∉ gone)).flatMap (v.rowsAt ref)

theorem rowsBut_eq (early : ∀ m ∈ gone, m < n) (inside : n ≤ (v.catalog.table ref).pages) :
    v.rowsBut ref gone = ((List.range n).filter (· ∉ gone)).flatMap (v.rowsAt ref) ++ v.rowsFrom ref n := by
  have parts : List.range' 0 n ++ List.range' (0 + n) ((v.catalog.table ref).pages - n) =
      List.range' 0 (n + ((v.catalog.table ref).pages - n)) := List.range'_append_1
  rw [Nat.zero_add, Nat.add_sub_cancel' inside, ← List.range_eq_range', ← List.range_eq_range'] at parts
  have later : (List.range' n ((v.catalog.table ref).pages - n)).filter (· ∉ gone) =
      List.range' n ((v.catalog.table ref).pages - n) := by
    refine List.filter_eq_self.mpr fun m listed => decide_eq_true fun behind => ?_
    exact absurd (early m behind) (Nat.not_lt_of_le (List.mem_range'_1.mp listed).1)
  rw [rowsBut, ← parts, List.filter_append, later, List.flatMap_append, rowsFrom]

theorem rowsBut_nil : v.rowsBut ref [] = v.rowsFrom ref 0 := by
  rw [rowsBut_eq (fun m listed => by cases listed) (Nat.zero_le _)]
  rfl

/-- Without the rows of one page more, the rest starts at the page after it. -/
theorem rowsBut_snoc (early : ∀ m ∈ gone, m < n) (inside : n < (v.catalog.table ref).pages)
    (same : told ++ v.rowsFrom ref n = v.rowsBut ref gone) :
    told ++ v.rowsFrom ref (n + 1) = v.rowsBut ref (gone ++ [n]) := by
  rw [rowsBut_eq early (Nat.le_of_lt inside)] at same
  have early' : ∀ m ∈ gone ++ [n], m < n + 1 := by
    intro m listed
    rcases List.mem_append.mp listed with old | new
    · exact Nat.lt_succ_of_lt (early m old)
    · exact Nat.lt_succ_of_le (Nat.le_of_eq (List.mem_singleton.mp new))
  have before : (List.range n).filter (· ∉ gone ++ [n]) = (List.range n).filter (· ∉ gone) := by
    refine List.filter_congr fun m listed => ?_
    have other : m ≠ n := Nat.ne_of_lt (List.mem_range.mp listed)
    simp [other]
  rw [rowsBut_eq early' inside, List.append_cancel_right same, List.range_succ, List.filter_append, before]
  simp

end Plain

namespace Store
open HeapStore.Action

variable {s t u : Store} {r : ScanRef} {sc : Scan} {f : Failure} {tx : TxId} {ref : TableRef} {fuel : Nat}

/-- The scan, which is one of the store, has gone on. -/
def Goes (r : ScanRef) (s t : Store) : Prop :=
  r < t.scans.size ∧ (s.scans.getD r default).Onward (t.scans.getD r default)

theorem Goes.refl (valid : r < s.scans.size) : s.Goes r s := ⟨valid, .refl _⟩

theorem Goes.trans (first : s.Goes r t) (second : t.Goes r u) : s.Goes r u :=
  ⟨second.1, first.2.trans second.2⟩

theorem goes_of_set {scans : Array Scan} (valid : r < scans.size) (same : t.scans = scans.setIfInBounds r sc)
    (onward : (s.scans.getD r default).Onward sc) : s.Goes r t := by
  unfold Goes
  rw [same, Plain.getD_setIfInBounds valid]
  exact ⟨by simpa using valid, onward⟩

/-- Rows are read from an image of the page, and no scan is moved. -/
theorem fetchRows_reads (sc : Scan) (number : Nat) : (fetchRows sc number).Ends s fun answer t =>
    t.scans = s.scans ∧ ∀ rows, answer = .ok rows → ∃ (table : Table) (bytes : Bytes),
      table.layout.rows? table.schema ⟨table.id, number⟩ bytes = some rows := by
  unfold fetchRows
  rw [ends_bind, ends_get, andThen, ends_bind]
  refine (sparing_getPage sc.tx ⟨(s.catalog.table sc.table).id, number⟩ .shared s).mono ?_
  rintro (e | h) t spares
  · exact ⟨spares.scans, fun _ never => by cases never⟩
  · rw [andThen, ends_bind, ends_page, andThen, ends_ofOption]
    exact ⟨spares.scans, fun rows told => ⟨_, _, orCrash_eq_ok_iff.mp told⟩⟩

theorem seek_goes (valid : r < s.scans.size) (fuel : Nat) :
    (seek r fuel).Ends s fun _ t => s.Goes r t := by
  induction fuel generalizing s with
  | zero => exact Goes.refl valid
  | succ fuel ih =>
    unfold seek
    rw [ends_bind, ends_scan, andThen]
    generalize at_r : s.scans.getD r default = here
    split
    · exact Goes.refl valid
    · exact Goes.refl valid
    · rename_i used
      rw [ends_bind]
      refine ends_pageCount _ _ (Goes.refl valid) ?_
      rw [andThen]
      split
      · exact Goes.refl valid
      · rw [ends_bind, ends_setScan, andThen, ends_bind]
        refine (fetchRows_reads _ _).mono ?_
        rintro (e | rows) t ⟨scans, read⟩
        · refine goes_of_set valid scans ?_
          rw [at_r]
          exact Scan.onward_next (by simp [used])
        · rw [andThen, ends_bind, ends_setScan, andThen]
          have size : r < t.scans.size := by rw [scans]; simpa using valid
          let seen : Scan := { here.next with rest := some rows }
          have turned : s.Goes r { t with scans := t.scans.setIfInBounds r seen } := by
            refine goes_of_set size rfl ?_
            rw [at_r]
            obtain ⟨_, _, told⟩ := read rows rfl
            exact Scan.onward_next (Table.onPage_of_rows? told)
          exact (ih turned.1).mono fun _ _ => turned.trans

theorem hasNext_goes (valid : r < s.scans.size) : (hasNext r).Ends s fun _ t => s.Goes r t := by
  unfold hasNext
  rw [ends_bind, ends_scan, andThen, ends_bind, ends_get, andThen]
  exact seek_goes valid _

/-- The row that is returned was left, or is on a page that comes later. -/
theorem nextRow_goes (valid : r < s.scans.size) : (nextRow r).Ends s fun answer t => s.Goes r t ∧
    ∀ row, answer = .ok row → (s.scans.getD r default).Meets (t.scans.getD r default) row := by
  unfold nextRow
  rw [ends_bind]
  refine (hasNext_goes valid).mono ?_
  rintro (e | more) t goes
  · exact ⟨goes, fun _ never => by cases never⟩
  · cases more with
    | false => exact ⟨goes, fun _ never => by cases never⟩
    | true =>
      rw [andThen, if_pos rfl, ends_bind, ends_scan, andThen]
      generalize at_r : t.scans.getD r default = here
      cases left : here.rest with
      | none => exact ⟨goes, fun _ never => by cases never⟩
      | some rest =>
        cases rest with
        | nil => exact ⟨goes, fun _ never => by cases never⟩
        | cons row rest =>
          have onward := goes.2
          rw [at_r] at onward
          have unread : here.rest.getD [] = row :: rest := by rw [left]; rfl
          have popped : here.Onward { here with rest := some rest } :=
            ⟨rfl, rfl, Nat.le_refl _, fun row' listed => Or.inl (unread ▸ List.mem_cons_of_mem _ listed)⟩
          refine ⟨goes_of_set goes.1 rfl (onward.trans popped), fun row' same => ?_⟩
          cases same
          dsimp only
          rw [Plain.getD_setIfInBounds goes.1]
          exact onward.rows row (unread ▸ List.mem_cons_self ..)

/-- The scan has used up the rows of its page, and the next page is not to be had. -/
structure Stumbles (r : ScanRef) (f : Failure) (s t : Store) : Prop where
  used : (s.scans.getD r default).rest = some []
  inside : (s.scans.getD r default).next.page < (s.catalog.table (s.scans.getD r default).table).pages
  failed : getPage (s.scans.getD r default).tx
    ⟨(s.catalog.table (s.scans.getD r default).table).id, (s.scans.getD r default).next.page⟩ .shared
    { s with scans := s.scans.setIfInBounds r (s.scans.getD r default).next } = .error (.failed f) t

/-- The page counts as passed, and its rows as used up. -/
theorem Stumbles.now (h : s.Stumbles r f t) (valid : r < s.scans.size) :
    t.scans.getD r default = (s.scans.getD r default).next := by
  have spares := sparing_getPage (s.scans.getD r default).tx
    ⟨(s.catalog.table (s.scans.getD r default).table).id, (s.scans.getD r default).next.page⟩ .shared
    { s with scans := s.scans.setIfInBounds r (s.scans.getD r default).next }
  rw [(spares.of_error h.failed).scans]
  exact Plain.getD_setIfInBounds valid _

theorem fetchRows_eq_error {number : Nat} (failed : fetchRows sc number s = .error (.failed f) t) :
    getPage sc.tx ⟨(s.catalog.table sc.table).id, number⟩ .shared s = .error (.failed f) t := by
  obtain never | ⟨_, _, got, failed⟩ := bind_eq_error_iff.mp failed
  · cases never
  cases got
  obtain denied | ⟨h, u, -, failed⟩ := bind_eq_error_iff.mp failed
  · exact denied
  obtain never | ⟨_, _, got, failed⟩ := bind_eq_error_iff.mp failed
  · cases never
  cases got
  generalize Layout.rows? .. = rows at failed
  cases rows <;> cases failed

theorem pageCount_ne_failed : pageCount sc s ≠ .error (.failed f) t := by
  have ends : (pageCount sc).Ends s fun answer _ => answer ≠ .error (.failed f) :=
    ends_pageCount _ _ (by simp) (by simp)
  exact fun failed => ends.of_error failed rfl

/-- A scan that has rows left or is closed stays where it is. -/
theorem seek_stays (left : (s.scans.getD r default).rest ≠ some []) (fuel : Nat) :
    ∃ more, seek r fuel s = .ok more s := by
  cases fuel with
  | zero => exact ⟨false, rfl⟩
  | succ fuel =>
    have ends : ∃ more, (seek r (fuel + 1)).Ends s fun answer t => answer = .ok more ∧ t = s := by
      unfold seek
      simp only [ends_bind, ends_scan, andThen]
      generalize s.scans.getD r default = here at left
      cases unread : here.rest with
      | none => exact ⟨false, rfl, rfl⟩
      | some rest =>
        cases rest with
        | nil => exact absurd unread left
        | cons row rest => exact ⟨true, rfl, rfl⟩
    obtain ⟨more, ends⟩ := ends
    obtain ⟨t, ended, rfl⟩ := ends.exists_ok
    exact ⟨more, ended⟩

/-- A scan that has used up the rows of its page goes on to the next one, if there is one. -/
theorem seek_used (used : (s.scans.getD r default).rest = some []) (fuel : Nat) : seek r (fuel + 1) s =
    (do
      let here := s.scans.getD r default
      if (← pageCount here) ≤ here.page + 1 then return false
      else
        setScan r here.next
        setScan r { here.next with rest := some (← fetchRows here.next here.next.page) }
        seek r fuel) s := by
  have read : scan r s = .ok (s.scans.getD r default) s := rfl
  rw [seek]
  simp only [bind, EStateM.bind, read]
  generalize s.scans.getD r default = here at used ⊢
  obtain ⟨table, tx, page, rest⟩ := here
  cases used
  rfl

/-- A search that fails has passed pages without rows before, as it would have with less fuel. -/
theorem seek_stumbles (failed : seek r fuel s = .error (.failed f) t) :
    ∃ fuel' u, seek r fuel' s = .ok false u ∧ u.Stumbles r f t := by
  induction fuel generalizing s with
  | zero => cases failed
  | succ fuel ih =>
    by_cases used : (s.scans.getD r default).rest = some []
    · rw [seek_used used] at failed
      obtain never | ⟨n, s', counted, failed⟩ := bind_eq_error_iff.mp failed
      · exact absurd never pageCount_ne_failed
      obtain ⟨count, rfl⟩ : n = _ ∧ s' = s := (pageCount_returns _).of_ok counted
      split at failed
      · cases failed
      · rename_i more
        obtain never | ⟨_, _, set, failed⟩ := bind_eq_error_iff.mp failed
        · cases never
        cases set
        obtain missed | ⟨rows, u, fetched, failed⟩ := bind_eq_error_iff.mp failed
        · exact ⟨0, s', rfl, used, count ▸ Nat.lt_of_not_le more, fetchRows_eq_error missed⟩
        · obtain never | ⟨_, _, set, failed⟩ := bind_eq_error_iff.mp failed
          · cases never
          cases set
          obtain ⟨fuel', v, ended, stumbles⟩ := ih failed
          refine ⟨fuel' + 1, v, ?_, stumbles⟩
          rw [seek_used used]
          refine bind_eq_ok_iff.mpr ⟨n, s', counted, ?_⟩
          rw [if_neg more]
          refine bind_eq_ok_iff.mpr ⟨(), _, rfl, ?_⟩
          refine bind_eq_ok_iff.mpr ⟨rows, u, fetched, ?_⟩
          exact bind_eq_ok_iff.mpr ⟨(), _, rfl, ended⟩
    · obtain ⟨more, stays⟩ := seek_stays used (fuel + 1)
      cases failed.symm.trans stays

theorem loadable_ne_noMoreRows (s : Store) (id : PageId) : s.loadable id ≠ .error (.ofCause .noMoreRows) := by
  intro failed
  unfold loadable at failed
  cases known : s.catalog.byId id.table with
  | error c =>
    rw [known, Catalog.eq_unknownTable_of_byId known] at failed
    cases failed
  | ok t =>
    rw [known] at failed
    dsimp only at failed
    unfold Action.inside at failed
    split at failed
    · -- what was being done at the time is part of the failure
      simp [Stop.ofCause, Failure.ofCause, Failure.within] at failed
    · rename_i other
      exact other _ failed

/-- Only a scan says that there are no more rows. -/
theorem getPage_ne_noMoreRows (h : s.Guarded) {id : PageId} {mode : LockMode} :
    getPage tx id mode s ≠ .error (.ofCause .noMoreRows) t := by
  have ends : (getPage tx id mode).Ends s fun answer _ => answer ≠ .error (.ofCause .noMoreRows) := by
    unfold getPage
    rw [ends_bind, ends_lock]
    split
    · split
      · rename_i locks granted
        have sound : ({ s with locks } : Store).pool.Sound := h.pool
        rw [andThen, ends_bind]
        refine (fetch_ends sound id true).mono ?_
        rintro (e | page) u fetched
        · cases fetched with
          | exhausted =>
            intro never
            cases never
          | missing _ _ _ unreadable =>
            intro same
            cases same
            exact loadable_ne_noMoreRows _ _ unreadable
        · exact fun never => by cases never
      · exact fun never => by cases never
    · exact fun never => by cases never
  exact fun failed => ends.of_error failed rfl

/-- How a scan fails that was asked for a row: none is left, or it stumbles over a page. -/
def Fails (r : ScanRef) (f : Failure) (s t : Store) : Prop :=
  ∃ fuel more u, seek r fuel s = .ok more u ∧ (f = .ofCause .noMoreRows ∧ t = u ∨
    f ≠ .ofCause .noMoreRows ∧ u.Stumbles r f t)

theorem hasNext_fails (h : s.Guarded) (failed : hasNext r s = .error (.failed f) t) : s.Fails r f t := by
  obtain ⟨fuel, u, ended, stumbles⟩ := seek_stumbles failed
  have guarded : u.Guarded := (((looking_seek r fuel s).of_ok ended).resolve_left (by simp) h).guarded
  refine ⟨fuel, false, u, ended, Or.inr ⟨?_, stumbles⟩⟩
  rintro rfl
  refine getPage_ne_noMoreRows ?_ stumbles.failed
  exact (looks_of_scans u _ guarded).guarded

theorem nextRow_fails (h : s.Guarded) (failed : nextRow r s = .error (.failed f) t) : s.Fails r f t := by
  obtain failed | ⟨more, u, ended, failed⟩ := bind_eq_error_iff.mp failed
  · exact hasNext_fails h failed
  · refine ⟨_, more, u, ended, Or.inl ?_⟩
    cases more with
    | false =>
      cases failed
      exact ⟨rfl, rfl⟩
    | true =>
      obtain never | ⟨_, _, read, failed⟩ := bind_eq_error_iff.mp failed
      · cases never
      cases read
      generalize u.scans.getD r default = here at failed
      cases left : here.rest with
      | none =>
        rw [left] at failed
        cases failed
        exact ⟨rfl, rfl⟩
      | some rest =>
        rw [left] at failed
        cases rest with
        | nil =>
          cases failed
          exact ⟨rfl, rfl⟩
        | cons row rest =>
          obtain never | ⟨_, _, set, never⟩ := bind_eq_error_iff.mp failed
          · cases never
          · cases set
            cases never

theorem seek_view {more : Bool} (h : s.Coherent) (ended : seek r fuel s = .ok more t) :
    Plain.seek r fuel s.view = .ok more t.view := by
  have follows : Follows True (s.scans.getD r default).tx s (Plain.seek r fuel) Same (.ok more) t :=
    (seek_follows h r (fun _ => trivial) fuel).of_ok ended
  obtain ⟨-, e, never, -⟩ | follows := follows
  · cases never
  cases plain : Plain.seek r fuel s.view with
  | error e v =>
    rw [plain] at follows
    cases follows.1
  | ok b v =>
    rw [plain] at follows
    obtain ⟨a, u, same, -, rfl, rfl, rfl⟩ := follows
    cases same
    rfl

variable {w : Plain} {rows : List Row}

/-- Nothing is left but the rows from the page on that is not to be had, and then those after it. -/
theorem Stumbles.ahead {more : Bool} (h : s.Coherent) (ended : seek r fuel s = .ok more u)
    (stumbles : u.Stumbles r f t) (reads : s.view.Reads r { table := ref, tx })
    (shows : Plain.Shows tx ref s.view t.view w) (left : w.ahead (s.scans.getD r default) = some rows) :
    rows = w.rowsFrom ref (t.scans.getD r default).page ∧
      w.ahead (t.scans.getD r default) = some (w.rowsFrom ref ((t.scans.getD r default).page + 1)) := by
  have leaves := ((looking_seek r fuel s).of_ok ended).resolve_left (by simp) h.guarded
  have asked := looks_of_scans u (u.scans.setIfInBounds r (u.scans.getD r default).next) leaves.guarded
  have denied := ((looking_getPage _ _ _ _).of_error stumbles.failed).resolve_left (by simp) asked.guarded
  have earlier : Plain.Shows tx ref s.view u.view w := by
    refine ⟨shows.known, shows.table, fun n mode held => shows.agree n mode (denied.locks _ _ _ held), ?_⟩
    have same : t.view.catalog = u.view.catalog := denied.same
    exact same ▸ shows.blank
  obtain ⟨ahead, table, -⟩ := Plain.seek_ahead earlier reads left (seek_view h ended)
  have now := stumbles.now ((seek_goes reads.1 fuel).of_ok ended).1
  change w.ahead (u.scans.getD r default) = some rows at ahead
  change (u.scans.getD r default).table = ref at table
  rw [Plain.ahead, stumbles.used, table] at ahead
  cases ahead
  rw [now]
  refine ⟨rfl, ?_⟩
  have used : (u.scans.getD r default).next.rest = some [] := stumbles.used
  have table : (u.scans.getD r default).next.table = ref := table
  rw [Plain.ahead, used, table]
  rfl

end Store

theorem ScanStep.perform_fails {s t : Store} {r : ScanRef} {f : Failure} {st : ScanStep} (h : s.Guarded)
    (asks : st.asks = true) (failed : st.perform r s = .error (.failed f) t) : s.Fails r f t := by
  cases st with
  | hasNext =>
    obtain failed | ⟨_, _, -, never⟩ := Action.bind_eq_error_iff.mp failed
    · exact Store.hasNext_fails h failed
    · cases never
  | next =>
    obtain failed | ⟨_, _, -, never⟩ := Action.bind_eq_error_iff.mp failed
    · exact Store.nextRow_fails h failed
    · cases never
  | start | close | restart => cases asks

/-- The step of a scan that asks for rows makes it go on. -/
theorem ScanStep.perform_goes {s : Store} {r : ScanRef} {st : ScanStep} (valid : r < s.scans.size)
    (asks : st.asks = true) : (st.perform r).Ends s fun answer t => s.Goes r t ∧
      ∀ row, answer = .ok (.row row) → (s.scans.getD r default).Meets (t.scans.getD r default) row := by
  cases st with
  | hasNext =>
    unfold perform
    rw [Action.ends_bind]
    refine (Store.hasNext_goes valid).mono ?_
    rintro (e | more) t goes
    · exact ⟨goes, fun _ never => by cases never⟩
    · exact ⟨goes, fun _ never => by cases never⟩
  | next =>
    unfold perform
    rw [Action.ends_bind]
    refine (Store.nextRow_goes valid).mono ?_
    rintro (e | row) t ⟨goes, meets⟩
    · exact ⟨goes, fun _ never => by cases never⟩
    · refine ⟨goes, fun row' same => ?_⟩
      cases same
      exact meets row rfl
  | start | close | restart => cases asks

namespace Session
open Store

variable {M P S : Session} {past es : List Event} {e : Event} {reply : Reply} {s : Store}
  {settings : Settings} {disk : Disk} {tx : TxId} {k r : Nat} {ref : TableRef} {st : ScanStep}
  {told : List Row} {gone : List Nat} {f : Failure} {a : Answer}

/-- The step has failed, and not because there were no more rows. -/
def stumbled : Reply → Bool
  | .error f => f ≠ .ofCause .noMoreRows
  | .ok _ => false

/-- The page that an event makes scan `k` of a transaction ask for in vain. -/
def skips (S : Session) (tx : TxId) (k : Nat) : Event → List Nat
  | .op u (.iterate j st) =>
    if u = tx ∧ j = k then
      match S.outcome? (.op tx (.iterate k st)), S.used? (.op tx (.iterate k .start)) with
      | some (reply, s), some r => if stumbled reply then [(s.scans.getD r default).page] else []
      | _, _ => []
    else []
  | _ => []

/-- The pages that scan `k` of a transaction asks for in vain in a run. -/
def skipped (S : Session) (tx : TxId) (k : Nat) (es : List Event) : List Nat :=
  (S.trace es).flatMap fun step => step.1.skips tx k step.2.1

theorem skipped_cons (next : P.outcome? e = some (reply, s)) : P.skipped tx k (e :: es) =
    P.skips tx k e ++ (P.after e reply s).skipped tx k es := by
  rw [skipped, trace_cons next, List.flatMap_cons, skipped]

theorem skips_other (other : ∀ st, e ≠ .op tx (.iterate k st)) : P.skips tx k e = [] := by
  unfold skips
  split
  · rw [if_neg]
    rintro ⟨rfl, rfl⟩
    exact other _ rfl
  · rfl

theorem skips_own (used : P.used? (.op tx (.iterate k .start)) = some r)
    (next : P.outcome? (.op tx (.iterate k st)) = some (reply, s)) :
    P.skips tx k (.op tx (.iterate k st)) =
      if stumbled reply then [(s.scans.getD r default).page] else [] := by
  simp only [skips, and_self, if_true, next, used]

/-- The row that a reply tells. -/
def rowIn : Reply → List Row
  | .ok (.row row) => [row]
  | _ => []

/-- The rows that steps of a scan were told. -/
def rowsIn (steps : List (ScanStep × Reply)) : List Row := steps.flatMap fun step => rowIn step.2

/-- The scan has told some rows, and has asked in vain for some pages. -/
structure Passes (tx : TxId) (k r : Nat) (ref : TableRef) (told : List Row) (gone : List Nat)
    (P : Session) : Prop extends Scans tx k r ref P where
  apart : (P.store.scans.getD r default).Apart told gone

theorem Scans.fails (h : Scans tx k r ref P) (guarded : P.store.Guarded) (asks : st.asks = true)
    (failed : P.outcome? (.op tx (.iterate k st)) = some (.error f, s)) : P.store.Fails r f s :=
  ScanStep.perform_fails guarded asks (settle_eq_error_iff.mp (settled_of_iterate failed h.used))

/-- A step that fails to get a page has come to this one and has nothing left of it. -/
theorem Scans.stumbles (h : Scans tx k r ref P) (guarded : P.store.Guarded) (assigned : P.Assigned)
    (asks : st.asks = true)
    (failed : P.outcome? (.op tx (.iterate k st)) = some (.error f, s)) (other : f ≠ .ofCause .noMoreRows) :
    (P.store.scans.getD r default).rest = some [] ∧
      ∃ n u, (P.store.scans.getD r default).page < n ∧ n < (P.store.catalog.table ref).pages ∧
        s.scans.getD r default = { table := ref, tx, page := n, rest := some [] } ∧
        getPage tx ⟨(P.store.catalog.table ref).id, n⟩ .shared u = .error (.failed f) s := by
  obtain ⟨fuel, more, u, ended, never | ⟨-, stumbles⟩⟩ := h.fails guarded asks failed
  · exact absurd never.1 other
  obtain ⟨valid, table, mover⟩ := h.reads assigned
  obtain ⟨valid', onward⟩ := (seek_goes valid fuel).of_ok ended
  have catalog : u.catalog = P.store.catalog :=
    (((looking_seek r fuel P.store).of_ok ended).resolve_left (by simp) guarded).same
  have used : (P.store.scans.getD r default).rest = some [] := by
    by_contra left
    obtain ⟨more', stays⟩ := seek_stays left fuel
    cases ended.symm.trans stays
    exact left stumbles.used
  have now := stumbles.now valid'
  obtain ⟨used', inside, denied⟩ := stumbles
  have table : (u.scans.getD r default).table = ref := onward.table.trans table.symm
  have mover : (u.scans.getD r default).tx = tx := onward.tx.trans mover.symm
  rw [table, catalog] at inside denied
  rw [mover] at denied
  refine ⟨used, (u.scans.getD r default).next.page, _, Nat.lt_succ_of_le onward.page, inside, ?_, denied⟩
  rw [now]
  unfold Scan.next
  rw [used', table, mover]

theorem Passes.other (assigned : P.Assigned) (old : tx < P.store.nextTx)
    (h : Passes tx k r ref told gone P) (next : P.outcome? e = some (reply, s))
    (other : ∀ st, e ≠ .op tx (.iterate k st)) :
    Passes tx k r ref told (gone ++ P.skips tx k e) (P.after e reply s) := by
  have same : s.scans.getD r default = P.store.scans.getD r default := by
    refine (assigned.sparse next).others r (h.reads assigned).1 fun same => ?_
    obtain ⟨st, rfl⟩ := iterates_of_used assigned h.used same
    exact other st rfl
  rw [skips_other other, List.append_nil]
  exact ⟨h.toScans.after assigned old next, same.symm ▸ h.apart⟩

theorem Passes.asks (guarded : P.store.Guarded) (assigned : P.Assigned) (old : tx < P.store.nextTx)
    (h : Passes tx k r ref told gone P) (asks : st.asks = true)
    (next : P.outcome? (.op tx (.iterate k st)) = some (reply, s)) :
    Passes tx k r ref (told ++ rowIn reply) (gone ++ P.skips tx k (.op tx (.iterate k st)))
      (P.after (.op tx (.iterate k st)) reply s) := by
  refine ⟨h.toScans.after assigned old next, ?_⟩
  rw [skips_own h.used next]
  by_cases fails : stumbled reply = true
  · cases reply with
    | ok a => cases fails
    | error f =>
      obtain ⟨-, n, u, later, -, now, -⟩ :=
        h.toScans.stumbles guarded assigned asks next (of_decide_eq_true fails)
      have none : rowIn (.error f) = [] := rfl
      rw [if_pos fails, none, List.append_nil]
      exact h.apart.stumble (now ▸ later) (by rw [now])
  · obtain ⟨⟨-, onward⟩, meets⟩ := settle_eq_some (ScanStep.perform_goes (h.reads assigned).1 asks)
      (settled_of_iterate next h.used)
    rw [if_neg fails, List.append_nil]
    refine h.apart.onward onward fun row listed => ?_
    unfold rowIn at listed
    split at listed
    · rw [List.mem_singleton.mp listed]
      exact meets _ rfl
    · cases listed

theorem rowsIn_own (next : P.outcome? (.op tx (.iterate k st)) = some (reply, s)) :
    rowsIn (scanSteps tx k (P.trace (.op tx (.iterate k st) :: es))) =
      rowIn reply ++ rowsIn (scanSteps tx k ((P.after (.op tx (.iterate k st)) reply s).trace es)) := by
  rw [scanSteps_own next, rowsIn, List.flatMap_cons, rowsIn]

theorem Passes.run (ran : (start (Store.new settings disk)).run past = some P)
    (h : Passes tx k r ref told gone P) (ran' : P.run es = some S)
    (asks : ∀ step ∈ scanSteps tx k (P.trace es), step.1.asks = true) :
    Passes tx k r ref (told ++ rowsIn (scanSteps tx k (P.trace es))) (gone ++ P.skipped tx k es) S := by
  induction es generalizing P told gone past with
  | nil =>
    cases ran'
    simpa [skipped, trace, scanSteps, rowsIn] using h
  | cons e es ih =>
    obtain ⟨Q, stepped, ran'⟩ := Option.bind_eq_some_iff.mp ((run_cons P e es).symm.trans ran')
    have whole := run_snoc ran stepped
    obtain ⟨reply, s, next, rfl⟩ := outcome?_of_step stepped
    have assigned := assigned_run ran
    have old : tx < P.store.nextTx := by
      obtain ⟨c, client, -⟩ := used?_iterate_iff.mp h.used
      exact (accounted_run ran).started tx c client
    rw [skipped_cons next, ← List.append_assoc]
    by_cases own : ∃ st, e = .op tx (.iterate k st)
    · obtain ⟨st, rfl⟩ := own
      rw [rowsIn_own next, ← List.append_assoc]
      rw [scanSteps_own next] at asks
      have asked := h.asks (isolated_run ran).guarded assigned old (asks _ (List.mem_cons_self ..)) next
      exact ih whole asked ran' fun step listed => asks step (List.mem_cons_of_mem _ listed)
    · have other : ∀ st, e ≠ .op tx (.iterate k st) := fun st same => own ⟨st, same⟩
      rw [scanSteps_other next other] at asks ⊢
      exact ih whole (h.other assigned old next other) ran' asks

/-- Besides, what it has told and what it has left are all rows but those of the pages that are gone, if `w`
shows what is on the pages before it. -/
structure Spends (tx : TxId) (k r : Nat) (ref : TableRef) (told : List Row) (gone : List Nat) (P : Session)
    (w : Plain) : Prop extends Passes tx k r ref told gone P where
  spends : ∃ left, Underway tx k r ref left P w ∧ told ++ left = w.rowsBut ref gone

variable {w : Plain} {left : List Row}

/-- A step that fails costs the rows of the page that was not to be had, and no others. -/
theorem Underway.fails (h : Underway tx k r ref left P w) (steady : Steady settings P)
    (old : tx < P.store.nextTx) (asks : st.asks = true)
    (failed : P.outcome? (.op tx (.iterate k st)) = some (.error f, s))
    (shows : Plain.Shows tx ref P.store.view s.view w) : ∃ left',
      Underway tx k r ref left' (P.after (.op tx (.iterate k st)) (.error f) s) w ∧
      (f = .ofCause .noMoreRows ∧ left' = left ∨ f ≠ .ofCause .noMoreRows ∧
        left = w.rowsFrom ref (s.scans.getD r default).page ∧
        left' = w.rowsFrom ref ((s.scans.getD r default).page + 1)) := by
  have scans := h.toScans.after steady.assigned old failed
  have reads := h.reads steady.assigned
  obtain ⟨fuel, more, u, ended, ⟨rfl, rfl⟩ | ⟨other, stumbles⟩⟩ := h.toScans.fails steady.guarded asks failed
  · obtain ⟨ahead, -, -⟩ := Plain.seek_ahead shows reads h.left (seek_view steady.coherent ended)
    exact ⟨left, ⟨scans, ahead⟩, Or.inl ⟨rfl, rfl⟩⟩
  · obtain ⟨same, ahead⟩ := stumbles.ahead steady.coherent ended reads shows h.left
    exact ⟨_, ⟨scans, ahead⟩, Or.inr ⟨other, same, rfl⟩⟩

theorem Spends.other (h : Spends tx k r ref told gone P w) (steady : Steady settings P)
    (old : tx < P.store.nextTx) (next : P.outcome? e = some (reply, s))
    (other : ∀ st, e ≠ .op tx (.iterate k st)) :
    Spends tx k r ref told (gone ++ P.skips tx k e) (P.after e reply s) w := by
  obtain ⟨left, underway, same⟩ := h.spends
  have passes := h.toPasses.other steady.assigned old next other
  rw [skips_other other, List.append_nil] at passes ⊢
  exact ⟨passes, left, underway.other steady old next other, same⟩

theorem Spends.asks (h : Spends tx k r ref told gone P w) (steady : Steady settings P)
    (old : tx < P.store.nextTx) (asks : st.asks = true)
    (next : P.outcome? (.op tx (.iterate k st)) = some (reply, s))
    (shows : Plain.Shows tx ref P.store.view s.view w)
    (pages : (w.catalog.table ref).pages = (P.store.catalog.table ref).pages) :
    Spends tx k r ref (told ++ rowIn reply) (gone ++ P.skips tx k (.op tx (.iterate k st)))
      (P.after (.op tx (.iterate k st)) reply s) w := by
  obtain ⟨left, underway, same⟩ := h.spends
  refine ⟨h.toPasses.asks steady.guarded steady.assigned old asks next, ?_⟩
  rw [skips_own h.used next]
  cases reply with
  | ok a =>
    have answered := settle_eq_ok_iff.mp (settled_of_iterate next h.used)
    cases st with
    | hasNext =>
      obtain ⟨more, u, -, told⟩ := Action.bind_eq_ok_iff.mp answered
      cases told
      obtain ⟨-, onward⟩ := underway.hasNext steady old next shows
      exact ⟨left, onward, by simpa [rowIn, stumbled] using same⟩
    | next =>
      obtain ⟨row, u, -, told⟩ := Action.bind_eq_ok_iff.mp answered
      cases told
      obtain ⟨left', rfl, onward⟩ := underway.next steady old next shows
      exact ⟨left', onward, by simpa [rowIn, stumbled] using same⟩
    | start | close | restart => cases asks
  | error f =>
    have none : rowIn (.error f) = [] := rfl
    rw [none, List.append_nil]
    obtain ⟨left', onward, ⟨rfl, rfl⟩ | ⟨other, rfl, rfl⟩⟩ := underway.fails steady old asks next shows
    · exact ⟨left', onward, by simpa [stumbled] using same⟩
    · obtain ⟨-, n, u, later, inside, now, -⟩ :=
        h.toScans.stumbles steady.guarded steady.assigned asks next other
      have fails : stumbled (.error f) = true := decide_eq_true other
      rw [if_pos fails]
      refine ⟨_, onward, Plain.rowsBut_snoc (fun m listed => ?_) ?_ same⟩
      · rw [now]
        exact Nat.lt_of_le_of_lt (h.apart.behind m listed) later
      · rw [now, pages]
        exact inside

/-- A scan that is opened has read the first page of its table, if there is one. -/
theorem Scans.passes (h : Scans tx k r ref P) (guarded : P.store.Guarded) (assigned : P.Assigned)
    (old : tx < P.store.nextTx) (opens : st = .start ∨ st = .restart)
    (opened : P.outcome? (.op tx (.iterate k st)) = some (.ok a, s)) :
    Passes tx k r ref [] [] (P.after (.op tx (.iterate k st)) (.ok a) s) := by
  have touring := visits_of_iterate h.used opened
    (ScanStep.visits_opens guarded (h.reads assigned).1 h.table opens)
  obtain ⟨rest, unread, there⟩ := touring.rest
  refine ⟨h.after assigned old opened, .nil, by simp, fun row listed => ?_⟩
  refine ⟨_, Nat.le_refl _, List.not_mem_nil, there row ?_⟩
  have same : (s.scans.getD r default).rest.getD [] = rest := by rw [unread]; rfl
  exact same ▸ listed

theorem Spends.run {Q : Session} {later : List Event} (h : Spends tx k r ref told gone P S.store.view)
    (held : P.store.locks.Held tx ⟨(P.store.catalog.table ref).id, 0⟩ .shared)
    (reading : Reading tx ref (es ++ later) P S) (orderly : Orderly settings P) (ran : P.run es = some Q)
    (asks : ∀ step ∈ scanSteps tx k (P.trace es), step.1.asks = true) :
    Spends tx k r ref (told ++ rowsIn (scanSteps tx k (P.trace es))) (gone ++ P.skipped tx k es) Q
        S.store.view ∧
      Q.store.locks.Held tx ⟨(Q.store.catalog.table ref).id, 0⟩ .shared := by
  induction es generalizing P told gone with
  | nil =>
    cases ran
    exact ⟨by simpa [skipped, trace, scanSteps, rowsIn] using h, held⟩
  | cons e es ih =>
    have reading : Reading tx ref (e :: (es ++ later)) P S := reading
    obtain ⟨reply, s, along⟩ := reading.along orderly
    have pages := reading.pages_run orderly held
    have held := held_of_step orderly.guarded along.told along.running held
    have held' := along.key.symm ▸ held
    rw [run_cons, step_of_outcome? along.told] at ran
    rw [skipped_cons along.told, ← List.append_assoc]
    by_cases own : ∃ st, e = .op tx (.iterate k st)
    · obtain ⟨st, rfl⟩ := own
      rw [rowsIn_own along.told, ← List.append_assoc]
      rw [scanSteps_own along.told] at asks
      have shows := along.shows (orderly.toSteady.keeps along.told rfl rfl) held
      have spends :=
        h.asks orderly.toSteady reading.old (asks _ (List.mem_cons_self ..)) along.told shows pages
      exact ih spends held' along.later along.after ran
        fun step listed => asks step (List.mem_cons_of_mem _ listed)
    · have other : ∀ st, e ≠ .op tx (.iterate k st) := fun st same => own ⟨st, same⟩
      rw [scanSteps_other along.told other] at asks ⊢
      have spends := h.other orderly.toSteady reading.old along.told other
      exact ih spends held' along.later along.after ran asks

/-- A full scan of a transaction that only reads tells all rows but those of the pages that it could not get. -/
theorem Scans.tells_but {t : Store} (h : Scans tx k r ref M) (orderly : Orderly settings M)
    (opens : st = .start ∨ st = .restart)
    (opened : M.outcome? (.op tx (.iterate k st)) = some (.ok a, s))
    (reading : Reading tx ref (.op tx (.iterate k st) :: (es ++ [.op tx (.iterate k .hasNext)])) M
      (S.after (.op tx (.iterate k .hasNext)) (.ok (.more false)) t))
    (ran : (M.after (.op tx (.iterate k st)) (.ok a) s).run es = some S)
    (asks : ∀ step ∈ scanSteps tx k ((M.after (.op tx (.iterate k st)) (.ok a) s).trace es), step.1.asks = true)
    (last : S.outcome? (.op tx (.iterate k .hasNext)) = some (.ok (.more false), t)) :
    rowsIn (scanSteps tx k ((M.after (.op tx (.iterate k st)) (.ok a) s).trace es)) =
      t.view.rowsBut ref ((M.after (.op tx (.iterate k st)) (.ok a) s).skipped tx k es) := by
  obtain ⟨reply, s', along⟩ := reading.along orderly
  cases along.told.symm.trans opened
  have held := along.opened h opens
  have underway := h.opens orderly.toSteady reading.old opened (along.scans h held) opens
  have spends : Spends tx k r ref [] [] (M.after (.op tx (.iterate k st)) (.ok a) s) t.view :=
    ⟨h.passes orderly.guarded orderly.assigned reading.old opens opened, _, underway,
      Plain.rowsBut_nil.symm⟩
  obtain ⟨spends, held⟩ := spends.run (along.key.symm ▸ held) along.later along.after ran asks
  obtain ⟨reading, orderly⟩ := along.later.run along.after ran
  obtain ⟨reply, s'', along⟩ := reading.along orderly
  cases along.told.symm.trans last
  have held := held_of_step orderly.guarded along.told along.running held
  obtain ⟨left, underway, same⟩ := spends.spends
  obtain ⟨done, -⟩ := underway.hasNext orderly.toSteady reading.old along.told
    (along.scans spends.toScans held)
  cases left with
  | nil =>
    rw [List.append_nil] at same
    exact same
  | cons row left => cases done

/-- A step that fails to get a page passes it. In the run after a scan was opened, whatever others do, no row of
such a page is told, and if the transaction of the scan only reads, all rows of other pages are. -/
theorem failed_step_skips_page (ran : (start (Store.new settings disk)).run past = some M)
    (scans : Scans tx k r ref M) :
    (∀ st f s, st.asks = true → f ≠ .ofCause .noMoreRows →
      M.outcome? (.op tx (.iterate k st)) = some (.error f, s) →
      (M.store.scans.getD r default).rest = some [] ∧
        ∃ n u, (M.store.scans.getD r default).page < n ∧ n < (M.store.catalog.table ref).pages ∧
          s.scans.getD r default = { table := ref, tx, page := n, rest := some [] } ∧
          getPage tx ⟨(M.store.catalog.table ref).id, n⟩ .shared u = .error (.failed f) s) ∧
    ∀ st a s es S, st = .start ∨ st = .restart →
      M.outcome? (.op tx (.iterate k st)) = some (.ok a, s) →
      let P := M.after (.op tx (.iterate k st)) (.ok a) s
      let steps := scanSteps tx k (P.trace es)
      let gone := P.skipped tx k es
      P.run es = some S → (∀ step ∈ steps, step.1.asks = true) →
      gone.Pairwise (· < ·) ∧ (∀ row ∈ rowsIn steps, ∃ n ∉ gone, row.OnPage n) ∧
      ∀ i t, M.store.catalog.ref i = .ok ref → 0 < (M.store.catalog.table ref).pages →
        S.running tx = true → (∀ o, .op tx o ∈ es → o.alters = false) → (∀ id, .discard id ∉ es) →
        S.outcome? (.op tx (.iterate k .hasNext)) = some (.ok (.more false), t) → t.catalog.Distinct →
        rowsIn steps = t.view.rowsBut ref gone := by
  have guarded := (isolated_run ran).guarded
  have assigned := assigned_run ran
  have old : tx < M.store.nextTx := by
    obtain ⟨c, client, -⟩ := used?_iterate_iff.mp scans.used
    exact (accounted_run ran).started tx c client
  refine ⟨fun st f s asks other failed => scans.stumbles guarded assigned asks failed other, ?_⟩
  intro st a s es S opens opened P steps gone ran' asks
  have stepped := step_of_outcome? opened
  have passes := (scans.passes guarded assigned old opens opened).run (run_snoc ran stepped) ran' asks
  refine ⟨passes.apart.ascending, fun row listed => ?_, ?_⟩
  · obtain ⟨n, -, other, there⟩ := passes.apart.others row (List.mem_append_left _ listed)
    exact ⟨n, other, there⟩
  · intro i t known paged running reads kept last distinct
    let ask : Event := .op tx (.iterate k .hasNext)
    have ended : M.run (.op tx (.iterate k st) :: (es ++ [ask])) = some (S.after ask (.ok (.more false)) t) := by
      rw [run_cons, stepped, Option.bind_some]
      exact run_snoc ran' (step_of_outcome? last)
    have orderly : Orderly settings M :=
      orderly_run ran (((isolated_run ran).extends_run ended).distinct distinct)
    obtain ⟨-, key⟩ := guarded.keyed _ _ known
    refine scans.tells_but orderly opens opened ⟨ended, distinct, ?_, old, ?_, ?_, key.symm ▸ known, paged⟩
      ran' asks last
    · rw [running_after_op, running]
    · intro o listed
      rcases List.mem_cons.mp listed with same | listed
      · cases same
        rfl
      · rcases List.mem_append.mp listed with listed | same
        · exact reads o listed
        · cases List.mem_singleton.mp same
          rfl
    · intro id listed
      simp [kept] at listed

/-- Another transaction has the second page locked when the scan asks for it. -/
theorem failed_step_skips_locked_page :
    let schema : Schema := ⟨[⟨.integer, some "n"⟩]⟩
    let store (n : Int32) : Event := .op 1 (.insert 1 ⟨schema, [.integer n], none⟩)
    let ask (st : ScanStep) : Event := .op 2 (.iterate 0 st)
    let es : List Event := [ask .next, .op 3 (.delete (some ⟨⟨1, 1⟩, 0⟩)), ask .next, ask .next, ask .hasNext,
      .abort 3]
    ∃ M s S t, (start (Store.new { pageSize := 16, poolPages := 2 })).run
        [.addTable (.create "odd" "odd" schema "n"), .begin, store 6, store 7, store 8, store 9, .commit 1,
          .begin, .begin, .op 2 (.scan 1)] = some M ∧
      M.outcome? (ask .start) = some (.ok .done, s) ∧
      (M.after (ask .start) (.ok .done) s).run es = some S ∧
      S.outcome? (ask .hasNext) = some (.ok (.more false), t) ∧ (t.catalog.table 0).pages = 2 ∧
      rowsIn (scanSteps 2 0 ((M.after (ask .start) (.ok .done) s).trace es)) = t.view.rowsBut 0 [1] := by
  intro schema store ask es
  have facts : ((start (Store.new { pageSize := 16, poolPages := 2 })).run
      [.addTable (.create "odd" "odd" schema "n"), .begin, store 6, store 7, store 8, store 9, .commit 1,
        .begin, .begin, .op 2 (.scan 1)]).any (fun M =>
      Scans 2 0 0 0 M ∧ (M.store.catalog.ref 1).toOption = some 0 ∧ 0 < (M.store.catalog.table 0).pages ∧
      (M.outcome? (ask .start)).any (fun opened => opened.1.toOption = some .done ∧
        (∀ step ∈ scanSteps 2 0 ((M.after (ask .start) (.ok .done) opened.2).trace es),
          step.1.asks = true) ∧
        (M.after (ask .start) (.ok .done) opened.2).skipped 2 0 es = [1] ∧
        ((M.after (ask .start) (.ok .done) opened.2).run es).any (fun S => S.running 2 = true ∧
          (S.outcome? (ask .hasNext)).any (fun told => told.1.toOption = some (.more false) ∧
            told.2.catalog.Distinct ∧ (told.2.catalog.table 0).pages = 2) = true) = true) = true) = true := by
    decide +kernel
  obtain ⟨M, ran, scans, known, paged, facts⟩ := exists_of_any facts
  obtain ⟨⟨reply, s⟩, opened, same, asks, gone, facts⟩ := exists_of_any facts
  obtain rfl := of_toOption same
  obtain ⟨S, ran', running, facts⟩ := exists_of_any facts
  obtain ⟨⟨reply, t⟩, last, same, distinct, pages⟩ := exists_of_any facts
  obtain rfl := of_toOption same
  obtain ⟨-, after⟩ := failed_step_skips_page ran scans
  obtain ⟨-, -, tells⟩ := after .start .done s es S (Or.inl rfl) opened ran' asks
  have told := tells 1 t (of_toOption known) paged running (by simp [es, ask, Op.alters]) (by simp [es, ask])
    last distinct
  rw [gone] at told
  exact ⟨M, s, S, t, ran, opened, ran', last, pages, told⟩

/-- A scan of transaction 2 asks for a row and fails. After `way` has made the page to be had, no row is left,
while without the failed step a row would be returned. -/
def Loses (settings : Settings) (past : List Event) (way : Event) : Prop :=
  ∃ M S S' f row s t t', (start (Store.new settings)).run past = some M ∧
    M.outcome? (.op 2 (.iterate 0 .hasNext)) = some (.error f, s) ∧
    M.run [.op 2 (.iterate 0 .hasNext), way] = some S ∧
    S.outcome? (.op 2 (.iterate 0 .hasNext)) = some (.ok (.more false), t) ∧
    M.run [way] = some S' ∧ S'.outcome? (.op 2 (.iterate 0 .next)) = some (.ok (.row row), t')

theorem loses_of {way : Event} (f : Failure) (row : Row)
    (facts : ((start (Store.new settings)).run past).any (fun M =>
      (M.outcome? (.op 2 (.iterate 0 .hasNext))).any (fun told => told.1 = .error f) = true ∧
      (M.run [.op 2 (.iterate 0 .hasNext), way]).any (fun S =>
        (S.outcome? (.op 2 (.iterate 0 .hasNext))).any (fun told => told.1 = .ok (.more false)) = true) = true ∧
      (M.run [way]).any (fun S =>
        (S.outcome? (.op 2 (.iterate 0 .next))).any (fun told => told.1 = .ok (.row row)) = true) = true) =
          true) : Loses settings past way := by
  obtain ⟨M, ran, failed, lost, found⟩ := exists_of_any facts
  obtain ⟨⟨_, s⟩, failed, rfl⟩ := exists_of_any failed
  obtain ⟨S, ran', lost⟩ := exists_of_any lost
  obtain ⟨⟨_, t⟩, lost, rfl⟩ := exists_of_any lost
  obtain ⟨S', ran'', found⟩ := exists_of_any found
  obtain ⟨⟨_, t'⟩, found, rfl⟩ := exists_of_any found
  exact ⟨M, S, S', f, row, s, t, t', ran, failed, ran', lost, ran'', found⟩

/-- The page with the last row is locked, or a dirty page is in the only frame. -/
theorem failed_step_loses_row :
    let schema : Schema := ⟨[⟨.integer, some "n"⟩]⟩
    let store (tx : TxId) (table : TableId) (n : Int32) : Event :=
      .op tx (.insert table ⟨schema, [.integer n], none⟩)
    let scanning : List Event := [.addTable (.create "odd" "odd" schema "n"),
      .addTable (.create "even" "even" schema "n"), .begin, store 1 1 6, store 1 1 7, store 1 1 8, store 1 1 9,
      .commit 1, .begin, .begin, .op 2 (.scan 1), .op 2 (.iterate 0 .start), .op 2 (.iterate 0 .next),
      .op 2 (.iterate 0 .next), .op 2 (.iterate 0 .next)]
    Loses { pageSize := 16, poolPages := 2 } (scanning ++ [.op 3 (.delete (some ⟨⟨1, 1⟩, 0⟩))]) (.abort 3) ∧
    Loses { pageSize := 16, poolPages := 1 } (scanning ++ [store 3 2 1]) (.commit 3) := by
  intro schema store scanning
  let last : Row := ⟨schema, [.integer 9], some ⟨⟨1, 1⟩, 0⟩⟩
  constructor
  · exact loses_of (.ofCause (.aborted 2)) last (by decide +kernel)
  · exact loses_of (.ofCause (.poolExhausted 1)) last (by decide +kernel)

end Session
end HeapStore
