import HeapStore.Proofs.Identity

/-! Which pages a scan fetches. Each of its steps is taken once more together with the numbers of the
pages that it fetches, which changes nothing else about it. -/
namespace HeapStore

/-- The row is on page `number`. -/
def Row.OnPage (number : Nat) (row : Row) : Prop :=
  ∃ p, row.record = some p ∧ p.page.number = number

theorem Table.onPage_of_rows? {t : Table} {number : Nat} {bytes : Bytes} {rows : List Row}
    (told : t.layout.rows? t.schema ⟨t.id, number⟩ bytes = some rows) :
    ∀ row ∈ rows, row.OnPage number := by
  intro row listed
  rw [Table.rows?_eq told, List.mem_filterMap] at listed
  obtain ⟨i, -, found⟩ := listed
  obtain ⟨values, -, rfl⟩ := Option.map_eq_some_iff.mp found
  exact ⟨.ofSlot ⟨t.id, number⟩ i, rfl, rfl⟩

namespace Store
open HeapStore.Action

variable {s t : Store} {r : ScanRef} {ref : TableRef} {sc : Scan} {fuel first : Nat} {seen : List Nat}

/-- As `openScan`, and tells which pages it fetches. -/
def openVisits (r : ScanRef) : Action (List Nat) := do
  let sc := { ← scan r with page := 0 }
  setScan r sc
  if (← pageCount sc) = 0 then
    setScan r { sc with rest := some [] }
    return []
  else
    setScan r { sc with rest := some (← fetchRows sc 0) }
    return [0]

/-- As `seek`, and tells which pages it fetches. -/
def seekVisits (r : ScanRef) : (fuel : Nat) → Action (Bool × List Nat)
  | 0 => return (false, [])
  | fuel + 1 => do
    let sc ← scan r
    match sc.rest with
    | none => return (false, [])
    | some (_ :: _) => return (true, [])
    | some [] =>
      if (← pageCount sc) ≤ sc.page + 1 then return (false, [])
      else
        let sc := { sc with page := sc.page + 1 }
        setScan r sc
        setScan r { sc with rest := some (← fetchRows sc sc.page) }
        let later ← seekVisits r fuel
        return (later.1, sc.page :: later.2)

/-- As `hasNext`, and tells which pages it fetches. -/
def hasNextVisits (r : ScanRef) : Action (Bool × List Nat) := do
  let sc ← scan r
  seekVisits r (((← get).catalog.table sc.table).pages + 2)

/-- As `nextRow`, and tells which pages it fetches. -/
def nextVisits (r : ScanRef) : Action (Row × List Nat) := do
  let found ← hasNextVisits r
  if found.1 then
    let sc ← scan r
    match sc.rest with
    | some (row :: rest) =>
      setScan r { sc with rest := some rest }
      return (row, found.2)
    | _ => .fail .noMoreRows
  else .fail .noMoreRows

theorem openScan_eq_visits (r : ScanRef) : openScan r = (fun _ => ()) <$> openVisits r := by
  simp only [openScan, openVisits, map_bind]
  refine bind_congr fun sc => bind_congr fun _ => bind_congr fun n => ?_
  split
  · simp
  · simp

theorem seek_eq_visits (r : ScanRef) (fuel : Nat) : seek r fuel = Prod.fst <$> seekVisits r fuel := by
  induction fuel with
  | zero => simp [seek, seekVisits]
  | succ fuel ih =>
    simp only [seek, seekVisits, map_bind]
    refine bind_congr fun sc => ?_
    obtain ⟨table, tx, page, rest⟩ := sc
    rcases rest with _ | _ | ⟨row, rest⟩
    · simp
    · simp only [map_bind]
      refine bind_congr fun n => ?_
      split
      · simp
      · simp [ih]
    · simp

theorem hasNext_eq_visits (r : ScanRef) : hasNext r = Prod.fst <$> hasNextVisits r := by
  simp only [hasNext, hasNextVisits, map_bind, seek_eq_visits]

theorem nextRow_eq_visits (r : ScanRef) : nextRow r = Prod.fst <$> nextVisits r := by
  simp only [nextRow, nextVisits, map_bind, hasNext_eq_visits, bind_map_left]
  refine bind_congr fun found => ?_
  split
  · simp only [map_bind]
    refine bind_congr fun sc => ?_
    obtain ⟨table, tx, page, rest⟩ := sc
    rcases rest with _ | _ | ⟨row, rest⟩
    · rfl
    · rfl
    · simp
  · rfl

/-- A scan is open. It has fetched the pages from number `first` to the one that it has come to, whose
rows it returns next. -/
structure Touring (r : ScanRef) (ref : TableRef) (first : Nat) (seen : List Nat) (s : Store) : Prop where
  guarded : s.Guarded
  valid : r < s.scans.size
  table : (s.scans.getD r default).table = ref
  rest : ∃ rest, (s.scans.getD r default).rest = some rest ∧
    ∀ row ∈ rest, row.OnPage (s.scans.getD r default).page
  early : first ≤ (s.scans.getD r default).page + 1
  seen : seen = List.range' first ((s.scans.getD r default).page + 1 - first)

theorem Touring.mem_iff (h : s.Touring r ref first seen) {n : Nat} :
    n ∈ seen ↔ first ≤ n ∧ n ≤ (s.scans.getD r default).page := by
  have early := h.early
  rw [h.seen, List.mem_range'_1]
  omega

theorem Touring.congr (h : s.Touring r ref first seen) (guarded : t.Guarded)
    (size : s.scans.size ≤ t.scans.size) (same : t.scans.getD r default = s.scans.getD r default) :
    t.Touring r ref first seen := by
  obtain ⟨-, valid, table, rest, early, visited⟩ := h
  rw [← same] at table rest early visited
  exact ⟨guarded, Nat.lt_of_lt_of_le valid size, table, rest, early, visited⟩

theorem range'_onward {n : Nat} (early : first ≤ n + 1) :
    List.range' first (n + 1 - first) ++ [n + 1] = List.range' first (n + 1 + 1 - first) := by
  rw [Nat.succ_sub early, List.range'_1_concat, Nat.add_sub_cancel' early]

theorem setScan_returns (h : s.Guarded) (valid : r < s.scans.size) : (setScan r sc).Ends s
    (Returns fun _ t => t.Guarded ∧ r < t.scans.size ∧ t.scans.getD r default = sc ∧
      t.catalog = s.catalog) := by
  refine ⟨(looks_of_scans s (s.scans.setIfInBounds r sc) h).guarded, ?_,
    Plain.getD_setIfInBounds valid sc, rfl⟩
  simpa using valid

theorem fetchRows_returns (h : s.Guarded) (number : Nat) : (fetchRows sc number).Ends s
    (Returns fun rows t => t.Guarded ∧ t.scans = s.scans ∧ t.catalog = s.catalog ∧
      ∀ row ∈ rows, row.OnPage number) := by
  refine returns_bind (P := fun got t => s = got ∧ s = t) ⟨rfl, rfl⟩ ?_
  rintro _ _ ⟨rfl, rfl⟩
  refine returns_bind (P := fun _ t => t.Guarded ∧ t.scans = s.scans ∧ t.catalog = s.catalog) ?_ ?_
  · refine ((looking_getPage _ _ _ s).and (sparing_getPage _ _ _ s)).mono ?_
    rintro (e | got) t ⟨looks, spares⟩
    · trivial
    · have leaves := looks.resolve_left (by simp) h
      exact ⟨leaves.guarded, spares.scans, leaves.same⟩
  · rintro got t ⟨guarded, scans, catalog⟩
    refine returns_bind (P := fun _ u => u = t) rfl ?_
    rintro page _ rfl
    refine returns_mono (returns_ofOption _) ?_
    rintro rows _ ⟨told, rfl⟩
    exact ⟨guarded, scans, catalog, Table.onPage_of_rows? told⟩

theorem touring_of_now {rest : List Row} (guarded : s.Guarded) (valid : r < s.scans.size)
    (now : s.scans.getD r default = sc) (table : sc.table = ref) (unread : sc.rest = some rest)
    (there : ∀ row ∈ rest, row.OnPage sc.page) (early : first ≤ sc.page + 1)
    (visited : seen = List.range' first (sc.page + 1 - first)) : s.Touring r ref first seen := by
  subst now
  exact ⟨guarded, valid, table, ⟨rest, unread, there⟩, early, visited⟩

/-- The first page is fetched only if there is one. -/
theorem openVisits_returns (h : s.Guarded) (valid : r < s.scans.size)
    (table : (s.scans.getD r default).table = ref) : (openVisits r).Ends s (Returns fun pages t =>
      t.Touring r ref (if (s.catalog.table ref).pages = 0 then 1 else 0) pages) := by
  refine returns_scan (returns_bind (setScan_returns h valid) ?_)
  rintro _ t ⟨guarded, valid, -, catalog⟩
  refine returns_bind (pageCount_returns _) ?_
  rintro n _ ⟨rfl, rfl⟩
  subst table
  generalize s.scans.getD r default = here at *
  rw [catalog]
  split
  · refine returns_bind (setScan_returns guarded valid) ?_
    rintro _ u ⟨guarded, valid, now, -⟩
    exact touring_of_now guarded valid now rfl rfl (by simp) (Nat.le_refl 1) rfl
  · refine returns_bind (fetchRows_returns guarded 0) ?_
    rintro rows u ⟨guarded, scans, -, there⟩
    refine returns_bind (setScan_returns guarded (scans ▸ valid)) ?_
    rintro _ v ⟨guarded, valid, now, -⟩
    exact touring_of_now guarded valid now rfl rfl there (Nat.zero_le 1) rfl

/-- The search goes from page to page, and ends before the fuel does. -/
theorem Touring.seeks (h : s.Touring r ref first seen) (pos : 0 < fuel)
    (enough : (s.catalog.table ref).pages ≤ (s.scans.getD r default).page + fuel) :
    (seekVisits r fuel).Ends s (Returns fun found t => t.Touring r ref first (seen ++ found.2) ∧
      (found.1 = false → (t.catalog.table ref).pages ≤ (t.scans.getD r default).page + 1)) := by
  induction fuel generalizing s seen with
  | zero => exact absurd pos (Nat.lt_irrefl 0)
  | succ fuel ih =>
    refine returns_scan ?_
    have stay : s.Touring r ref first (seen ++ []) := by rwa [List.append_nil]
    obtain ⟨guarded, valid, table, ⟨rest, unread, there⟩, early, rfl⟩ := h
    generalize at_r : s.scans.getD r default = here at *
    dsimp only
    rw [unread]
    cases rest with
    | cons row rest => exact ⟨stay, fun never => by cases never⟩
    | nil =>
      refine returns_bind (pageCount_returns _) ?_
      rintro n _ ⟨rfl, rfl⟩
      rw [table]
      split
      · rename_i last
        exact ⟨stay, fun _ => by rw [at_r]; exact last⟩
      · refine returns_bind (setScan_returns guarded valid) ?_
        rintro _ t ⟨guarded, valid, -, catalog⟩
        refine returns_bind (fetchRows_returns guarded _) ?_
        rintro rows u ⟨guarded, scans, catalog', there⟩
        refine returns_bind (setScan_returns guarded (scans ▸ valid)) ?_
        rintro _ v ⟨guarded, valid, now, catalog''⟩
        have next : v.Touring r ref first
            (List.range' first (here.page + 1 - first) ++ [here.page + 1]) :=
          touring_of_now guarded valid now rfl rfl there (Nat.le_succ_of_le early) (range'_onward early)
        -- one page more and one unit of fuel less
        refine returns_bind (ih next (by omega) ?_) ?_
        · rw [now, catalog'', catalog', catalog]
          dsimp only
          omega
        · rintro found w ⟨touring, last⟩
          refine ⟨?_, last⟩
          rwa [List.append_assoc, List.singleton_append] at touring

theorem Touring.searches (h : s.Touring r ref first seen) : (hasNextVisits r).Ends s
    (Returns fun found t => t.Touring r ref first (seen ++ found.2) ∧
      (found.1 = false → (t.catalog.table ref).pages ≤ (t.scans.getD r default).page + 1)) :=
  returns_scan (returns_bind (P := fun got t => got = s ∧ t = s) ⟨rfl, rfl⟩ fun _ _ same => by
    obtain ⟨rfl, rfl⟩ := same
    rw [h.table]
    exact h.seeks (by omega) (by omega))

theorem Touring.advances (h : s.Touring r ref first seen) : (nextVisits r).Ends s
    (Returns fun found t => t.Touring r ref first (seen ++ found.2) ∧
      found.1.OnPage (t.scans.getD r default).page) := by
  refine returns_bind h.searches ?_
  rintro found t ⟨⟨guarded, valid, table, ⟨rest, unread, there⟩, early, visited⟩, -⟩
  split
  · refine returns_scan ?_
    generalize t.scans.getD r default = here at *
    rw [unread]
    cases rest with
    | nil => trivial
    | cons row rest =>
      refine returns_bind (setScan_returns guarded valid) ?_
      rintro _ u ⟨guarded, valid, now, -⟩
      refine ⟨touring_of_now guarded valid now table rfl
        (fun row' listed => there row' (List.mem_cons_of_mem _ listed)) early visited, ?_⟩
      rw [now]
      exact there row (List.mem_cons_self ..)
  · trivial

end Store

namespace ScanStep
open Store

/-- As `perform`, and tells which pages are fetched. -/
def visits (r : ScanRef) : ScanStep → Action (Answer × List Nat)
  | start => do return (.done, ← openVisits r)
  | hasNext => do
    let found ← hasNextVisits r
    return (.more found.1, found.2)
  | next => do
    let found ← nextVisits r
    return (.row found.1, found.2)
  | close => do
    closeScan r
    return (.done, [])
  | restart => do
    closeScan r
    return (.done, ← openVisits r)

theorem perform_eq_visits (r : ScanRef) (st : ScanStep) : st.perform r = Prod.fst <$> st.visits r := by
  cases st with
  | start => simp [perform, visits, openScan_eq_visits]
  | hasNext => simp [perform, visits, hasNext_eq_visits]
  | next => simp [perform, visits, nextRow_eq_visits]
  | close => simp [perform, visits]
  | restart => simp [perform, visits, rewind, openScan_eq_visits]

/-- Whether the step asks an open scan for rows. -/
def asks : ScanStep → Bool
  | hasNext | next => true
  | start | close | restart => false

variable {s : Store} {r : ScanRef} {ref : TableRef} {st : ScanStep} {first : Nat} {seen : List Nat}

/-- A step of an open scan goes on with the pages where the one before has ended. -/
theorem visits_asks (h : s.Touring r ref first seen) (asks : st.asks = true) : (st.visits r).Ends s
    (Returns fun out t => t.Touring r ref first (seen ++ out.2) ∧
      (out.1 = .more false → (t.catalog.table ref).pages ≤ (t.scans.getD r default).page + 1) ∧
      ∀ row, out.1 = .row row → row.OnPage (t.scans.getD r default).page) := by
  cases st with
  | hasNext =>
    refine returns_bind h.searches ?_
    rintro ⟨more, pages⟩ t ⟨touring, last⟩
    exact ⟨touring, fun same => last (by cases same; rfl), fun _ never => by cases never⟩
  | next =>
    refine returns_bind h.advances ?_
    rintro ⟨row, pages⟩ t ⟨touring, there⟩
    exact ⟨touring, fun never => (by cases never), fun _ same => (by cases same; exact there)⟩
  | start | close | restart => cases asks

theorem visits_opens (h : s.Guarded) (valid : r < s.scans.size)
    (table : (s.scans.getD r default).table = ref) (opens : st = .start ∨ st = .restart) :
    (st.visits r).Ends s (Returns fun out t =>
      t.Touring r ref (if (s.catalog.table ref).pages = 0 then 1 else 0) out.2) := by
  rcases opens with rfl | rfl
  · exact returns_bind (openVisits_returns h valid table) fun _ _ touring => touring
  · have closed : ({ s.scans.getD r default with rest := none } : Scan).table = ref := table
    refine returns_bind (returns_scan (setScan_returns h valid)) ?_
    rintro _ t ⟨guarded, valid, now, catalog⟩
    rw [← catalog]
    exact returns_bind (openVisits_returns guarded valid (now ▸ closed)) fun _ _ touring => touring

end ScanStep

namespace Session
open Store

variable {M P S : Session} {past es : List Event} {e : Event} {reply : Reply} {s : Store}
  {settings : Settings} {disk : Disk} {tx : TxId} {k r first : Nat} {ref : TableRef} {st : ScanStep}
  {a : Answer} {seen : List Nat}

/-- The pages that an event makes scan `k` of a transaction fetch. -/
def visits (S : Session) (tx : TxId) (k : Nat) : Event → List Nat
  | .op u (.iterate j st) =>
    if u = tx ∧ j = k then
      match (S.used? (.op tx (.iterate k .start))).map fun r => st.visits r S.store with
      | some (.ok out _) => out.2
      | _ => []
    else []
  | _ => []

/-- The pages that scan `k` of a transaction fetches in a run, in this order. -/
def visited (S : Session) (tx : TxId) (k : Nat) (es : List Event) : List Nat :=
  (S.trace es).flatMap fun step => step.1.visits tx k step.2.1

theorem visited_cons (next : P.outcome? e = some (reply, s)) : P.visited tx k (e :: es) =
    P.visits tx k e ++ (P.after e reply s).visited tx k es := by
  rw [visited, trace_cons next, List.flatMap_cons, visited]

/-- What is known of a step together with its pages. -/
theorem visits_of_iterate {Q : Answer × List Nat → Store → Prop}
    (used : P.used? (.op tx (.iterate k .start)) = some r)
    (next : P.outcome? (.op tx (.iterate k st)) = some (.ok a, s))
    (ends : (st.visits r).Ends P.store (Returns Q)) : Q (a, P.visits tx k (.op tx (.iterate k st))) s := by
  have settled := settled_of_iterate next used
  rw [st.perform_eq_visits] at settled
  unfold Action.Ends at ends
  simp only [visits, and_self, if_true, used, Option.map_some]
  simp only [settle, Functor.map, EStateM.map] at settled
  cases ended : st.visits r P.store with
  | ok out t =>
    rw [ended] at settled ends
    cases settled
    exact ends
  | error e t =>
    rw [ended] at settled
    cases e with
    | failed f => cases settled
    | crashed => cases settled

/-- As `Touring`, for a scan of a session. -/
structure Tours (tx : TxId) (k r : Nat) (ref : TableRef) (first : Nat) (seen : List Nat)
    (P : Session) : Prop extends Scans tx k r ref P where
  touring : P.store.Touring r ref first seen

theorem scans_of_step (ran : (start (Store.new settings disk)).run past = some P)
    (h : Scans tx k r ref P) (next : P.outcome? e = some (reply, s)) :
    Scans tx k r ref (P.after e reply s) := by
  obtain ⟨c, client, -⟩ := used?_iterate_iff.mp h.used
  exact h.after (assigned_run ran) ((accounted_run ran).started tx c client) next

/-- A step that is not one of the scan itself fetches nothing for it. -/
theorem Tours.other (ran : (start (Store.new settings disk)).run past = some P)
    (h : Tours tx k r ref first seen P) (next : P.outcome? e = some (reply, s))
    (other : ∀ st, e ≠ .op tx (.iterate k st)) :
    Tours tx k r ref first (seen ++ P.visits tx k e) (P.after e reply s) := by
  have assigned := assigned_run ran
  have sparse := assigned.sparse next
  have idle : P.visits tx k e = [] := by
    unfold visits
    split
    · split
      · rename_i same
        obtain ⟨rfl, rfl⟩ := same
        exact absurd rfl (other _)
      · rfl
    · rfl
  rw [idle, List.append_nil]
  refine ⟨scans_of_step ran h.toScans next,
    h.touring.congr ((isolated_run ran).step (step_of_outcome? next)).guarded sparse.size ?_⟩
  refine sparse.others r h.touring.valid fun same => ?_
  obtain ⟨st, rfl⟩ := iterates_of_used assigned h.used same
  exact other st rfl

theorem Tours.asks (ran : (start (Store.new settings disk)).run past = some P)
    (h : Tours tx k r ref first seen P) (asks : st.asks = true)
    (next : P.outcome? (.op tx (.iterate k st)) = some (.ok a, s)) :
    Tours tx k r ref first (seen ++ P.visits tx k (.op tx (.iterate k st)))
        (P.after (.op tx (.iterate k st)) (.ok a) s) ∧
      (a = .more false → (s.catalog.table ref).pages ≤ (s.scans.getD r default).page + 1) ∧
      ∀ row, a = .row row → row.OnPage (s.scans.getD r default).page := by
  obtain ⟨touring, last, there⟩ := visits_of_iterate h.used next (ScanStep.visits_asks h.touring asks)
  exact ⟨⟨scans_of_step ran h.toScans next, touring⟩, last, there⟩

theorem Tours.run (ran : (start (Store.new settings disk)).run past = some P)
    (h : Tours tx k r ref first seen P) (ran' : P.run es = some S)
    (asks : ∀ step ∈ scanSteps tx k (P.trace es), step.1.asks = true ∧ step.2.isOk = true) :
    Tours tx k r ref first (seen ++ P.visited tx k es) S := by
  induction es generalizing P seen past with
  | nil =>
    cases ran'
    simpa [visited, trace] using h
  | cons e es ih =>
    obtain ⟨Q, stepped, ran'⟩ := Option.bind_eq_some_iff.mp ((run_cons P e es).symm.trans ran')
    have whole := run_snoc ran stepped
    obtain ⟨reply, s, next, rfl⟩ := outcome?_of_step stepped
    rw [visited_cons next, ← List.append_assoc]
    by_cases own : ∃ st, e = .op tx (.iterate k st)
    · obtain ⟨st, rfl⟩ := own
      rw [scanSteps_own next] at asks
      obtain ⟨asked, answered⟩ := asks (st, reply) (List.mem_cons_self ..)
      cases reply with
      | error f => cases answered
      | ok a =>
        exact ih whole (h.asks ran asked next).1 ran'
          fun step listed => asks step (List.mem_cons_of_mem _ listed)
    · have other : ∀ st, e ≠ .op tx (.iterate k st) := fun st same => own ⟨st, same⟩
      rw [scanSteps_other next other] at asks
      exact ih whole (h.other ran next other) ran' asks

/-- An open scan fetches the pages of its table in turn, from page 0 on if there is one when it is opened
and from page 1 on otherwise. It returns no row of a page before it has fetched the pages up to this one,
and it has fetched all of them when it says that no row is left. In between anything else may happen. -/
theorem scan_visits_in_order (ran : (start (Store.new settings disk)).run past = some M)
    (scans : Scans tx k r ref M) (opens : st = .start ∨ st = .restart)
    (opened : M.outcome? (.op tx (.iterate k st)) = some (.ok a, s))
    (ran' : (M.after (.op tx (.iterate k st)) (.ok a) s).run es = some S)
    (asks : ∀ step ∈ scanSteps tx k ((M.after (.op tx (.iterate k st)) (.ok a) s).trace es),
      step.1.asks = true ∧ step.2.isOk = true) :
    let first := if (M.store.catalog.table ref).pages = 0 then 1 else 0
    let seen := M.visited tx k (.op tx (.iterate k st) :: es)
    (∃ n, seen = List.range' first n) ∧
    (∀ row t, S.outcome? (.op tx (.iterate k .next)) = some (.ok (.row row), t) →
      ∃ number, row.OnPage number ∧ ∀ n, first ≤ n → n ≤ number →
        n ∈ seen ++ S.visits tx k (.op tx (.iterate k .next))) ∧
    ∀ t, S.outcome? (.op tx (.iterate k .hasNext)) = some (.ok (.more false), t) →
      ∀ n, first ≤ n → n < (t.catalog.table ref).pages →
        n ∈ seen ++ S.visits tx k (.op tx (.iterate k .hasNext)) := by
  intro first seen
  have stepped := step_of_outcome? opened
  have whole : (start (Store.new settings disk)).run (past ++ [.op tx (.iterate k st)]) =
      some (M.after (.op tx (.iterate k st)) (.ok a) s) := by
    rw [run_append, ran, Option.bind_some, run_cons, stepped]
    rfl
  have ran'' : (start (Store.new settings disk)).run (past ++ [.op tx (.iterate k st)] ++ es) =
      some S := by
    rw [run_append, whole]
    exact ran'
  have touring := visits_of_iterate scans.used opened (ScanStep.visits_opens (isolated_run ran).guarded
    (scans.reads (assigned_run ran)).1 scans.table opens)
  have tours : Tours tx k r ref first seen S := by
    have tours : Tours tx k r ref first (M.visits tx k (.op tx (.iterate k st))) _ :=
      ⟨scans_of_step ran scans opened, touring⟩
    have onward := tours.run whole ran' asks
    rwa [← visited_cons opened] at onward
  refine ⟨⟨_, tours.touring.seen⟩, fun row t next => ?_, fun t next => ?_⟩
  · obtain ⟨onward, -, there⟩ := tours.asks ran'' rfl next
    exact ⟨_, there row rfl, fun n above below => onward.touring.mem_iff.mpr ⟨above, below⟩⟩
  · obtain ⟨onward, last, -⟩ := tours.asks ran'' rfl next
    exact fun n above below => onward.touring.mem_iff.mpr
      ⟨above, Nat.le_of_lt_succ (Nat.lt_of_lt_of_le below (last rfl))⟩

/-- The second page is added while the scan is open. -/
theorem scan_visits_in_order_grown :
    let schema : Schema := ⟨[⟨.integer, some "n"⟩]⟩
    let store (n : Int32) : Event := .op 1 (.insert 1 ⟨schema, [.integer n], none⟩)
    let es : List Event := [store 8, .op 1 (.iterate 0 .next), store 9, store 10]
    ∃ M s S t row, (start (Store.new { pageSize := 16, poolPages := 2 })).run
        [.addTable (.create "odd" "odd" schema "n"), .begin, store 7, .op 1 (.scan 1)] = some M ∧
      M.outcome? (.op 1 (.iterate 0 .start)) = some (.ok .done, s) ∧
      (M.after (.op 1 (.iterate 0 .start)) (.ok .done) s).run es = some S ∧
      S.outcome? (.op 1 (.iterate 0 .next)) = some (.ok (.row row), t) ∧
      row.record = some ⟨⟨1, 1⟩, 0⟩ ∧
      0 ∈ M.visited 1 0 (.op 1 (.iterate 0 .start) :: es) ++ S.visits 1 0 (.op 1 (.iterate 0 .next)) := by
  intro schema store es
  have facts : ((start (Store.new { pageSize := 16, poolPages := 2 })).run
      [.addTable (.create "odd" "odd" schema "n"), .begin, store 7, .op 1 (.scan 1)]).any (fun M =>
      Scans 1 0 0 0 M ∧ (M.store.catalog.table 0).pages ≠ 0 ∧
      (M.outcome? (.op 1 (.iterate 0 .start))).any (fun opened => opened.1.toOption = some .done ∧
        (∀ step ∈ scanSteps 1 0 ((M.after (.op 1 (.iterate 0 .start)) (.ok .done) opened.2).trace es),
          step.1.asks = true ∧ step.2.isOk = true) ∧
        ((M.after (.op 1 (.iterate 0 .start)) (.ok .done) opened.2).run es).any (fun S =>
          (S.outcome? (.op 1 (.iterate 0 .next))).any (fun told => told.1.toOption =
            some (.row ⟨schema, [.integer 10], some ⟨⟨1, 1⟩, 0⟩⟩)) = true) = true) = true) = true := by
    decide +kernel
  obtain ⟨M, ran, facts⟩ := (Option.any_eq_true _ _).mp facts
  obtain ⟨scans, paged, facts⟩ := of_decide_eq_true facts
  obtain ⟨⟨reply, s⟩, opened, facts⟩ := (Option.any_eq_true _ _).mp facts
  obtain ⟨same, asks, facts⟩ := of_decide_eq_true facts
  obtain rfl := of_toOption same
  obtain ⟨S, ran', facts⟩ := (Option.any_eq_true _ _).mp facts
  obtain ⟨⟨reply, t⟩, told, same⟩ := (Option.any_eq_true _ _).mp (of_decide_eq_true facts)
  obtain rfl := of_toOption (of_decide_eq_true same)
  obtain ⟨-, before, -⟩ := scan_visits_in_order ran scans (Or.inl rfl) opened ran' asks
  obtain ⟨number, -, fetched⟩ := before _ t told
  rw [if_neg paged] at fetched
  exact ⟨M, s, S, t, _, ran, opened, ran', told, rfl, fetched 0 (Nat.le_refl 0) (Nat.zero_le number)⟩

/-- The first page is never fetched if the table had none when the scan was opened. The scan says that
there is no row although one has been stored, and after that returns one of the second page. -/
theorem scan_passes_first_page :
    let schema : Schema := ⟨[⟨.integer, some "n"⟩]⟩
    let store (n : Int32) : Event := .op 1 (.insert 1 ⟨schema, [.integer n], none⟩)
    let ask (st : ScanStep) : Event := .op 1 (.iterate 0 st)
    ∃ M, (start (Store.new { pageSize := 16, poolPages := 2 })).run
        [.addTable (.create "odd" "odd" schema "n"), .begin, .op 1 (.scan 1)] = some M ∧
      (∃ S s, M.run [ask .start, store 7] = some S ∧ (S.store.catalog.table 0).pages = 1 ∧
        S.outcome? (ask .hasNext) = some (.ok (.more false), s) ∧
        M.visited 1 0 [ask .start, store 7, ask .hasNext] = []) ∧
      ∃ S s, M.run [ask .start, store 7, store 8, store 9, store 10] = some S ∧
        S.outcome? (ask .next) = some (.ok (.row ⟨schema, [.integer 10], some ⟨⟨1, 1⟩, 0⟩⟩), s) ∧
        M.visited 1 0 [ask .start, store 7, store 8, store 9, store 10, ask .next] = [1] := by
  intro schema store ask
  have facts : ((start (Store.new { pageSize := 16, poolPages := 2 })).run
      [.addTable (.create "odd" "odd" schema "n"), .begin, .op 1 (.scan 1)]).any (fun M =>
      (M.run [ask .start, store 7]).any (fun S => (S.store.catalog.table 0).pages = 1 ∧
        (S.outcome? (ask .hasNext)).any (fun told => told.1.toOption = some (.more false)) = true) = true ∧
      M.visited 1 0 [ask .start, store 7, ask .hasNext] = [] ∧
      (M.run [ask .start, store 7, store 8, store 9, store 10]).any (fun S =>
        (S.outcome? (ask .next)).any (fun told => told.1.toOption =
          some (.row ⟨schema, [.integer 10], some ⟨⟨1, 1⟩, 0⟩⟩)) = true) = true ∧
      M.visited 1 0 [ask .start, store 7, store 8, store 9, store 10, ask .next] = [1]) = true := by
    decide +kernel
  obtain ⟨M, ran, facts⟩ := (Option.any_eq_true _ _).mp facts
  obtain ⟨missed, none, returned, second⟩ := of_decide_eq_true facts
  refine ⟨M, ran, ?_, ?_⟩
  · obtain ⟨S, ran', facts⟩ := (Option.any_eq_true _ _).mp missed
    obtain ⟨pages, told⟩ := of_decide_eq_true facts
    obtain ⟨⟨reply, s⟩, told, same⟩ := (Option.any_eq_true _ _).mp told
    obtain rfl := of_toOption (of_decide_eq_true same)
    exact ⟨S, s, ran', pages, told, none⟩
  · obtain ⟨S, ran', facts⟩ := (Option.any_eq_true _ _).mp returned
    obtain ⟨⟨reply, s⟩, told, same⟩ := (Option.any_eq_true _ _).mp (of_decide_eq_true facts)
    obtain rfl := of_toOption (of_decide_eq_true same)
    exact ⟨S, s, ran', told, second⟩

end Session
end HeapStore
