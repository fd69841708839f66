import HeapStore.Proofs.Placing

/-! A scan goes on in the same way wherever the pages that it comes to hold the same. The rows it has
left are those it has read and those that are still on the pages before it. Others may change these
pages until the scan gets there, so they are looked up on the side that stays as it is. -/
namespace HeapStore.Plain

variable {v v' w w' : Plain} {tx u : TxId} {r r' : ScanRef} {ref : TableRef} {number fuel : Nat}
  {sc : Scan} {row : Row} {rows : List Row} {out : Outcome}

/-- The rows that a scan has left, if `w` shows what is on the pages before it. -/
def ahead (w : Plain) (sc : Scan) : Option (List Row) :=
  sc.rest.map (· ++ w.rowsFrom sc.table (sc.page + 1))

/-- `w` shows of a table what the transaction has locked in the end. -/
structure Shows (tx : TxId) (ref : TableRef) (v v' w : Plain) : Prop where
  known : w.catalog.ref (w.catalog.table ref).id = .ok ref
  table : w.catalog.table ref = { v.catalog.table ref with length := (w.catalog.table ref).length }
  agree : ∀ n mode, v'.locks.Held tx ⟨(v.catalog.table ref).id, n⟩ mode →
    w.total ⟨(v.catalog.table ref).id, n⟩ = v.total ⟨(v.catalog.table ref).id, n⟩
  blank : ∀ n ≥ (v'.catalog.table ref).pages,
    w.total ⟨(v.catalog.table ref).id, n⟩ = .zeros (v.catalog.table ref).pageSize

theorem Shows.key (h : Shows tx ref v v' w) : (w.catalog.table ref).id = (v.catalog.table ref).id := by
  rw [h.table]

theorem fetchRows_ok (ended : fetchRows sc number v = .ok rows v') : (∃ locks, v' = { v with locks }) ∧
    v'.locks.Held sc.tx ⟨(v.catalog.table sc.table).id, number⟩ .shared ∧
    rows = v.rowsOn sc.table number (v.total ⟨(v.catalog.table sc.table).id, number⟩) := by
  replace ended := get_bind_eq_ok_iff.mp ended
  obtain ⟨bytes, x, got, read⟩ := bind_eq_ok_iff.mp ended
  obtain ⟨locked, has, rfl⟩ := getPage_eq_ok_iff.mp got
  obtain ⟨found, same⟩ := ofOption_eq_ok_iff.mp read
  subst x
  obtain ⟨-, locks, -, same⟩ := lock_eq_ok_iff.mp locked
  refine ⟨⟨locks, same⟩, (held_of_lock locked).1, ?_⟩
  simp [rowsOn, total_of_has has, found]

/-- What is read from the next page is what is ahead on it. -/
theorem Shows.rowsFrom (h : Shows tx ref v v' w)
    (held : v'.locks.Held tx ⟨(v.catalog.table ref).id, number⟩ .shared) : w.rowsFrom ref number =
      v.rowsOn ref number (v.total ⟨(v.catalog.table ref).id, number⟩) ++ w.rowsFrom ref (number + 1) := by
  rw [rowsFrom_total h.known, rowsOn_congr h.table, h.key, h.agree _ _ held]

theorem Shows.rowsFrom_beyond (h : Shows tx ref v v' w)
    (beyond : (v'.catalog.table ref).pages ≤ number) : w.rowsFrom ref number = [] := by
  refine rowsFrom_blank h.known fun n later => ?_
  rw [h.table]
  exact h.blank n (Nat.le_trans beyond later)

theorem pageCount_ok {n : Nat} (ended : pageCount sc v = .ok n w) :
    v = w ∧ n = (v.catalog.table sc.table).pages := by
  replace ended := get_bind_eq_ok_iff.mp ended
  obtain ⟨counted, same⟩ := ofOption_eq_ok_iff.mp ended
  unfold Table.pageCount? at counted
  split at counted
  · cases counted
  · cases counted
    exact ⟨same.symm, rfl⟩

/-- A scan that is opened has read the first page of its table. -/
theorem openScan_ok (reads : v.Reads r { table := ref, tx }) (pages : 0 < (v.catalog.table ref).pages)
    (ended : openScan r v = .ok () v') :
    v'.locks.Held tx ⟨(v.catalog.table ref).id, 0⟩ .shared ∧ v'.scans.getD r default =
      { table := ref, tx, rest := some (v.rowsOn ref 0 (v.total ⟨(v.catalog.table ref).id, 0⟩)) } := by
  obtain ⟨valid, table, mover⟩ := reads
  dsimp only at table mover
  replace ended := scan_bind_eq_ok_iff.mp ended
  generalize v.scans.getD r default = here at *
  subst table mover
  obtain ⟨_, x, set, ended⟩ := bind_eq_ok_iff.mp ended
  rw [setScan_eq] at set
  cases set
  obtain ⟨n, x, counted, ended⟩ := bind_eq_ok_iff.mp ended
  obtain ⟨rfl, rfl⟩ := pageCount_ok counted
  rw [if_neg (Nat.ne_of_gt pages)] at ended
  obtain ⟨rows, x, fetched, ended⟩ := bind_eq_ok_iff.mp ended
  obtain ⟨⟨locks, rfl⟩, held, read⟩ := fetchRows_ok fetched
  rw [setScan_eq] at ended
  cases ended
  have size : r < (v.scans.setIfInBounds r { here with page := 0 }).size := by simpa using valid
  refine ⟨held, (getD_setIfInBounds size _).trans ?_⟩
  rw [read]
  rfl

theorem closeScan_eq (r : ScanRef) (v : Plain) : closeScan r v = .ok () { v with
    scans := v.scans.setIfInBounds r { v.scans.getD r default with rest := none } } := rfl

/-- A scan of a table without pages has nothing to read. -/
theorem openScan_empty (reads : v.Reads r { table := ref, tx }) (pages : (v.catalog.table ref).pages = 0)
    (ended : openScan r v = .ok () v') :
    v'.scans.getD r default = { table := ref, tx, rest := some [] } := by
  obtain ⟨valid, table, mover⟩ := reads
  dsimp only at table mover
  replace ended := scan_bind_eq_ok_iff.mp ended
  generalize v.scans.getD r default = here at *
  subst table mover
  obtain ⟨_, x, set, ended⟩ := bind_eq_ok_iff.mp ended
  rw [setScan_eq] at set
  cases set
  obtain ⟨n, x, counted, ended⟩ := bind_eq_ok_iff.mp ended
  obtain ⟨rfl, rfl⟩ := pageCount_ok counted
  rw [if_pos pages, setScan_eq] at ended
  cases ended
  exact getD_setIfInBounds (by simpa using valid) _

/-- Starting over opens a scan, whether it was open before or not. -/
theorem performScan_opened {step : ScanStep} (opens : step = .start ∨ step = .restart)
    (reads : v.Reads r { table := ref, tx }) (ended : performScan r step v = .ok out v') :
    ∃ scans, Reads { v with scans } r { table := ref, tx } ∧ openScan r { v with scans } = .ok () v' := by
  rcases opens with rfl | rfl
  · obtain ⟨_, x, opened, rest⟩ := bind_eq_ok_iff.mp ended
    cases rest
    exact ⟨v.scans, reads, opened⟩
  · obtain ⟨_, x, done, rest⟩ := bind_eq_ok_iff.mp ended
    cases rest
    obtain ⟨_, y, closed, opened⟩ := bind_eq_ok_iff.mp done
    have moves : Moves tx (some r) v y := (moving_closeScan reads.1).of_ok closed
    have reads := moves.reads reads
    rw [closeScan_eq] at closed
    cases closed
    exact ⟨_, reads, opened⟩

theorem performScan_opens {step : ScanStep} (opens : step = .start ∨ step = .restart)
    (reads : v.Reads r { table := ref, tx }) (pages : 0 < (v.catalog.table ref).pages)
    (ended : performScan r step v = .ok out v') :
    v'.locks.Held tx ⟨(v.catalog.table ref).id, 0⟩ .shared ∧ v'.scans.getD r default =
      { table := ref, tx, rest := some (v.rowsOn ref 0 (v.total ⟨(v.catalog.table ref).id, 0⟩)) } := by
  obtain ⟨scans, reads, opened⟩ := performScan_opened opens reads ended
  exact openScan_ok (v := { v with scans }) reads pages opened

/-- A scan that starts over has the whole table ahead. -/
theorem performScan_ahead {step : ScanStep} (h : Shows tx ref v v' w)
    (opens : step = .start ∨ step = .restart) (reads : v.Reads r { table := ref, tx })
    (same : v'.catalog = v.catalog) (ended : performScan r step v = .ok out v') :
    w.ahead (v'.scans.getD r default) = some (w.rowsFrom ref 0) := by
  rcases Nat.eq_zero_or_pos (v.catalog.table ref).pages with none | pages
  · obtain ⟨scans, reads, opened⟩ := performScan_opened opens reads ended
    have now := openScan_empty (v := { v with scans }) reads none opened
    have beyond : ∀ n, w.rowsFrom ref n = [] :=
      fun n => h.rowsFrom_beyond (by rw [same, none]; exact Nat.zero_le n)
    rw [now, beyond 0]
    exact congrArg some (beyond 1)
  · obtain ⟨held, now⟩ := performScan_opens opens reads pages ended
    rw [now, h.rowsFrom held]
    rfl

/-- A search for a row passes pages without rows only, so the same rows are ahead afterwards. If it may
pass all pages it finds one of them. -/
theorem seek_ahead {more : Bool} (h : Shows tx ref v v' w) (reads : v.Reads r { table := ref, tx })
    (left : w.ahead (v.scans.getD r default) = some rows) (ended : seek r fuel v = .ok more v') :
    w.ahead (v'.scans.getD r default) = some rows ∧ (v'.scans.getD r default).table = ref ∧
      (0 < fuel → (v.catalog.table ref).pages ≤ (v.scans.getD r default).page + fuel →
        more = !rows.isEmpty ∧ ∀ row rows', rows = row :: rows' →
          ∃ rest, (v'.scans.getD r default).rest = some (row :: rest)) := by
  induction fuel generalizing v with
  | zero =>
    cases ended
    exact ⟨left, reads.2.1.symm, fun never => absurd never (Nat.lt_irrefl 0)⟩
  | succ fuel ih =>
    obtain ⟨valid, table, mover⟩ := reads
    replace ended := scan_bind_eq_ok_iff.mp ended
    generalize at_r : v.scans.getD r default = here at *
    dsimp only at table mover
    subst table mover
    obtain ⟨rest, unread, rfl⟩ := Option.map_eq_some_iff.mp left
    rw [unread] at ended
    cases rest with
    | cons row rest =>
      cases ended
      rw [at_r]
      exact ⟨left, rfl, fun _ _ => ⟨rfl, fun row' rows' same => ⟨rest, by cases same; exact unread⟩⟩⟩
    | nil =>
      obtain ⟨n, x, counted, ended⟩ := bind_eq_ok_iff.mp ended
      obtain ⟨rfl, rfl⟩ := pageCount_ok counted
      split at ended
      · rename_i last
        cases ended
        have none := h.rowsFrom_beyond last
        rw [at_r, none]
        exact ⟨by rw [left, none], rfl, fun _ _ => ⟨rfl, fun _ _ never => by cases never⟩⟩
      · obtain ⟨_, x, set, ended⟩ := bind_eq_ok_iff.mp ended
        rw [setScan_eq] at set
        cases set
        obtain ⟨fresh, x, fetched, ended⟩ := bind_eq_ok_iff.mp ended
        obtain ⟨⟨locks, rfl⟩, held, read⟩ := fetchRows_ok fetched
        obtain ⟨_, x, set, ended⟩ := bind_eq_ok_iff.mp ended
        rw [setScan_eq] at set
        cases set
        -- the rows of the next page have been read, and the search goes on from there
        let next : Scan := { here with page := here.page + 1, rest := some [] }
        let seen : Scan := { next with rest := some fresh }
        let z : Plain :=
          { v with locks, scans := (v.scans.setIfInBounds r next).setIfInBounds r seen }
        have size : r < (v.scans.setIfInBounds r next).size := by simpa using valid
        have now : z.scans.getD r default = seen := getD_setIfInBounds size seen
        have reads : z.Reads r { table := here.table, tx := here.tx } :=
          ⟨by simpa [z] using valid, by rw [now], by rw [now]⟩
        have kept := ((moving_seek fuel reads).of_ok ended).locks.kept _ _ _ held
        have onward : w.ahead seen = some (fresh ++ w.rowsFrom here.table (here.page + 2)) := rfl
        obtain ⟨ahead, table, finds⟩ := ih (v := z) ⟨h.known, h.table, h.agree, h.blank⟩ reads
          (by rw [now, onward, read, List.nil_append, h.rowsFrom kept]; rfl) ended
        refine ⟨ahead, table, fun _ enough => finds (by omega) ?_⟩
        rw [now]
        simp only [z, seen, next]
        omega

theorem hasNext_ahead {more : Bool} (h : Shows tx ref v v' w) (reads : v.Reads r { table := ref, tx })
    (left : w.ahead (v.scans.getD r default) = some rows) (ended : hasNext r v = .ok more v') :
    more = !rows.isEmpty ∧ w.ahead (v'.scans.getD r default) = some rows ∧
      (v'.scans.getD r default).table = ref ∧ ∀ row rows', rows = row :: rows' →
        ∃ rest, (v'.scans.getD r default).rest = some (row :: rest) := by
  replace ended := scan_bind_eq_ok_iff.mp ended
  replace ended := get_bind_eq_ok_iff.mp ended
  have table : (v.scans.getD r default).table = ref := reads.2.1.symm
  rw [table] at ended
  obtain ⟨ahead, table, finds⟩ := seek_ahead h reads left ended
  obtain ⟨more, found⟩ := finds (by omega) (by omega)
  exact ⟨more, ahead, table, found⟩

theorem nextRow_ahead (h : Shows tx ref v v' w) (reads : v.Reads r { table := ref, tx })
    (left : w.ahead (v.scans.getD r default) = some rows) (ended : nextRow r v = .ok row v') :
    ∃ rows', rows = row :: rows' ∧ w.ahead (v'.scans.getD r default) = some rows' := by
  obtain ⟨more, x, searched, ended⟩ := bind_eq_ok_iff.mp ended
  have moves := (moving_hasNext reads).of_ok searched
  cases more with
  | false => cases ended
  | true =>
    replace ended := scan_bind_eq_ok_iff.mp ended
    have valid := Nat.lt_of_lt_of_le reads.1 moves.size
    generalize at_r : x.scans.getD r default = here at *
    -- the locks are all taken by now
    have shows : ∀ scans, v' = { x with scans } → Shows tx ref v x w := by
      rintro scans rfl
      exact ⟨h.known, h.table, h.agree, h.blank⟩
    cases unread : here.rest with
    | none =>
      rw [unread] at ended
      cases ended
    | some rest =>
      cases rest with
      | nil =>
        rw [unread] at ended
        cases ended
      | cons row' rest =>
        rw [unread] at ended
        obtain ⟨_, y, set, ended⟩ := bind_eq_ok_iff.mp ended
        rw [setScan_eq] at set
        cases set
        cases ended
        obtain ⟨-, left', table, -⟩ := hasNext_ahead (shows _ rfl) reads left searched
        rw [at_r, ahead, unread] at left'
        cases left'
        refine ⟨rest ++ w.rowsFrom here.table (here.page + 1), rfl, ?_⟩
        simp [getD_setIfInBounds valid, ahead]

/-! The same scan on both sides -/

/-- Both scans are open and have the same rows left. -/
structure Abreast (tx : TxId) (v w : Plain) (r r' : ScanRef) : Prop where
  held : v.locks.Held tx ⟨(v.catalog.table (v.scans.getD r default).table).id, 0⟩ .shared
  left : ∃ rows, w.ahead (v.scans.getD r default) = some rows ∧
    w.ahead (w.scans.getD r' default) = some rows

theorem Mirrors.shows (h : Mirrors tx u v v' w) {mode : LockMode}
    (known : v.catalog.ref (v.catalog.table ref).id = .ok ref)
    (held : v'.locks.Held tx ⟨(v.catalog.table ref).id, 0⟩ mode) : Shows tx ref v v' w :=
  ⟨by rw [h.kin.key, h.kin.ref, known], h.kin.table ref, fun n => h.agree _,
    h.blank ref mode known held⟩

theorem Mirrors.readable (h : Mirrors tx u v v' w)
    (known : v.catalog.ref (v.catalog.table ref).id = .ok ref) : w.Readable u ref := by
  have known' : w.catalog.ref (w.catalog.table ref).id = .ok ref := by
    rw [h.kin.key, h.kin.ref, known]
  refine ⟨Or.inl h.sole.patient, known', ?_, fun number _ => h.whole _ _ known',
    fun v id held => h.sole.mine v id _ held⟩
  rw [h.kin.pageSize]
  exact Nat.ne_of_gt (Table.pageSize_pos_of_lt (h.paged _ _ known))

theorem Mirrors.withScans (h : Mirrors tx u v v' w) (scans scans' : Array Scan) :
    Mirrors tx u { v with scans } v' { w with scans := scans' } :=
  ⟨h.keyed, h.paged, h.paged', h.kin, ⟨h.sole.patient, h.sole.mine⟩, h.agree, h.blank, h.whole⟩

/-- A scan that has these rows ahead. -/
theorem Mirrors.scanning (h : Mirrors tx u v v' w)
    (known : v.catalog.ref (v.catalog.table ref).id = .ok ref)
    (reads' : w.Reads r' { table := ref, tx := u }) (left : w.ahead (w.scans.getD r' default) = some rows) :
    w.Scanning u r' ref rows := by
  obtain ⟨valid, table, mover⟩ := reads'
  obtain ⟨rest, unread, same⟩ := Option.map_eq_some_iff.mp left
  rw [← table] at same
  exact ⟨h.readable known, valid, table.symm, mover.symm, rest, unread, same⟩

theorem Scanning.ahead (h : w.Scanning u r' ref rows) : w.ahead (w.scans.getD r' default) = some rows := by
  obtain ⟨-, -, table, -, rest, unread, same⟩ := h
  rw [Plain.ahead, unread, table, ← same]
  rfl

/-- The pages before a scan are still the same when the other side has taken its step. -/
theorem Moves.ahead {own : Option ScanRef} (h : Moves u own w w')
    (known : w.catalog.ref (w.catalog.table sc.table).id = .ok sc.table) : w'.ahead sc = w.ahead sc := by
  rw [Plain.ahead, Plain.ahead, rowsFrom_congr h.kin known fun number _ => by rw [h.total]]

/-- Steps that move neither of the scans leave them abreast. -/
theorem Abreast.moves {t : TxId} {own own' : Option ScanRef} (h : Abreast tx v w r r')
    (moves : Moves t own v v') (moves' : Moves u own' w w') (other : own ≠ some r)
    (other' : own' ≠ some r') (kin : v.catalog.Kin w.catalog)
    (known : v.catalog.ref (v.catalog.table ref).id = .ok ref)
    (reads : v.Reads r { table := ref, tx }) (reads' : w.Reads r' { table := ref, tx := u }) :
    Abreast tx v' w' r r' := by
  obtain ⟨held, rows, left, left'⟩ := h
  have known' : w.catalog.ref (w.catalog.table ref).id = .ok ref := by rw [kin.key, kin.ref, known]
  refine ⟨?_, rows, ?_, ?_⟩
  · rw [moves.others r reads.1 other, moves.kin.key]
    exact moves.locks.kept _ _ _ held
  · rw [moves.others r reads.1 other, moves'.ahead (by rw [← reads.2.1]; exact known'), left]
  · rw [moves'.others r' reads'.1 other', moves'.ahead (by rw [← reads'.2.1]; exact known'), left']

theorem openScan_mirrors (h : Mirrors tx u v v' w)
    (known : v.catalog.ref (v.catalog.table ref).id = .ok ref)
    (reads : v.Reads r { table := ref, tx }) (reads' : w.Reads r' { table := ref, tx := u })
    (ended : openScan r v = .ok () v') :
    ∃ w', openScan r' w = .ok () w' ∧ Abreast tx v' w' r r' := by
  have moves := (moving_openScan reads).of_ok ended
  obtain ⟨held, now⟩ := openScan_ok reads (h.paged _ _ known) ended
  have shows := h.shows known held
  obtain ⟨w', ended', scanning, -⟩ :=
    openScan_eq (h.readable known) reads'.1 reads'.2.1.symm reads'.2.2.symm
  have moves' := (moving_openScan reads').of_ok ended'
  refine ⟨w', ended', ?_, w.rowsFrom ref 0, ?_, scanning.ahead⟩
  · rw [now, moves.kin.key]
    exact held
  · rw [now, moves'.ahead shows.known, shows.rowsFrom held]
    rfl

/-- Steps of scans that are abreast tell the same and leave them abreast. -/
theorem performScan_mirrors {step : ScanStep} (h : Mirrors tx u v v' w)
    (known : v.catalog.ref (v.catalog.table ref).id = .ok ref)
    (reads : v.Reads r { table := ref, tx }) (reads' : w.Reads r' { table := ref, tx := u })
    (live : step = .hasNext ∨ step = .next → Abreast tx v w r r')
    (ended : performScan r step v = .ok out v') : ∃ w', performScan r' step w = .ok out w' ∧
      (step ≠ .close → Abreast tx v' w' r r') := by
  have moves := (moving_performScan reads step).of_ok ended
  have moving' := moving_performScan reads' step
  have here : (v.scans.getD r default).table = ref := reads.2.1.symm
  have there : (v'.scans.getD r default).table = ref := by rw [moves.table r reads.1, here]
  have kept : v.locks.Held tx ⟨(v.catalog.table (v.scans.getD r default).table).id, 0⟩ .shared →
      v'.locks.Held tx ⟨(v.catalog.table ref).id, 0⟩ .shared ∧
      v'.locks.Held tx ⟨(v'.catalog.table (v'.scans.getD r default).table).id, 0⟩ .shared := by
    intro held
    rw [here] at held
    rw [there, moves.kin.key]
    exact ⟨moves.locks.kept _ _ _ held, moves.locks.kept _ _ _ held⟩
  cases step with
  | start =>
    obtain ⟨a, x, done, rest⟩ := bind_eq_ok_iff.mp ended
    cases rest
    obtain ⟨w', done', abreast⟩ := openScan_mirrors h known reads reads' done
    exact ⟨w', by simp [performScan, bind_eq, done', pure_eq], fun _ => abreast⟩
  | hasNext =>
    obtain ⟨a, x, done, rest⟩ := bind_eq_ok_iff.mp ended
    cases rest
    obtain ⟨held, rows, left, right⟩ := live (Or.inl rfl)
    have shows := h.shows known (kept held).1
    obtain ⟨more, left', -⟩ := hasNext_ahead shows reads left done
    obtain ⟨w', done', scanning', -⟩ := hasNext_eq (h.scanning known reads' right)
    rw [← more] at done'
    have ended' : performScan r' .hasNext w = .ok ⟨.more a, none⟩ w' := by
      simp [performScan, bind_eq, done', pure_eq]
    refine ⟨w', ended', fun _ => ⟨(kept held).2, rows, ?_, scanning'.ahead⟩⟩
    rw [(moving'.of_ok ended').ahead (by rw [there]; exact shows.known), left']
  | next =>
    obtain ⟨a, x, done, rest⟩ := bind_eq_ok_iff.mp ended
    cases rest
    obtain ⟨held, rows, left, right⟩ := live (Or.inr rfl)
    have shows := h.shows known (kept held).1
    obtain ⟨rows', rfl, left'⟩ := nextRow_ahead shows reads left done
    obtain ⟨w', done', scanning', -⟩ := nextRow_eq (h.scanning known reads' right)
    have ended' : performScan r' .next w = .ok ⟨.row a, none⟩ w' := by
      simp [performScan, bind_eq, done', pure_eq]
    refine ⟨w', ended', fun _ => ⟨(kept held).2, rows', ?_, scanning'.ahead⟩⟩
    rw [(moving'.of_ok ended').ahead (by rw [there]; exact shows.known), left']
  | close =>
    cases ended
    exact ⟨_, rfl, fun never => absurd rfl never⟩
  | restart =>
    obtain ⟨a, x, done, rest⟩ := bind_eq_ok_iff.mp ended
    cases rest
    obtain ⟨_, y, closed, opened⟩ := bind_eq_ok_iff.mp done
    have moves : Moves tx (some r) v y := (moving_closeScan reads.1).of_ok closed
    have moves' : Moves u (some r') w _ := (moving_closeScan reads'.1).of_ok (closeScan_eq r' w)
    have first := moves.reads reads
    have first' := moves'.reads reads'
    rw [closeScan_eq] at closed
    cases closed
    have mirrors := h.withScans
      (v.scans.setIfInBounds r { v.scans.getD r default with rest := none })
      (w.scans.setIfInBounds r' { w.scans.getD r' default with rest := none })
    obtain ⟨w', done', abreast⟩ := openScan_mirrors mirrors known first first' opened
    exact ⟨w', by simp only [performScan, rewind, bind_eq, closeScan_eq, done', pure_eq], fun _ => abreast⟩

end HeapStore.Plain
