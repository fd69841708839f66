import HeapStore.Proofs.Browsing
import HeapStore.Proofs.Recovery
import HeapStore.Proofs.Tracing

/-! Scans are repeatable. From the first page that a scan reads on its transaction has the table to
itself as far as others could add to it, and every other page that it reads is left as it is too. -/
namespace HeapStore

/-- Whether the step may change a page. -/
def Op.alters : Op → Bool
  | .insert _ _ | .delete _ => true
  | .scan _ | .iterate _ _ => false

theorem alters_of_changeOf {e : Event} {reply : Reply} {tx : TxId} {id : PageId}
    (change : changeOf (e, reply) = some (tx, id)) : ∃ o, e = .op tx o ∧ o.alters = true := by
  unfold changeOf at change
  split at change
  · rename_i same
    cases same
    cases change
    exact ⟨_, rfl, rfl⟩
  · rename_i same
    cases same
    cases change
    exact ⟨_, rfl, rfl⟩
  · cases change

namespace Session
open Store

variable {M P S : Session} {es past : List Event} {e : Event} {reply : Reply} {s : Store}
  {tx u : TxId} {id : PageId} {settings : Settings} {disk : Disk} {ref : TableRef} {mode : LockMode}
  {o : Op} {k r : Nat} {st : ScanStep} {a : Answer} {rows left : List Row}

/-! Tables whose first page is held do not grow -/

theorem leaves_of_looking (h : S.store.Guarded) (told : S.outcome? (.op tx o) = some (reply, s))
    (reads : o.alters = false) : S.store.Leaves s := by
  obtain ⟨c, x, -, found, settled⟩ := settled_of_op told
  have looks : ∀ {x : Action Answer}, Looking x → settle x S.store = some (reply, s) →
      S.store.Leaves s := fun looking settled =>
    (settle_eq_some (looking S.store) settled).resolve_left (mapError_ne_crashed reply) h
  cases o with
  | insert _ _ | delete _ => cases reads
  | scan table =>
    cases found
    exact looks (looking_bind (looking_newScan tx table) fun _ => looking_pure _) settled
  | iterate k step =>
    obtain ⟨r, -, rfl⟩ := Option.map_eq_some_iff.mp found
    exact looks (looking_perform r step) settled

theorem catalog_of_looking (h : S.store.Guarded) (told : S.outcome? (.op tx o) = some (reply, s))
    (reads : o.alters = false) : s.catalog = S.store.catalog := (leaves_of_looking h told reads).same

/-- A table with pages grows only for a transaction that holds its first page. -/
theorem first_of_altering (h : S.store.Coherent) (assigned : S.Assigned)
    (told : S.outcome? (.op tx o) = some (reply, s)) (alters : o.alters = true) (ref : TableRef) :
    (S.store.catalog.table ref).pages = 0 ∨
      (s.catalog.table ref).pages = (S.store.catalog.table ref).pages ∨
      s.locks.Held tx ⟨(S.store.catalog.table ref).id, 0⟩ .exclusive := by
  obtain ⟨c, y, client, plain, taken⟩ := op_taken h told
  have moving := Plain.moving_perform plain (v := S.store.view) h.guarded.keyed (assigned tx c client).2
  cases taken with
  | stuck f s iterates => cases o <;> cases alters <;> cases iterates
  | refused f s ended upkeep => exact (moving.of_error ended).first ref
  | answered out t s ended upkeep applied =>
    rw [applied.catalog, applied.locks]
    exact (moving.of_ok ended).first ref

/-- What is left of a run in which a transaction only reads, and does not end. -/
structure Reading (tx : TxId) (ref : TableRef) (es : List Event) (P S : Session) : Prop where
  ran : P.run es = some S
  distinct : S.store.catalog.Distinct
  running : S.running tx = true
  old : tx < P.store.nextTx
  reads : ∀ o, .op tx o ∈ es → o.alters = false
  kept : ∀ id, .discard id ∉ es
  known : P.store.catalog.ref (P.store.catalog.table ref).id = .ok ref
  paged : 0 < (P.store.catalog.table ref).pages

theorem Reading.unchanged (h : Reading tx ref es P S) : (tx, id) ∉ P.changes es := by
  intro changed
  obtain ⟨⟨Q, e, reply⟩, listed, change⟩ := List.mem_filterMap.mp changed
  obtain ⟨o, rfl, alters⟩ := alters_of_changeOf change
  have reads := h.reads o (mem_of_mem_trace listed)
  rw [alters] at reads
  cases reads

/-- The next step of the run is taken. -/
structure Along (settings : Settings) (tx : TxId) (ref : TableRef) (e : Event) (reply : Reply) (s : Store)
    (es : List Event) (P S : Session) : Prop where
  reading : Reading tx ref (e :: es) P S
  orderly : Orderly settings P
  told : P.outcome? e = some (reply, s)
  after : Orderly settings (P.after e reply s)
  ran : (P.after e reply s).run es = some S

theorem Along.table (h : Along settings tx ref e reply s es P S) : s.catalog.table ref =
    { P.store.catalog.table ref with length := (s.catalog.table ref).length } :=
  ((h.orderly.impact h.told).table h.after.distinct h.reading.known).2.1

theorem Along.key (h : Along settings tx ref e reply s es P S) :
    (s.catalog.table ref).id = (P.store.catalog.table ref).id := by
  rw [h.table]

theorem Along.later (h : Along settings tx ref e reply s es P S) :
    Reading tx ref es (P.after e reply s) S := by
  obtain ⟨known, -, pages⟩ := (h.orderly.impact h.told).table h.after.distinct h.reading.known
  refine ⟨h.ran, h.reading.distinct, h.reading.running,
    Nat.lt_of_lt_of_le h.reading.old (nextTx_of_step h.orderly.guarded h.told),
    fun o listed => h.reading.reads o (List.mem_cons_of_mem _ listed),
    fun id listed => h.reading.kept id (List.mem_cons_of_mem _ listed), ?_,
    Nat.lt_of_lt_of_le h.reading.paged pages⟩
  change s.catalog.ref (s.catalog.table ref).id = .ok ref
  rw [h.key, known]

theorem Along.running (h : Along settings tx ref e reply s es P S) :
    (P.after e reply s).running tx = true :=
  h.after.running_run h.ran h.reading.distinct h.reading.running h.later.old

/-- While a transaction holds the first page of a table and does not add to it itself, nobody does. -/
theorem Along.pages (h : Along settings tx ref e reply s es P S)
    (held : s.locks.Held tx ⟨(P.store.catalog.table ref).id, 0⟩ mode) :
    (s.catalog.table ref).pages = (P.store.catalog.table ref).pages := by
  have op : ∀ u o, e = .op u o →
      (s.catalog.table ref).pages = (P.store.catalog.table ref).pages := by
    rintro u o rfl
    cases alters : o.alters with
    | false => rw [catalog_of_looking h.orderly.guarded h.told alters]
    | true =>
      rcases first_of_altering h.orderly.coherent h.orderly.assigned h.told alters ref with
        none | same | first
      · exact absurd none (Nat.ne_of_gt h.reading.paged)
      · exact same
      · cases h.after.guarded.locks u tx _ mode first held
        have reads := h.reading.reads o (List.mem_cons_self ..)
        rw [alters] at reads
        cases reads
  cases h.orderly.impact h.told with
  | begun first store => rw [store]
  | looked u o own upkeep idle => exact op u o own
  | changed u o id bytes t own running alters upkeep rewritten change => exact op u o own
  | completed u b ends holds completed => rw [completed.rest]
  | landed p b flushes landed holds => rw [landed.rest]
  | opened new adds opened => rw [(opened.kept h.after.distinct _ _ h.reading.known).2]

theorem Reading.pages_run (h : Reading tx ref es P S) (orderly : Orderly settings P)
    (held : P.store.locks.Held tx ⟨(P.store.catalog.table ref).id, 0⟩ mode) :
    (S.store.catalog.table ref).pages = (P.store.catalog.table ref).pages := by
  have ran := h.ran
  have distinct := h.distinct
  revert h held
  refine orderly.run_induction ran distinct ?_ ?_
  · exact fun _ _ _ => rfl
  · intro P e es reply s orderly told after ran ih h held
    have along : Along settings tx ref e reply s es P S := ⟨h, orderly, told, after, ran⟩
    have held' := held_of_step orderly.guarded told along.running held
    exact (ih along.later (along.key ▸ held')).trans (along.pages held')

/-! Steps of a scan -/

theorem performScan_of_iterate (h : S.store.Coherent)
    (told : S.outcome? (.op tx (.iterate k st)) = some (.ok a, s))
    (used : S.used? (.op tx (.iterate k st)) = some r) :
    Plain.performScan r st S.store.view = .ok ⟨a, none⟩ s.view := by
  obtain ⟨c, y, client, plain, taken⟩ := op_taken h told
  obtain ⟨r', mine, rfl⟩ := Option.map_eq_some_iff.mp plain
  have same : r' = r := by simpa [used?, client, mine] using used
  subst same
  cases taken with
  | answered out t s ended upkeep applied =>
    have quiet := Plain.performScan_quiet ended
    rw [quiet] at applied
    cases applied
    rw [ended, ← quiet]

/-- What the transaction holds in the end shows in the end. -/
theorem Along.shows (h : Along settings tx ref e reply s es P S) (same : s.total = P.store.total)
    (held : s.locks.Held tx ⟨(P.store.catalog.table ref).id, 0⟩ mode) :
    Plain.Shows tx ref P.store.view s.view S.store.view := by
  have distinct := h.reading.distinct
  obtain ⟨known, table, -⟩ := h.orderly.table_run h.reading.ran distinct h.reading.known
  have pages : (S.store.catalog.table ref).pages = (s.catalog.table ref).pages :=
    h.later.pages_run h.after (h.key.symm ▸ held)
  have here : s.catalog.ref (P.store.catalog.table ref).id = .ok ref := h.key ▸ h.later.known
  refine ⟨?_, table, fun n mode held => ?_, fun n beyond => ?_⟩
  · change S.store.catalog.ref (S.store.catalog.table ref).id = .ok ref
    rw [table, known]
  · have kept := h.after.total_run h.ran distinct h.reading.running h.later.old held here
      h.later.unchanged (h.later.kept _)
    exact kept.trans (congrFun same _)
  · have there : S.store.catalog.ref (PageId.mk (P.store.catalog.table ref).id n).table = .ok ref := known
    have lacks : ¬S.store.catalog.Has ⟨(P.store.catalog.table ref).id, n⟩ := by
      rw [Catalog.has_iff there, pages]
      exact Nat.not_lt_of_le beyond
    refine (total_of_lacks lacks).trans ?_
    rw [Catalog.blank_of_ref there, table]
    rfl

theorem used?_iterate_iff : S.used? (.op tx (.iterate k st)) = some r ↔
    ∃ c, S.clients.get? tx = some c ∧ c.scans[k]? = some r :=
  Option.bind_eq_some_iff

/-- A session forgets no transaction. -/
theorem client_of_step {c : Client} (told : S.outcome? e = some (reply, s)) (old : tx < S.store.nextTx)
    (client : S.clients.get? tx = some c) : ∃ c', (S.after e reply s).clients.get? tx = some c' := by
  have updated : ∀ u f, ∃ c', (S.update u f).get? tx = some c' := by
    intro u f
    rw [get?_update, client]
    split
    · exact ⟨f c, rfl⟩
    · exact ⟨c, rfl⟩
  cases e with
  | begin =>
    cases told
    exact ⟨c, ((Assoc.get?_insert ..).trans (if_neg (Nat.ne_of_lt old))).trans client⟩
  | op u o => exact updated u _
  | commit u | abort u | drop u => exact updated u _
  | flushPage _ | flushAll | discard _ | addTable _ => exact ⟨c, client⟩

theorem used_of_step (told : S.outcome? e = some (reply, s)) (old : tx < S.store.nextTx)
    (used : S.used? (.op tx (.iterate k st)) = some r) :
    (S.after e reply s).used? (.op tx (.iterate k st)) = some r := by
  obtain ⟨c, client, mine⟩ := used?_iterate_iff.mp used
  obtain ⟨c', client'⟩ := client_of_step told old client
  refine used?_iterate_iff.mpr ⟨c', client', ?_⟩
  rcases scans_after client' with ⟨⟨rfl, began⟩, -⟩ | ⟨c'', again, same | ⟨-, more⟩⟩
  · cases told
    cases began
    exact absurd old (Nat.lt_irrefl _)
  · cases client.symm.trans again
    rw [same, mine]
  · cases client.symm.trans again
    rw [more, List.getElem?_append_left (List.getElem?_eq_some_iff.mp mine).1, mine]

/-- A scan is used by its own steps only. -/
theorem iterates_of_used (h : S.Assigned) (used : S.used? (.op tx (.iterate k .start)) = some r)
    (same : S.used? e = some r) : ∃ st, e = .op tx (.iterate k st) := by
  obtain ⟨c, client, mine⟩ := used?_iterate_iff.mp used
  cases e with
  | op u o =>
    cases o with
    | iterate j st =>
      obtain ⟨c', client', mine'⟩ := used?_iterate_iff.mp same
      have mover := ((h tx c client).2 r (List.mem_of_getElem? mine)).2
      have mover' := ((h u c' client').2 r (List.mem_of_getElem? mine')).2
      cases mover.symm.trans mover'
      cases client.symm.trans client'
      have below := (List.getElem?_eq_some_iff.mp mine).1
      have place := (List.getElem?_inj below (h tx c client).1).mp (mine.trans mine'.symm)
      exact ⟨st, by rw [place]⟩
    | insert _ _ | delete _ | scan _ => cases same
  | begin | commit _ | abort _ | drop _ | flushPage _ | flushAll | discard _ | addTable _ => cases same

/-- The scan that has number `k` among those of the transaction reads the table. -/
structure Scans (tx : TxId) (k r : Nat) (ref : TableRef) (P : Session) : Prop where
  used : P.used? (.op tx (.iterate k .start)) = some r
  table : (P.store.scans.getD r default).table = ref

instance : Decidable (Scans tx k r ref P) :=
  decidable_of_iff (P.used? (.op tx (.iterate k .start)) = some r ∧
    (P.store.scans.getD r default).table = ref) ⟨fun h => ⟨h.1, h.2⟩, fun h => ⟨h.used, h.table⟩⟩

theorem Scans.reads (h : Scans tx k r ref P) (assigned : P.Assigned) :
    P.store.view.Reads r { table := ref, tx } := by
  obtain ⟨c, client, mine⟩ := used?_iterate_iff.mp h.used
  obtain ⟨valid, mover⟩ := (assigned tx c client).2 r (List.mem_of_getElem? mine)
  exact ⟨valid, h.table.symm, mover.symm⟩

theorem Scans.after (h : Scans tx k r ref P) (assigned : P.Assigned) (old : tx < P.store.nextTx)
    (told : P.outcome? e = some (reply, s)) : Scans tx k r ref (P.after e reply s) :=
  ⟨used_of_step told old h.used, ((assigned.sparse told).table r (h.reads assigned).1).trans h.table⟩

/-- The scan has these rows left, if `w` shows what is on the pages before it. -/
structure Underway (tx : TxId) (k r : Nat) (ref : TableRef) (left : List Row) (P : Session)
    (w : Plain) : Prop extends Scans tx k r ref P where
  left : w.ahead (P.store.scans.getD r default) = some left

variable {w : Plain}

theorem Underway.other (h : Underway tx k r ref left P w) (steady : Steady settings P)
    (old : tx < P.store.nextTx) (told : P.outcome? e = some (reply, s))
    (other : ∀ st, e ≠ .op tx (.iterate k st)) : Underway tx k r ref left (P.after e reply s) w := by
  have assigned := steady.assigned
  refine ⟨h.toScans.after steady.assigned old told, ?_⟩
  change w.ahead (s.scans.getD r default) = some left
  rw [(assigned.sparse told).others r (h.reads assigned).1 fun same => ?_, h.left]
  obtain ⟨st, rfl⟩ := iterates_of_used assigned h.used same
  exact other st rfl

theorem Scans.opens (h : Scans tx k r ref P) (steady : Steady settings P) (old : tx < P.store.nextTx)
    (told : P.outcome? (.op tx (.iterate k st)) = some (.ok a, s))
    (shows : Plain.Shows tx ref P.store.view s.view w) (opens : st = .start ∨ st = .restart) :
    Underway tx k r ref (w.rowsFrom ref 0) (P.after (.op tx (.iterate k st)) (.ok a) s) w := by
  have ended := performScan_of_iterate steady.coherent told h.used
  have same : s.view.catalog = P.store.view.catalog := catalog_of_looking steady.guarded told rfl
  have ahead := Plain.performScan_ahead shows opens (h.reads steady.assigned) same ended
  exact ⟨h.after steady.assigned old told, ahead⟩

theorem Underway.hasNext {more : Bool} (h : Underway tx k r ref left P w) (steady : Steady settings P)
    (old : tx < P.store.nextTx)
    (told : P.outcome? (.op tx (.iterate k .hasNext)) = some (.ok (.more more), s))
    (shows : Plain.Shows tx ref P.store.view s.view w) : more = !left.isEmpty ∧
      Underway tx k r ref left (P.after (.op tx (.iterate k .hasNext)) (.ok (.more more)) s) w := by
  have ended := performScan_of_iterate steady.coherent told h.used
  obtain ⟨b, v, searched, rest⟩ := Plain.bind_eq_ok_iff.mp ended
  cases rest
  obtain ⟨same, progress, -⟩ :=
    Plain.hasNext_ahead shows (h.reads steady.assigned) h.left searched
  exact ⟨same, h.toScans.after steady.assigned old told, progress⟩

theorem Underway.next {row : Row} (h : Underway tx k r ref left P w) (steady : Steady settings P)
    (old : tx < P.store.nextTx)
    (told : P.outcome? (.op tx (.iterate k .next)) = some (.ok (.row row), s))
    (shows : Plain.Shows tx ref P.store.view s.view w) : ∃ left', left = row :: left' ∧
      Underway tx k r ref left' (P.after (.op tx (.iterate k .next)) (.ok (.row row)) s) w := by
  have ended := performScan_of_iterate steady.coherent told h.used
  obtain ⟨b, v, searched, rest⟩ := Plain.bind_eq_ok_iff.mp ended
  cases rest
  obtain ⟨left', same, progress⟩ :=
    Plain.nextRow_ahead shows (h.reads steady.assigned) h.left searched
  exact ⟨left', same, h.toScans.after steady.assigned old told, progress⟩

/-- A step that starts the scan locks the first page of its table. -/
theorem Along.opened (along : Along settings tx ref (.op tx (.iterate k st)) (.ok a) s es P S)
    (h : Scans tx k r ref P) (opens : st = .start ∨ st = .restart) :
    s.locks.Held tx ⟨(P.store.catalog.table ref).id, 0⟩ .shared := by
  have ended := performScan_of_iterate along.orderly.coherent along.told h.used
  exact (Plain.performScan_opens opens (h.reads along.orderly.assigned) along.reading.paged ended).1

/-- While the first page is held, what a step of the scan comes to read shows in the end. -/
theorem Along.scans (along : Along settings tx ref (.op tx (.iterate k st)) (.ok a) s es P S)
    (h : Scans tx k r ref P) (held : s.locks.Held tx ⟨(P.store.catalog.table ref).id, 0⟩ .shared) :
    Plain.Shows tx ref P.store.view s.view S.store.view := by
  have ended := performScan_of_iterate along.orderly.coherent along.told h.used
  have moves := (Plain.moving_performScan (h.reads along.orderly.assigned) st).of_ok ended
  exact along.shows moves.total held

/-! Full scans -/

/-- The steps of the `k`-th scan of a transaction, with what they were told. -/
def scanSteps (tx : TxId) (k : Nat) (trace : List (Session × Event × Reply)) : List (ScanStep × Reply) :=
  trace.filterMap fun step => match step.2.1 with
    | .op u (.iterate j st) => if u = tx ∧ j = k then some (st, step.2.2) else none
    | _ => none

/-- The rows told by steps that go on until no row is left. -/
def restRows? : List (ScanStep × Reply) → Option (List Row)
  | [(.hasNext, .ok (.more false))] => some []
  | (.hasNext, .ok (.more true)) :: steps => restRows? steps
  | (.next, .ok (.row row)) :: steps => (restRows? steps).map (row :: ·)
  | _ => none

/-- The rows told by steps that start a scan and go on until no row is left. -/
def fullScan? : List (ScanStep × Reply) → Option (List Row)
  | (.start, .ok .done) :: steps => restRows? steps
  | (.restart, .ok .done) :: steps => restRows? steps
  | _ => none

theorem scanSteps_own (told : P.outcome? (.op tx (.iterate k st)) = some (reply, s)) :
    scanSteps tx k (P.trace (.op tx (.iterate k st) :: es)) =
      (st, reply) :: scanSteps tx k ((P.after (.op tx (.iterate k st)) reply s).trace es) := by
  simp [scanSteps, trace_cons told]

theorem scanSteps_other (told : P.outcome? e = some (reply, s))
    (other : ∀ st, e ≠ .op tx (.iterate k st)) :
    scanSteps tx k (P.trace (e :: es)) = scanSteps tx k ((P.after e reply s).trace es) := by
  unfold scanSteps
  rw [trace_cons told, List.filterMap_cons]
  split
  · rfl
  · rename_i found
    dsimp only at found
    split at found
    · split at found
      · rename_i same
        obtain ⟨rfl, rfl⟩ := same
        exact absurd rfl (other _)
      · cases found
    · cases found

theorem restRows?_cons {steps : List (ScanStep × Reply)}
    (told : restRows? ((st, reply) :: steps) = some rows) :
    (st = .hasNext ∧ reply = .ok (.more false) ∧ rows = []) ∨
    (st = .hasNext ∧ reply = .ok (.more true) ∧ restRows? steps = some rows) ∨
    ∃ row rows', st = .next ∧ reply = .ok (.row row) ∧ restRows? steps = some rows' ∧
      rows = row :: rows' := by
  unfold restRows? at told
  split at told
  · rename_i same
    cases same
    cases told
    exact Or.inl ⟨rfl, rfl, rfl⟩
  · rename_i same
    cases same
    exact Or.inr (Or.inl ⟨rfl, rfl, told⟩)
  · rename_i same
    cases same
    obtain ⟨rows', later, rfl⟩ := Option.map_eq_some_iff.mp told
    exact Or.inr (Or.inr ⟨_, rows', rfl, rfl, later, rfl⟩)
  · cases told

theorem fullScan?_cons {steps : List (ScanStep × Reply)}
    (told : fullScan? ((st, reply) :: steps) = some rows) :
    (st = .start ∨ st = .restart) ∧ reply = .ok .done ∧ restRows? steps = some rows := by
  unfold fullScan? at told
  split at told
  · rename_i same
    cases same
    exact ⟨Or.inl rfl, rfl, told⟩
  · rename_i same
    cases same
    exact ⟨Or.inr rfl, rfl, told⟩
  · cases told

theorem Reading.along (h : Reading tx ref (e :: es) P S) (orderly : Orderly settings P) :
    ∃ reply s, Along settings tx ref e reply s es P S := by
  obtain ⟨T, stepped, ran⟩ := Option.bind_eq_some_iff.mp ((run_cons P e es).symm.trans h.ran)
  obtain ⟨past, isolated⟩ := orderly.isolated
  have distinct := ((isolated.step stepped).extends_run ran).distinct h.distinct
  obtain ⟨reply, s, told, rfl⟩ := outcome?_of_step stepped
  exact ⟨reply, s, h, orderly, told, orderly.step told distinct, ran⟩

variable {before within later : List Event}

theorem Reading.run (h : Reading tx ref (before ++ es) M S) (orderly : Orderly settings M)
    (ran : M.run before = some P) : Reading tx ref es P S ∧ Orderly settings P := by
  induction before generalizing M with
  | nil =>
    cases ran
    exact ⟨h, orderly⟩
  | cons e before ih =>
    have onward : Reading tx ref (e :: (before ++ es)) M S := h
    obtain ⟨reply, s, along⟩ := onward.along orderly
    rw [run_cons, step_of_outcome? along.told] at ran
    exact ih along.later along.after ran

/-- A scan tells what it has left. -/
theorem Underway.tells (h : Underway tx k r ref left P S.store.view)
    (held : P.store.locks.Held tx ⟨(P.store.catalog.table ref).id, 0⟩ .shared)
    (reading : Reading tx ref (within ++ later) P S) (orderly : Orderly settings P)
    (told : restRows? (scanSteps tx k (P.trace within)) = some rows) : rows = left := by
  induction within generalizing P left rows with
  | nil => cases told
  | cons e within ih =>
    have reading : Reading tx ref (e :: (within ++ later)) P S := reading
    obtain ⟨reply, s, along⟩ := reading.along orderly
    have held := held_of_step orderly.guarded along.told along.running held
    have held' := along.key.symm ▸ held
    by_cases own : ∃ st, e = .op tx (.iterate k st)
    · obtain ⟨st, rfl⟩ := own
      rw [scanSteps_own along.told] at told
      rcases restRows?_cons told with
        ⟨rfl, rfl, rfl⟩ | ⟨rfl, rfl, rest⟩ | ⟨row, rows', rfl, rfl, rest, rfl⟩
      · obtain ⟨last, -⟩ := h.hasNext orderly.toSteady reading.old along.told (along.scans h.toScans held)
        cases left with
        | nil => rfl
        | cons row left => cases last
      · obtain ⟨-, onward⟩ :=
          h.hasNext orderly.toSteady reading.old along.told (along.scans h.toScans held)
        exact ih onward held' along.later along.after rest
      · obtain ⟨left', rfl, onward⟩ :=
          h.next orderly.toSteady reading.old along.told (along.scans h.toScans held)
        rw [ih onward held' along.later along.after rest]
    · rw [scanSteps_other along.told fun st same => own ⟨st, same⟩] at told
      have onward := h.other orderly.toSteady reading.old along.told fun st same => own ⟨st, same⟩
      exact ih onward held' along.later along.after told

/-- A full scan tells the rows that the table has in the end. -/
theorem Scans.tells (h : Scans tx k r ref P) (reading : Reading tx ref (within ++ later) P S)
    (orderly : Orderly settings P)
    (told : fullScan? (scanSteps tx k (P.trace within)) = some rows) :
    rows = S.store.view.rowsFrom ref 0 := by
  induction within generalizing P with
  | nil => cases told
  | cons e within ih =>
    have reading : Reading tx ref (e :: (within ++ later)) P S := reading
    obtain ⟨reply, s, along⟩ := reading.along orderly
    by_cases own : ∃ st, e = .op tx (.iterate k st)
    · obtain ⟨st, rfl⟩ := own
      rw [scanSteps_own along.told] at told
      obtain ⟨opens, rfl, told⟩ := fullScan?_cons told
      have held := along.opened h opens
      have started := h.opens orderly.toSteady reading.old along.told (along.scans h held) opens
      exact started.tells (along.key.symm ▸ held) along.later along.after told
    · rw [scanSteps_other along.told fun st same => own ⟨st, same⟩] at told
      exact ih (h.after orderly.assigned reading.old along.told) along.later along.after told

/-- At some time in the run the transaction scans the whole table, and is told these rows. Anything
else may happen in between. -/
def FullScan (M : Session) (es : List Event) (tx : TxId) (ref : TableRef) (rows : List Row) : Prop :=
  ∃ before within later P k r, es = before ++ (within ++ later) ∧ M.run before = some P ∧
    Scans tx k r ref P ∧ fullScan? (scanSteps tx k (P.trace within)) = some rows

/-- Scans are repeatable. Two full scans of a table by a transaction that has not ended and that
changes nothing itself tell the same rows in the same order, whatever others do in the meantime, if the
table has a page by the time of the first one. -/
theorem scans_repeatable (ran : (start (Store.new settings disk)).run past = some M)
    (ran' : M.run es = some S) (distinct : S.store.catalog.Distinct)
    (before : M.running tx = true) (after : S.running tx = true)
    (reads : ∀ o, .op tx o ∈ es → o.alters = false) (kept : ∀ id, .discard id ∉ es) {i : TableId}
    (known : M.store.catalog.ref i = .ok ref) (paged : 0 < (M.store.catalog.table ref).pages)
    {rows' : List Row} (first : FullScan M es tx ref rows) (second : FullScan M es tx ref rows') :
    rows' = rows := by
  have isolated := isolated_run ran
  have orderly : Orderly settings M := orderly_run ran ((isolated.extends_run ran').distinct distinct)
  obtain ⟨-, key⟩ := orderly.guarded.keyed _ _ known
  have reading : Reading tx ref es M S :=
    ⟨ran', distinct, after, isolated.started tx before, reads, kept, key.symm ▸ known, paged⟩
  have told : ∀ rows, FullScan M es tx ref rows → rows = S.store.view.rowsFrom ref 0 := by
    rintro rows ⟨before, within, later, P, k, r, rfl, ran, scans, told⟩
    obtain ⟨reading, orderly⟩ := reading.run orderly ran
    exact scans.tells reading orderly told
  rw [told rows first, told rows' second]

/-- Meanwhile another transaction asks for the page in vain. -/
def denied : List Event :=
  [.op 2 (.iterate 0 .start), .begin, .op 3 (.insert 1 ⟨⟨[⟨.integer, some "n"⟩]⟩, [.integer 8], none⟩),
    .op 2 (.iterate 0 .hasNext), .op 2 (.iterate 0 .next), .op 2 (.iterate 0 .hasNext)]

theorem scans_repeatable_denied :
    let schema : Schema := ⟨[⟨.integer, some "n"⟩]⟩
    ∃ M S rows rows', (start (Store.new { pageSize := 16, poolPages := 1 })).run
        [.addTable (.create "odd" "odd" schema "n"), .begin,
          .op 1 (.insert 1 ⟨schema, [.integer 7], none⟩), .commit 1, .begin, .op 2 (.scan 1)] = some M ∧
      M.run (denied ++ denied) = some S ∧ FullScan M (denied ++ denied) 2 0 rows ∧
      FullScan M (denied ++ denied) 2 0 rows' ∧ rows' = rows := by
  intro schema
  have facts : ((start (Store.new { pageSize := 16, poolPages := 1 })).run
      [.addTable (.create "odd" "odd" schema "n"), .begin,
        .op 1 (.insert 1 ⟨schema, [.integer 7], none⟩), .commit 1, .begin, .op 2 (.scan 1)]).any (fun M =>
      M.running 2 = true ∧ (M.store.catalog.ref 1).toOption = some 0 ∧
      0 < (M.store.catalog.table 0).pages ∧ Scans 2 0 0 0 M ∧
      (fullScan? (scanSteps 2 0 (M.trace denied))).isSome = true ∧
      (M.run denied).any (fun P => Scans 2 0 0 0 P ∧
        (fullScan? (scanSteps 2 0 (P.trace denied))).isSome = true ∧
        (P.run denied).any (fun S => S.store.catalog.Distinct ∧ S.running 2 = true) = true) = true) =
          true := by
    decide +kernel
  obtain ⟨M, ran, facts⟩ := (Option.any_eq_true _ _).mp facts
  obtain ⟨before, known, paged, scans, told, facts⟩ := of_decide_eq_true facts
  obtain ⟨P, ran', facts⟩ := (Option.any_eq_true _ _).mp facts
  obtain ⟨scans', told', facts⟩ := of_decide_eq_true facts
  obtain ⟨S, ran'', facts⟩ := (Option.any_eq_true _ _).mp facts
  obtain ⟨distinct, after⟩ := of_decide_eq_true facts
  obtain ⟨rows, told⟩ := Option.isSome_iff_exists.mp told
  obtain ⟨rows', told'⟩ := Option.isSome_iff_exists.mp told'
  have first : FullScan M (denied ++ denied) 2 0 rows :=
    ⟨[], denied, denied, M, 0, 0, rfl, rfl, scans, told⟩
  have second : FullScan M (denied ++ denied) 2 0 rows' :=
    ⟨denied, denied, [], P, 0, 0, by rw [List.append_nil], ran', scans', told'⟩
  have whole : M.run (denied ++ denied) = some S := by
    rw [run_append, ran']
    exact ran''
  exact ⟨M, S, rows, rows', ran, whole, first, second, scans_repeatable ran whole distinct before after
    (by simp [denied, Op.alters]) (by simp [denied]) (of_toOption known) paged first second⟩

/-- A transaction changes nothing, and yet its second scan of a table is told other rows than the first
one. -/
def Unrepeatable (settings : Settings) (disk : Disk) (past es : List Event) (tx : TxId) : Prop :=
  ∃ M S ref rows rows', (start (Store.new settings disk)).run past = some M ∧ M.run es = some S ∧
    M.running tx = true ∧ (∀ o, .op tx o ∈ es → o.alters = false) ∧
    FullScan M es tx ref rows ∧ FullScan M es tx ref rows' ∧ rows' ≠ rows

theorem unrepeatable_of (k : Nat) (r : ScanRef) (ref : TableRef) {first between second : List Event}
    (facts : ((start (Store.new settings disk)).run past).any (fun M =>
      M.running tx = true ∧ Scans tx k r ref M ∧
      (M.run (first ++ between)).any (fun P => Scans tx k r ref P ∧ (P.run second).isSome = true ∧
        (fullScan? (scanSteps tx k (M.trace first))).any (fun rows =>
          (fullScan? (scanSteps tx k (P.trace second))).any fun rows' => rows' ≠ rows) = true) =
            true) = true)
    (reads : ∀ o, .op tx o ∈ first ++ between ++ second → o.alters = false) :
    Unrepeatable settings disk past (first ++ between ++ second) tx := by
  obtain ⟨M, ran, facts⟩ := (Option.any_eq_true _ _).mp facts
  obtain ⟨running, scans, facts⟩ := of_decide_eq_true facts
  obtain ⟨P, ran', facts⟩ := (Option.any_eq_true _ _).mp facts
  obtain ⟨scans', onward, facts⟩ := of_decide_eq_true facts
  obtain ⟨S, ran''⟩ := Option.isSome_iff_exists.mp onward
  obtain ⟨rows, told, facts⟩ := (Option.any_eq_true _ _).mp facts
  obtain ⟨rows', told', other⟩ := (Option.any_eq_true _ _).mp facts
  have whole : M.run (first ++ between ++ second) = some S := by
    rw [run_append, ran']
    exact ran''
  exact ⟨M, S, ref, rows, rows', ran, whole, running, reads,
    ⟨[], first, between ++ second, M, k, r, List.append_assoc _ _ _, rfl, scans, told⟩,
    ⟨first ++ between, second, [], P, k, r, by rw [List.append_nil], ran', scans', told'⟩,
    of_decide_eq_true other⟩

/-- Rows appear in a table that had no page, in a table whose file is also that of another one, in a
table whose id belonged to another one before, and after the end of the transaction. -/
theorem scans_unrepeatable :
    let schema : Schema := ⟨[⟨.integer, some "n"⟩]⟩
    let settings : Settings := { pageSize := 16, poolPages := 1 }
    let whole (tx : TxId) (n : Nat) : List Event := .op tx (.iterate 0 .start) ::
      ((List.replicate n [.op tx (.iterate 0 .hasNext), .op tx (.iterate 0 .next)]).flatten ++
        [.op tx (.iterate 0 .hasNext)])
    let stores (tx : TxId) (table : TableId) : List Event :=
      [.begin, .op tx (.insert table ⟨schema, [.integer 7], none⟩), .commit tx]
    let scans (tx : TxId) (table : TableId) : List Event := [.begin, .op tx (.scan table)]
    Unrepeatable settings {} (.addTable (.create "odd" "odd" schema "n") :: scans 1 1)
      (whole 1 0 ++ stores 2 1 ++ whole 1 1) 1 ∧
    Unrepeatable settings {} (.addTable (.create "odd" "odd" schema "n") ::
        (stores 1 1 ++ .addTable (.load "odd" "even" schema "n") :: scans 2 1))
      (whole 2 1 ++ stores 3 2 ++ whole 2 2) 2 ∧
    Unrepeatable settings ⟨[("odd", .ofBytes (.zeros 16)), ("even", .ofBytes (.zeros 16)),
        ("prime", .ofBytes (.zeros 16))]⟩
      (.addTable (.loadWithId 1 "odd" "odd" schema "n" 16) ::
        .addTable (.loadWithId 2 "prime" "prime" schema "n" 16) ::
        (stores 1 1 ++ .addTable (.loadWithId 1 "even" "even" schema "n" 16) :: scans 2 1))
      (whole 2 1 ++ stores 3 2 ++ whole 2 0) 2 ∧
    Unrepeatable settings {} (.addTable (.create "odd" "odd" schema "n") :: (stores 1 1 ++ scans 2 1))
      (whole 2 1 ++ (.commit 2 :: stores 3 1) ++ whole 2 2) 2 := by
  intro schema settings whole stores scans
  refine ⟨?_, ?_, ?_, ?_⟩
  · exact unrepeatable_of 0 0 0 (by decide +kernel)
      (by simp [whole, stores, Op.alters])
  · exact unrepeatable_of 0 0 0 (by decide +kernel)
      (by simp [whole, stores, Op.alters])
  · exact unrepeatable_of 0 0 2 (by decide +kernel)
      (by simp [whole, stores, Op.alters])
  · exact unrepeatable_of 0 0 0 (by decide +kernel)
      (by simp [whole, stores, Op.alters])

end Session
end HeapStore
