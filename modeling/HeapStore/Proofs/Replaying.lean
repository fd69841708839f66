import HeapStore.Proofs.Capacity
import HeapStore.Proofs.Mirroring
import HeapStore.Proofs.Repeating

/-! A transaction among others is replayed by one that is alone. The one that is alone starts from what
is on disk in the end: what the other one finds on a page when it locks it is there until then. -/
namespace HeapStore

theorem Catalog.Paged.grown {c c' : Catalog} (paged : c.Paged) (grown : c.Grown c') : c'.Paged := by
  intro id ref known
  rw [grown.ref] at known
  exact Nat.lt_of_lt_of_le (paged id ref known) (grown.pages ref)

namespace Plain

variable {v w : Plain} {tx u : TxId} {scans scans' : List ScanRef} {usable : List Nat} {o : Op}
  {y : Act Outcome} {out : Outcome} {id : PageId}

/-- A page that is added to a table is one that the transaction holds. -/
theorem perform_grown (found : perform? tx scans o = some y) (keyed : v.catalog.Keyed)
    (own : ∀ r ∈ scans, r < v.scans.size ∧ (v.scans.getD r default).tx = tx)
    (ended : y v = .ok out w) (lacks : ¬v.catalog.Has id) (has : w.catalog.Has id) :
    w.locks.Held tx id .exclusive := by
  have still : ∀ r, Moves tx (some r) v w → w.locks.Held tx id .exclusive := by
    intro r moves
    rw [moves.still (by simp)] at has
    exact absurd has lacks
  cases o with
  | insert table row =>
    cases found
    obtain ⟨ref, place, known, -, slots, placed, -⟩ := insertRow_ok ended
    exact insertAnywhere_grown keyed known (Table.pageSize_pos_of_slots slots) placed lacks has
  | delete record? =>
    cases found
    exact still 0 ((moving_deleteRow tx record? v).of_ok ended)
  | scan table =>
    cases found
    exact still 0 ((moving_bind (moving_newScan tx table v) fun _ u _ _ => moving_pure _ u).of_ok ended)
  | iterate k step =>
    obtain ⟨r, mine, rfl⟩ := Option.map_eq_some_iff.mp found
    obtain ⟨valid, mover⟩ := own r (List.mem_of_getElem? mine)
    have moving := moving_performScan ⟨valid, rfl, rfl⟩ step
    rw [mover] at moving
    exact still r (moving.of_ok ended)

theorem patient_changed (v : Plain) (change : Option (PageId × Bytes)) :
    (v.changed change).patient = v.patient := by
  cases change <;> rfl

theorem perform?_isSome (found : perform? tx scans o = some y) : ∃ x, o.perform? tx scans = some x := by
  cases o with
  | insert _ _ | delete _ | scan _ => exact ⟨_, rfl⟩
  | iterate k step =>
    obtain ⟨r, mine, -⟩ := Option.map_eq_some_iff.mp found
    exact ⟨step.perform r, by simp [Op.perform?, mine]⟩

/-- Nothing has happened to the scans. -/
theorem Level.congr {v' : Plain} (h : Level tx u scans scans' usable v w) (kin : v.catalog.Kin v'.catalog)
    (size : v.scans.size ≤ v'.scans.size)
    (same : ∀ r ∈ scans, v'.scans.getD r default = v.scans.getD r default)
    (locks : ∀ id mode, v.locks.Held tx id mode → v'.locks.Held tx id mode) :
    Level tx u scans scans' usable v' w := by
  refine ⟨h.length, fun k r r' mine mine' => ?_, fun k listed => ?_⟩
  · obtain ⟨ref, known, ⟨valid, table, mover⟩, reads'⟩ := h.reads k r r' mine mine'
    have here := same r (List.mem_of_getElem? mine)
    exact ⟨ref, by rw [kin.key, kin.ref, known],
      ⟨Nat.lt_of_lt_of_le valid size, by rw [here, ← table], by rw [here, ← mover]⟩, reads'⟩
  · obtain ⟨r, r', mine, mine', held, rows, left, right⟩ := h.abreast k listed
    rw [← same r (List.mem_of_getElem? mine)] at held left
    rw [← kin.key] at held
    exact ⟨r, r', mine, mine', locks _ _ held, rows, left, right⟩

end Plain

namespace Store

variable {s t s' t' : Store} {tx u : TxId} {change : Option (PageId × Bytes)} {id : PageId}

theorem Applied.view (h : Applied tx change t s) : s.view = t.view.changed change := by
  cases change with
  | none =>
    cases h
    rfl
  | some page => exact Rewritten.view h

theorem Applied.total_congr (h : Applied tx change t s) (h' : Applied u change t' s')
    (same : t'.total id = t.total id) : s'.total id = s.total id := by
  cases change with
  | none =>
    rw [show s = t from h, show s' = t' from h', same]
  | some page => rw [Rewritten.total h, Rewritten.total h', same]

theorem Applied.total_other (h : Applied tx change t s) (other : ∀ page, change = some page → id ≠ page.1) :
    s.total id = t.total id := by
  cases change with
  | none => rw [show s = t from h]
  | some page => rw [Rewritten.total h, if_neg (other page rfl)]

end Store

namespace Session
open Store

variable {P S W : Session} {es : List Event} {e : Event} {reply : Reply} {s : Store} {tx u : TxId}
  {id : PageId} {settings : Settings} {mode : LockMode} {o : Op}

/-! Steps with a frame for each page -/

theorem Assigned.own (h : S.Assigned) {c : Client} (client : S.clients.get? tx = some c) :
    ∀ r ∈ c.scans, r < S.store.view.scans.size ∧ (S.store.view.scans.getD r default).tx = tx :=
  (h tx c client).2

theorem not_exhausted_of_room (h : S.store.Coherent)
    (room : S.store.catalog.pageIds.length ≤ S.store.settings.poolPages)
    (told : S.outcome? (.op tx o) = some (reply, s)) (iterates : o.iterates = true) (e : Stop) :
    ¬s.Exhausted e := by
  obtain ⟨x, found, settled⟩ := Option.bind_eq_some_iff.mp told
  obtain ⟨c, y, -, -, -, performs⟩ := op_performs h found settled
  have ended := mapError_ne_crashed reply
  have reads : o.alters = false := by
    cases o <;> first | rfl | cases iterates
  refine (performs.coherent ended).not_exhausted ?_ e
  rwa [catalog_of_looking h.guarded told reads, performs.settings ended]

/-- With a frame for each page a step does what it does on a store without a pool. -/
theorem op_moves (h : S.store.Coherent) (assigned : S.Assigned)
    (room : S.store.catalog.pageIds.length ≤ S.store.settings.poolPages)
    (told : S.outcome? (.op tx o) = some (reply, s)) :
    ∃ c y t, S.clients.get? tx = some c ∧ Plain.perform? tx c.scans o = some y ∧ S.store.Upkeep tx t ∧
      Plain.Moves tx (Plain.touched? c.scans o) S.store.view t.view ∧
      ((∃ out, reply = .ok out.answer ∧ y S.store.view = .ok out t.view ∧ Applied tx out.change t s) ∨
        (∃ f, reply = .error f) ∧ s = t) := by
  obtain ⟨c, y, client, plain, taken⟩ := op_taken h told
  have moving := Plain.moving_perform plain (v := S.store.view) h.guarded.keyed (assigned.own client)
  cases taken with
  | stuck f s iterates exhausted upkeep =>
    exact absurd exhausted (not_exhausted_of_room h room told iterates _)
  | refused f s ended upkeep =>
    exact ⟨c, y, s, client, plain, upkeep, moving.of_error ended, Or.inr ⟨⟨f, rfl⟩, rfl⟩⟩
  | answered out t s ended upkeep applied =>
    exact ⟨c, y, t, client, plain, upkeep, moving.of_ok ended, Or.inl ⟨out, rfl, ended, applied⟩⟩

/-- A step has the answer that it has on a store without a pool. A step of a scan may need a frame for
each page. -/
theorem op_answers {c : Client} {y : Plain.Act Plain.Outcome} {out : Plain.Outcome} {v : Plain}
    (h : S.store.Coherent)
    (room : o.iterates = true → S.store.catalog.pageIds.length ≤ S.store.settings.poolPages)
    (running : S.running tx = true) (client : S.clients.get? tx = some c)
    (plain : Plain.perform? tx c.scans o = some y) (ended : y S.store.view = .ok out v) : ∃ t s,
      S.outcome? (.op tx o) = some (.ok out.answer, s) ∧ S.store.Upkeep tx t ∧ t.view = v ∧
        Applied tx out.change t s := by
  obtain ⟨x, found⟩ := Plain.perform?_isSome plain
  obtain ⟨_, same, ends⟩ := perform_follows h found
  cases plain.symm.trans same
  have allowed : S.action? (.op tx o) = some x := by
    obtain ⟨c', same, running⟩ := running_iff.mp running
    cases client.symm.trans same
    exact action?_op_eq_some_iff.mpr ⟨c, client, by simp [running], found⟩
  have outcome : S.outcome? (.op tx o) = settle x S.store := by simp [outcome?, allowed]
  have taken := settle_performs ends fun iterates reply s settled e _ =>
    not_exhausted_of_room h (room iterates) (outcome.trans settled) iterates e
  rw [ended] at taken
  obtain ⟨t, s, settled, rest⟩ := taken
  exact ⟨t, s, outcome.trans settled, rest⟩

/-- Only transactions change tables. -/
theorem catalog_of_step (h : Steady settings S) (acts : e.transacts = true)
    (told : S.outcome? e = some (reply, s)) (other : ∀ u o, e ≠ .op u o) : s.catalog = S.store.catalog := by
  cases h.impact told with
  | begun first store => rw [store]
  | looked u o own upkeep idle => exact absurd own (other u o)
  | changed u o id bytes t own running alters upkeep rewritten change => exact absurd own (other u o)
  | completed u b ends holds completed => rw [completed.rest]
  | landed p b flushes landed holds => cases e <;> cases flushes <;> cases acts
  | opened new adds opened =>
    subst adds
    cases acts

theorem grown_of_step (h : Steady settings S) (acts : e.transacts = true)
    (told : S.outcome? e = some (reply, s)) : S.store.catalog.Grown s.catalog := by
  refine (h.impact told).grown.resolve_right ?_
  rintro ⟨new, rfl, -⟩
  cases acts

theorem kin_of_step (h : Steady settings S) (acts : e.transacts = true)
    (room : S.store.catalog.pageIds.length ≤ settings.poolPages)
    (told : S.outcome? e = some (reply, s)) : S.store.catalog.Kin s.catalog := by
  by_cases op : ∃ u o, e = .op u o
  · obtain ⟨u, o, rfl⟩ := op
    rw [← h.sane.settings] at room
    obtain ⟨c, y, t, -, -, -, moves, ⟨out, -, -, applied⟩ | ⟨-, rfl⟩⟩ :=
      op_moves h.coherent h.assigned room told
    · rw [applied.catalog]
      exact moves.kin
    · exact moves.kin
  · rw [catalog_of_step h acts told fun u o same => op ⟨u, o, same⟩]
    exact .refl _

/-- Only a commit changes what is on disk, and only on the pages that its transaction has changed. -/
theorem lasting_of_step (h : Steady settings S) (acts : e.transacts = true)
    (room : s.catalog.pageIds.length ≤ settings.poolPages) (told : S.outcome? e = some (reply, s))
    (others : ∀ u, e = .commit u → S.store.owner id ≠ some u) : s.lasting id = S.store.lasting id := by
  cases h.impact told with
  | begun first store =>
    rw [store]
    rfl
  | looked u o own upkeep idle => exact upkeep.lasting id
  | changed u o page bytes t own running alters upkeep rewritten change =>
    have catalog : s.catalog = t.catalog := by rw [rewritten.rest]
    rw [catalog, ← h.sane.settings, ← upkeep.settings] at room
    rw [← upkeep.lasting id]
    refine lasting_of_same catalog ?_
    by_cases here : id = page
    · rw [here, (rewritten.pooled upkeep.coherent room).2]
    · exact (rewritten.others id here).2
  | completed u b ends holds completed =>
    refine lasting_of_same (by rw [completed.rest]) ?_
    by_cases owned : S.store.owner id = some u
    · rcases holds with ⟨rfl, -⟩ | ⟨rfl, -⟩
      · exact absurd owned (others u rfl)
      · exact (completed.landed id owned).2.2
    · exact (completed.others id owned).2.2
  | landed p b flushes landed holds => cases e <;> cases flushes <;> cases acts
  | opened new adds opened =>
    subst adds
    cases acts

/-! What a session knows of a transaction -/

theorem client_other (told : S.outcome? e = some (reply, s)) (old : tx < S.store.nextTx)
    (other : ∀ o, e ≠ .op tx o) (stays : e.ends? ≠ some tx) :
    (S.after e reply s).clients.get? tx = S.clients.get? tx := by
  cases e with
  | begin =>
    cases told
    exact (Assoc.get?_insert ..).trans (if_neg (Nat.ne_of_lt old))
  | op u o =>
    have ne : tx ≠ u := by
      rintro rfl
      exact other o rfl
    exact (get?_update ..).trans (if_neg ne)
  | commit u | abort u | drop u =>
    have ne : tx ≠ u := by
      rintro rfl
      exact stays rfl
    exact (get?_update ..).trans (if_neg ne)
  | flushPage _ | flushAll | discard _ | addTable _ => rfl

theorem client_own {c : Client} (client : S.clients.get? tx = some c) :
    (S.after (.op tx o) reply s).clients.get? tx = some (c.note o reply S.store.scans.size) := by
  refine (get?_update ..).trans ?_
  rw [if_pos rfl, client]
  rfl

theorem history_of_client {c : Client} (client : S.clients.get? tx = some c) :
    S.history tx = c.history := by
  simp [history, client]

theorem scans_note (c : Client) (o : Op) (a : Answer) (S : Session) :
    (c.note o (.ok a) S.store.scans.size).scans = Plain.scansAfter S.store.view c.scans o := by
  cases o <;> rfl

/-! From step to step -/

theorem Steady.acts (h : Steady settings S) (told : S.outcome? e = some (reply, s))
    (acts : e.transacts = true) : Steady settings (S.after e reply s) := by
  refine h.step told ?_
  rintro ⟨new, rfl⟩
  cases acts

/-- While transactions take steps, tables are neither added nor lose pages. -/
theorem Steady.run (h : Steady settings P) (ran : P.run es = some S)
    (acts : ∀ e ∈ es, e.transacts = true) :
    Steady settings S ∧ P.store.catalog.Grown S.store.catalog := by
  induction es generalizing P with
  | nil =>
    cases ran
    exact ⟨h, .refl _⟩
  | cons e es ih =>
    rw [run_cons, Option.bind_eq_some_iff] at ran
    obtain ⟨T, stepped, ran⟩ := ran
    obtain ⟨reply, s, told, rfl⟩ := outcome?_of_step stepped
    obtain ⟨first, later⟩ := List.forall_mem_cons.mp acts
    obtain ⟨steady, grown⟩ := ih (h.acts told first) ran later
    exact ⟨steady, (grown_of_step h first told).trans grown⟩

/-- What is left of a run in which transactions take steps and nothing else happens, with a frame for
each page of each table. One of the transactions has not ended in the end. -/
structure Going (settings : Settings) (tx : TxId) (es : List Event) (P S : Session) : Prop where
  steady : Steady settings P
  ran : P.run es = some S
  acts : ∀ e ∈ es, e.transacts = true
  room : S.store.catalog.pageIds.length ≤ settings.poolPages
  paged : P.store.catalog.Paged
  running : S.running tx = true
  old : tx < P.store.nextTx

theorem Going.step (h : Going settings tx (e :: es) P S) : ∃ reply s,
    P.outcome? e = some (reply, s) ∧ e.transacts = true ∧ Going settings tx es (P.after e reply s) S := by
  obtain ⟨T, stepped, ran⟩ := Option.bind_eq_some_iff.mp ((run_cons P e es).symm.trans h.ran)
  obtain ⟨reply, s, told, rfl⟩ := outcome?_of_step stepped
  obtain ⟨acts, later⟩ := List.forall_mem_cons.mp h.acts
  exact ⟨reply, s, told, acts, h.steady.acts told acts, ran, later, h.room,
    h.paged.grown (grown_of_step h.steady acts told), h.running,
    Nat.lt_of_lt_of_le h.old (nextTx_of_step h.steady.guarded told)⟩

theorem Going.now (h : Going settings tx es P S) : P.running tx = true := by
  induction es generalizing P with
  | nil =>
    cases h.ran
    exact h.running
  | cons e es ih =>
    obtain ⟨reply, s, told, -, later⟩ := h.step
    exact running_of_step h.steady.guarded told (ih later) h.old

theorem Going.grown (h : Going settings tx es P S) : P.store.catalog.Grown S.store.catalog :=
  (h.steady.run h.ran h.acts).2

theorem Going.fits (h : Going settings tx es P S) :
    P.store.catalog.pageIds.length ≤ settings.poolPages :=
  Nat.le_trans (Catalog.length_pageIds_le h.grown.size.symm h.grown.pages) h.room

theorem Going.kin (h : Going settings tx es P S) : P.store.catalog.Kin S.store.catalog := by
  induction es generalizing P with
  | nil =>
    cases h.ran
    exact .refl _
  | cons e es ih =>
    obtain ⟨reply, s, told, acts, later⟩ := h.step
    exact (kin_of_step h.steady acts h.fits told).trans (ih later)

theorem Going.stays (h : Going settings tx es (P.after e reply s) S) : e.ends? ≠ some tx := by
  intro ends
  have now := h.now
  rw [not_running_of_ends ends] at now
  cases now

/-- What is on disk of a page that the transaction holds stays there. -/
theorem Going.lasting (h : Going settings tx es P S) (held : P.store.locks.Held tx id mode) :
    S.store.lasting id = P.store.lasting id := by
  induction es generalizing P with
  | nil =>
    cases h.ran
    rfl
  | cons e es ih =>
    obtain ⟨reply, s, told, acts, later⟩ := h.step
    rw [ih later (held_of_step h.steady.guarded told later.now held)]
    refine lasting_of_step h.steady acts later.fits told fun u commits owned => later.stays ?_
    rw [h.steady.guarded.alone owned held, commits]
    rfl

theorem Going.history (h : Going settings tx es P S) :
    ∃ steps, S.history tx = P.history tx ++ steps := by
  induction es generalizing P with
  | nil =>
    cases h.ran
    exact ⟨[], by rw [List.append_nil]⟩
  | cons e es ih =>
    obtain ⟨reply, s, told, acts, later⟩ := h.step
    obtain ⟨steps, same⟩ := ih later
    by_cases own : ∃ o, e = .op tx o
    · obtain ⟨o, rfl⟩ := own
      obtain ⟨c, client, -⟩ := running_iff.mp h.now
      rw [history_of_client (client_own client)] at same
      exact ⟨(o, reply) :: steps, by simp [same, history_of_client client, Client.note]⟩
    · have client := client_other told h.old (fun o same => own ⟨o, same⟩) (later.stays)
      refine ⟨steps, ?_⟩
      rw [same, Session.history, client]
      rfl

theorem history_own {c : Client} (client : S.clients.get? tx = some c) :
    (S.after (.op tx o) reply s).history tx = S.history tx ++ [(o, reply)] := by
  rw [history_of_client (client_own client), history_of_client client]
  rfl

/-- A transaction that is told no errors. -/
def Fine (history : List (Op × Reply)) : Prop := ∀ step ∈ history, step.2.isOk = true

theorem Going.fine (h : Going settings tx (.op tx o :: es) P S) (fine : Fine (S.history tx))
    (told : P.outcome? (.op tx o) = some (reply, s))
    (later : Going settings tx es (P.after (.op tx o) reply s) S) : ∃ a, reply = .ok a := by
  obtain ⟨steps, same⟩ := later.history
  obtain ⟨c, client, -⟩ := running_iff.mp h.now
  have ok := fine (o, reply) (by simp [same, history_own client])
  cases reply with
  | ok a => exact ⟨a, rfl⟩
  | error f => cases ok

/-- A page is added to a table by a transaction that holds the first page. -/
theorem Going.adder (h : Going settings tx (e :: es) P S) (told : P.outcome? e = some (reply, s))
    (acts : e.transacts = true) (later : Going settings tx es (P.after e reply s) S)
    (first : s.locks.Held tx ⟨id.table, 0⟩ mode) (lacks : ¬P.store.catalog.Has id)
    (has : s.catalog.Has id) : ∃ o, e = .op tx o := by
  have grown := grown_of_step h.steady acts told
  obtain ⟨ref, known, below⟩ := has
  have before := (grown.ref _).symm.trans known
  have beyond := mt (Catalog.has_iff before).mpr lacks
  obtain ⟨-, key⟩ := h.steady.guarded.keyed _ _ before
  have room := h.fits
  rw [← h.steady.sane.settings] at room
  by_cases op : ∃ u o, e = .op u o
  · obtain ⟨u, o, rfl⟩ := op
    obtain ⟨c, y, t, -, -, -, moves, rest⟩ := op_moves h.steady.coherent h.steady.assigned room told
    have same : s.catalog = t.catalog ∧ s.locks = t.locks := by
      rcases rest with ⟨out, -, -, applied⟩ | ⟨-, rfl⟩
      · exact ⟨applied.catalog, applied.locks⟩
      · exact ⟨rfl, rfl⟩
    rw [same.1] at below
    rcases moves.first ref with none | pages | held
    · exact absurd none (Nat.ne_of_gt (h.paged _ _ before))
    · exact absurd (pages ▸ below) beyond
    · change t.locks.Held u ⟨(P.store.catalog.table ref).id, 0⟩ .exclusive at held
      rw [key, ← same.2] at held
      rw [later.steady.guarded.locks u tx _ mode held first]
      exact ⟨o, rfl⟩
  · rw [catalog_of_step h.steady acts told fun u o same => op ⟨u, o, same⟩] at below
    exact absurd below beyond

/-- While a transaction holds the first page of a table there is nothing on disk of pages that the table
does not have, or that the transaction adds itself. -/
theorem Going.blank (h : Going settings tx es P S) (fine : Fine (S.history tx))
    (first : P.store.locks.Held tx ⟨id.table, 0⟩ mode) (lacks : ¬P.store.catalog.Has id) :
    S.store.lasting id = P.store.catalog.blank id := by
  induction es generalizing P with
  | nil =>
    cases h.ran
    exact lasting_of_lacks lacks
  | cons e es ih =>
    obtain ⟨reply, s, told, acts, later⟩ := h.step
    have first : s.locks.Held tx ⟨id.table, 0⟩ mode :=
      held_of_step h.steady.guarded told later.now first
    by_cases has : s.catalog.Has id
    · obtain ⟨o, rfl⟩ := h.adder told acts later first lacks has
      obtain ⟨a, rfl⟩ := h.fine fine told later
      have room := h.fits
      rw [← h.steady.sane.settings] at room
      obtain ⟨c, y, t, client, plain, upkeep, moves, ⟨out, -, ended, applied⟩ | ⟨⟨f, never⟩, -⟩⟩ :=
        op_moves h.steady.coherent h.steady.assigned room told
      · have has : t.view.catalog.Has id := by
          rw [applied.catalog] at has
          exact has
        have held : s.locks.Held tx id .exclusive := by
          rw [applied.locks]
          exact Plain.perform_grown plain h.steady.guarded.keyed (h.steady.assigned.own client) ended
            lacks has
        rw [later.lasting held]
        refine (lasting_of_step h.steady acts later.fits told fun _ never => by cases never).trans ?_
        exact lasting_of_lacks lacks
      · cases never
    · rw [ih later first has]
      exact (grown_of_step h.steady acts told).blank id

/-! The same transaction once more -/

/-- The transaction `u` is alone in `W` and has taken the same steps as `tx` in `P`. On pages that `tx`
has locked so far both find the same. What `u` finds on other pages is on disk in the end. -/
structure Replays (settings : Settings) (tx u : TxId) (usable : List Nat) (S P W : Session) : Prop where
  steady : Steady settings W
  running : W.running u = true
  history : W.history u = P.history tx
  level : ∃ c c', P.clients.get? tx = some c ∧ W.clients.get? u = some c' ∧
    Plain.Level tx u c.scans c'.scans usable P.store.view W.store.view
  kin : P.store.catalog.Kin W.store.catalog
  pages : ∀ ref, (W.store.catalog.table ref).pages ≤ (S.store.catalog.table ref).pages
  paged : W.store.catalog.Paged
  sole : Plain.Sole u W.store.view
  seen : ∀ id mode, P.store.locks.Held tx id mode → W.store.total id = P.store.total id
  ahead : ∀ id, (∀ mode, ¬P.store.locks.Held tx id mode) → W.store.total id = S.store.lasting id

variable {usable usable' : List Nat}

/-- Steps of others make no difference. -/
theorem Replays.other (h : Replays settings tx u usable S P W)
    (going : Going settings tx (e :: es) P S) (told : P.outcome? e = some (reply, s))
    (acts : e.transacts = true) (later : Going settings tx es (P.after e reply s) S)
    (other : ∀ o, e ≠ .op tx o) :
    Replays settings tx u usable S (P.after e reply s) W := by
  have steady := going.steady
  have stays := later.stays
  have same := client_other told going.old other stays
  have kin := kin_of_step steady acts going.fits told
  have sparse := steady.assigned.sparse told
  have kept : ∀ id mode, P.store.locks.Held tx id mode → s.locks.Held tx id mode :=
    fun id mode => held_of_step steady.guarded told later.now
  obtain ⟨c, c', client, client', level⟩ := h.level
  refine ⟨h.steady, h.running, ?_, ⟨c, c', same.trans client, client', ?_⟩, kin.symm.trans h.kin,
    h.pages, h.paged, h.sole, fun id mode held => ?_,
    fun id none => h.ahead id fun mode held => none mode (kept id mode held)⟩
  · rw [h.history, Session.history, Session.history, same]
  · refine level.congr kin sparse.size (fun r mine => ?_) kept
    obtain ⟨k, mine⟩ := List.mem_iff_getElem?.mp mine
    have used : P.used? (.op tx (.iterate k .start)) = some r := used?_iterate_iff.mpr ⟨c, client, mine⟩
    have valid := ((steady.assigned tx c client).2 r (List.mem_of_getElem? mine)).1
    refine sparse.others r valid fun moved => ?_
    obtain ⟨st, rfl⟩ := iterates_of_used steady.assigned used moved
    exact other _ rfl
  · obtain before | ⟨o, rfl, -⟩ := sparse.own tx id mode held
    · rw [h.seen id mode before]
      refine ((steady.impact told).total steady before stays ?_ ?_ ?_).symm
      · intro change
        obtain ⟨o, rfl, -⟩ := alters_of_changeOf change
        exact other o rfl
      · rintro rfl
        cases acts
      · rintro new rfl
        cases acts
    · exact absurd rfl (other o)

/-- The transaction that is alone finds what the other one finds in its next step. -/
theorem Replays.mirrors (h : Replays settings tx u usable S P W)
    (going : Going settings tx (.op tx o :: es) P S) (fine : Fine (S.history tx))
    (told : P.outcome? (.op tx o) = some (reply, s))
    (later : Going settings tx es (P.after (.op tx o) reply s) S) {t : Store}
    (catalog : s.catalog = t.catalog) (locks : s.locks = t.locks) :
    Plain.Mirrors tx u P.store.view t.view W.store.view := by
  have steady := going.steady
  -- nobody else has changed a page that the transaction has just locked
  have fresh : ∀ id mode, s.locks.Held tx id mode → (∀ mode, ¬P.store.locks.Held tx id mode) →
      S.store.lasting id = P.store.total id := by
    intro id mode held none
    have clean : P.store.owner id = .none := by
      apply Option.eq_none_iff_forall_ne_some.mpr
      intro v owned
      have before := steady.guarded.owned id v owned
      have kept : s.locks.Held v id .exclusive := by
        refine held_of_step steady.guarded told ?_ before
        rw [running_after_op]
        exact steady.sane.locked v id before
      exact none _ (later.steady.guarded.locks v tx id mode kept held ▸ before)
    rw [later.lasting held, steady.coherent.total_of_clean clean]
    exact lasting_of_step steady rfl later.fits told fun _ never => by cases never
  refine ⟨steady.guarded.keyed, going.paged, h.paged, h.kin, h.sole, fun id mode held => ?_,
    fun ref mode known first n beyond => ?_, fun id ref known => ?_⟩
  · change t.locks.Held tx id mode at held
    rw [← locks] at held
    by_cases before : ∃ mode, P.store.locks.Held tx id mode
    · obtain ⟨mode, before⟩ := before
      exact h.seen id mode before
    · have none : ∀ mode, ¬P.store.locks.Held tx id mode := fun mode held => before ⟨mode, held⟩
      exact (h.ahead id none).trans (fresh id mode held none)
  · let page : PageId := ⟨(P.store.catalog.table ref).id, n⟩
    have known : P.store.catalog.ref page.table = .ok ref := known
    have first : s.locks.Held tx ⟨page.table, 0⟩ mode := by
      rw [locks]
      exact first
    have grown := grown_of_step steady rfl told
    have lacks : ¬s.catalog.Has page := by
      rw [Catalog.has_iff ((grown.ref _).trans known), catalog]
      exact Nat.not_lt_of_le beyond
    have empty : P.store.catalog.blank page = .zeros (P.store.catalog.table ref).pageSize :=
      Catalog.blank_of_ref known
    change W.store.total page = .zeros (P.store.catalog.table ref).pageSize
    rw [← empty]
    by_cases before : ∃ mode, P.store.locks.Held tx page mode
    · obtain ⟨mode, before⟩ := before
      rw [h.seen page mode before]
      exact total_of_lacks fun has => lacks (grown.has has)
    · rw [h.ahead page fun mode held => before ⟨mode, held⟩, later.blank fine first lacks]
      exact grown.blank page
  · exact (h.steady.coherent.size_content id).trans (size_saved known)

/-- A step of the transaction is taken once more. -/
theorem Replays.own {a : Answer} (h : Replays settings tx u usable S P W)
    (going : Going settings tx (.op tx o :: es) P S) (fine : Fine (S.history tx))
    (told : P.outcome? (.op tx o) = some (.ok a, s)) (may : o.usable? usable = some usable')
    (later : Going settings tx es (P.after (.op tx o) (.ok a) s) S) : ∃ w,
      W.outcome? (.op u o) = some (.ok a, w) ∧
        Replays settings tx u usable' S (P.after (.op tx o) (.ok a) s)
          (W.after (.op u o) (.ok a) w) := by
  have steady := going.steady
  have room := going.fits
  rw [← steady.sane.settings] at room
  obtain ⟨c, y, t, client, plain, upkeep, moves, ⟨out, answer, ended, applied⟩ | ⟨⟨f, never⟩, -⟩⟩ :=
    op_moves steady.coherent steady.assigned room told
  · cases answer
    obtain ⟨_, c', same, client', level⟩ := h.level
    cases client.symm.trans same
    have mirrors := h.mirrors going fine told later applied.catalog applied.locks
    obtain ⟨y', w', plain', ended', bounded, level'⟩ := Plain.perform_mirrors mirrors level
      (steady.assigned tx c client).1 (h.steady.assigned u c' client').1 may plain ended
    have room' : W.store.catalog.pageIds.length ≤ W.store.settings.poolPages := by
      rw [h.steady.sane.settings]
      exact Nat.le_trans
        (Catalog.length_pageIds_le (h.kin.size.trans going.grown.size.symm) h.pages) going.room
    obtain ⟨t', w, told', upkeep', rfl, applied'⟩ :=
      op_answers h.steady.coherent (fun _ => room') h.running client' plain' ended'
    have moves' := (Plain.moving_perform plain' h.steady.guarded.keyed
      (h.steady.assigned.own client')).of_ok ended'
    have kin : s.catalog.Kin w.catalog := by
      rw [applied.catalog, applied'.catalog]
      exact (moves.kin.symm.trans h.kin).trans moves'.kin
    have kept : ∀ id mode, P.store.locks.Held tx id mode → s.locks.Held tx id mode :=
      fun id mode => held_of_step steady.guarded told later.now
    refine ⟨w, told', h.steady.acts told' rfl, ?_, ?_,
      ⟨_, _, client_own client, client_own client', ?_⟩, kin, fun ref => ?_, ?_, ?_, fun id mode held => ?_,
      fun id none => ?_⟩
    · rw [running_after_op, h.running]
    · rw [history_own client', history_own client, h.history]
    · change Plain.Level tx u _ _ usable' s.view w.view
      rw [scans_note, scans_note, applied.view, applied'.view]
      exact level'
    · change (w.catalog.table ref).pages ≤ _
      have most : (s.catalog.table ref).pages ≤ (S.store.catalog.table ref).pages := later.grown.pages ref
      rw [applied.catalog] at most
      rw [applied'.catalog]
      exact Nat.le_trans (bounded ref) (Nat.max_le.mpr ⟨h.pages ref, most⟩)
    · change w.catalog.Paged
      rw [applied'.catalog]
      exact moves'.paged h.paged
    · refine ⟨?_, fun v p mode held => ?_⟩
      · change w.view.patient = true
        rw [applied'.view, Plain.patient_changed, moves'.patient, h.sole.patient]
      · change w.locks.Held v p mode at held
        rw [applied'.locks] at held
        exact (moves'.locks.own v p mode held).elim (h.sole.mine v p mode) fun mine => mine
    · have same : t'.total id = t.total id := by
        rw [upkeep'.total h.steady.coherent, upkeep.total steady.coherent]
        exact mirrors.agree id mode (show t.locks.Held tx id mode from applied.locks ▸ held)
      exact applied.total_congr applied' same
    · -- the page that is changed is held by now
      have other : ∀ page, out.change = some page → id ≠ page.1 := by
        rintro page changed rfl
        have change := Plain.changeOf_eq plain ended
        rw [changed] at change
        exact none _ (alters_of_change steady.guarded told change).2.held
      rw [← h.ahead id fun mode held => none mode (kept id mode held)]
      exact (applied'.total_other other).trans (upkeep'.total h.steady.coherent id)
  · cases never

/-- The steps of a transaction under another id. -/
def steps (u : TxId) (history : List (Op × Reply)) : List Event := history.map fun step => .op u step.1

/-- What a transaction does in a run can be done once more by one that is alone. -/
theorem Replays.run (h : Replays settings tx u usable S P W)
    (going : Going settings tx es P S) (fine : Fine (S.history tx)) {history : List (Op × Reply)}
    (told : S.history tx = P.history tx ++ history)
    (may : ((history.map Prod.fst).foldlM Op.usable? usable).isSome = true) : ∃ W' usable',
      W.run (steps u history) = some W' ∧ Replays settings tx u usable' S S W' := by
  induction es generalizing P W usable history with
  | nil =>
    cases going.ran
    cases List.append_right_eq_self.mp told.symm
    exact ⟨W, usable, rfl, h⟩
  | cons e es ih =>
    obtain ⟨reply, s, outcome, acts, later⟩ := going.step
    by_cases own : ∃ o, e = .op tx o
    · obtain ⟨o, rfl⟩ := own
      obtain ⟨a, rfl⟩ := going.fine fine outcome later
      obtain ⟨c, client, -⟩ := running_iff.mp going.now
      obtain ⟨rest, told'⟩ := later.history
      have first := told'
      rw [history_own client, told, List.append_assoc, List.singleton_append] at first
      cases List.append_cancel_left first
      obtain ⟨usable', one, more⟩ : ∃ usable', o.usable? usable = some usable' ∧
          ((rest.map Prod.fst).foldlM Op.usable? usable').isSome = true := by
        cases one : o.usable? usable with
        | none => simp [one] at may
        | some usable' => exact ⟨usable', rfl, by simpa [one] using may⟩
      obtain ⟨w, outcome', onward⟩ := h.own going fine outcome one later
      obtain ⟨W', usable'', ran, replays⟩ := ih onward later told' more
      refine ⟨W', usable'', ?_, replays⟩
      rw [steps, List.map_cons, run_cons, step_of_outcome? outcome']
      exact ran
    · have other : ∀ o, e ≠ .op tx o := fun o same => own ⟨o, same⟩
      have client := client_other outcome going.old other (later.stays)
      refine ih (h.other going outcome acts later other) later ?_ may
      rw [told, Session.history, Session.history, client]

end Session
end HeapStore
