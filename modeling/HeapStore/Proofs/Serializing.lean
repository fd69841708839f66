import HeapStore.Proofs.Forgetting
import HeapStore.Proofs.Replaying

/-! Transactions are serializable in the order of their commits. Running the committed ones one after
the other keeps up with the run in which they take their steps in between each other: after each commit
it has everything in memory that the other one has on disk. -/
namespace HeapStore

/-- After a commit what its transaction has changed is on disk. -/
theorem Store.Completed.lasting {s s' : Store} {tx : TxId} (h : s.Completed tx s.content s')
    (coherent : s.Coherent) (id : PageId) :
    s'.lasting id = if s.owner id = some tx then s.total id else s.lasting id := by
  have catalog : s'.catalog = s.catalog := by rw [h.rest]
  split
  · rename_i owned
    have has := coherent.has_of_owner owned
    rw [lasting_of_has (catalog ▸ has), total_of_has has]
    exact (h.landed id owned).2.2
  · rename_i other
    exact lasting_of_same catalog (h.others id other).2.2

namespace Session
open Store

variable {M P Q S W : Session} {es past : List Event} {e : Event} {reply : Reply} {s : Store}
  {tx u : TxId} {settings : Settings} {disk : Disk} {history : List (Op × Reply)}
  {histories : List (List (Op × Reply))} {usable : List Nat} {opening : List NewTable}

/-- Transactions one after the other, under ids from `tx` on. -/
def serial (tx : TxId) : List (List (Op × Reply)) → List Event
  | [] => []
  | history :: histories => .begin :: (steps tx history ++ .commit tx :: serial (tx + 1) histories)

theorem serial_snoc (tx : TxId) (histories : List (List (Op × Reply))) (history : List (Op × Reply)) :
    serial tx (histories ++ [history]) = serial tx histories ++
      .begin :: (steps (tx + histories.length) history ++ [.commit (tx + histories.length)]) := by
  induction histories generalizing tx with
  | nil => rfl
  | cons first histories ih =>
    simp only [List.cons_append, serial, ih, List.append_assoc, List.length_cons]
    rw [Nat.add_right_comm tx 1 histories.length]
    rfl

/-- A transaction that is told no errors, and that uses no scan that it has not opened since it has
made its last change. -/
def Proper (history : List (Op × Reply)) : Prop :=
  Fine history ∧ ((history.map Prod.fst).foldlM Op.usable? []).isSome = true

instance (history : List (Op × Reply)) : Decidable (Proper history) :=
  inferInstanceAs (Decidable ((∀ step ∈ history, step.2.isOk = true) ∧ _))

theorem steps_run (h : Isolated past W) (ran : W.run (steps u history) = some S) :
    S.committed = W.committed ∧ S.store.nextTx = W.store.nextTx := by
  induction history generalizing past W with
  | nil =>
    cases ran
    exact ⟨rfl, rfl⟩
  | cons step history ih =>
    rw [steps, List.map_cons, run_cons, Option.bind_eq_some_iff] at ran
    obtain ⟨T, stepped, ran⟩ := ran
    obtain ⟨committed, next⟩ := ih (h.step stepped) ran
    obtain ⟨reply, s, told, rfl⟩ := outcome?_of_step stepped
    refine ⟨committed, next.trans ?_⟩
    rcases effect_of_outcome h.guarded told with
      ⟨never, -⟩ | ⟨keeps, -, -⟩ | ⟨_, _, alters, -, -, -⟩ | ⟨_, ended, -, -, -⟩
    · cases never
    · exact keeps.nextTx
    · exact alters.nextTx
    · exact ended.nextTx

/-- A transaction that has come to run has begun. -/
theorem Isolated.begins (h : Isolated past M) (ran : M.run es = some S) (fresh : M.running tx = false)
    (running : S.running tx = true) : ∃ before later P, es = before ++ .begin :: later ∧
      M.run before = some P ∧ P.store.nextTx = tx := by
  induction es generalizing past M with
  | nil =>
    cases ran
    rw [fresh] at running
    cases running
  | cons e es ih =>
    rw [run_cons, Option.bind_eq_some_iff] at ran
    obtain ⟨T, stepped, ran⟩ := ran
    cases now : T.running tx with
    | false =>
      obtain ⟨before, later, P, rfl, ran', next⟩ := ih (h.step stepped) ran now
      refine ⟨e :: before, later, P, rfl, ?_, next⟩
      rw [run_cons, stepped]
      exact ran'
    | true =>
      obtain ⟨reply, s, told, rfl⟩ := outcome?_of_step stepped
      rcases effect_of_outcome h.guarded told with
        ⟨rfl, rfl, -⟩ | ⟨-, same, -⟩ | ⟨-, -, -, -, same, -⟩ | ⟨_, -, -, rest, -⟩
      · rw [running_after_begin, fresh, Bool.or_false, decide_eq_true_eq] at now
        exact ⟨[], es, M, rfl, rfl, now.symm⟩
      · rw [same, fresh] at now
        cases now
      · rw [same, fresh] at now
        cases now
      · rw [rest, fresh, Bool.and_false] at now
        cases now

theorem client_begun (S : Session) (s : Store) :
    (S.after .begin (.ok (.began S.store.nextTx)) s).clients.get? S.store.nextTx = some {} :=
  (Assoc.get?_insert ..).trans (if_pos rfl)

/-! Keeping up -/

/-- Running the committed transactions of `P` one after the other leads to `W`. There everything is as
it is on disk in `P`. -/
structure Serialized (settings : Settings) (M P W : Session) : Prop where
  ran : M.run (serial M.store.nextTx P.committed) = some W
  steady : Steady settings W
  committed : W.committed = P.committed
  next : W.store.nextTx = M.store.nextTx + P.committed.length
  kin : P.store.catalog.Kin W.store.catalog
  pages : ∀ ref, (W.store.catalog.table ref).pages ≤ (P.store.catalog.table ref).pages
  paged : W.store.catalog.Paged
  free : ∀ u id mode, ¬W.store.locks.Held u id mode
  same : ∀ id, W.store.total id = P.store.lasting id

/-- Nothing is committed but by a commit. -/
theorem Serialized.other (h : Serialized settings M P W) (steady : Steady settings P)
    (acts : e.transacts = true) (told : P.outcome? e = some (reply, s))
    (room : s.catalog.pageIds.length ≤ settings.poolPages) (other : ∀ u, e ≠ .commit u) :
    Serialized settings M (P.after e reply s) W := by
  have grown := grown_of_step steady acts told
  have room' := Nat.le_trans (Catalog.length_pageIds_le grown.size.symm grown.pages) room
  have committed : (P.after e reply s).committed = P.committed := by
    cases e with
    | commit u => exact absurd rfl (other u)
    | begin | op _ _ | abort _ | drop _ | flushPage _ | flushAll | discard _ | addTable _ => rfl
  refine ⟨committed ▸ h.ran, h.steady, h.committed.trans committed.symm, committed ▸ h.next,
    (kin_of_step steady acts room' told).symm.trans h.kin,
    fun ref => Nat.le_trans (h.pages ref) (grown.pages ref), h.paged, h.free, fun id => ?_⟩
  rw [h.same]
  exact (lasting_of_step steady acts room told fun u same => absurd same (other u)).symm

theorem Serialized.unowned (h : Serialized settings M P W) (id : PageId) : W.store.owner id = none := by
  apply Option.eq_none_iff_forall_ne_some.mpr
  intro u owned
  exact h.free u id _ (h.steady.guarded.owned id u owned)

/-- A transaction that is about to commit begins once more, after those that have committed. -/
theorem Serialized.begins (h : Serialized settings M Q W) (deadline : settings.hasDeadline = true)
    (accounted : ∀ u id mode, P.store.locks.Held u id mode → u < P.store.nextTx)
    (kin : P.store.catalog.Kin Q.store.catalog) : ∃ W',
      W.step .begin = some W' ∧ W'.committed = W.committed ∧ W'.store.nextTx = W.store.nextTx + 1 ∧
      Replays settings P.store.nextTx W.store.nextTx [] Q
        (P.after .begin (.ok (.began P.store.nextTx))
          { P.store with nextTx := P.store.nextTx + 1 }) W' := by
  let w : Store := { W.store with nextTx := W.store.nextTx + 1 }
  have told : W.outcome? .begin = some (.ok (.began W.store.nextTx), w) := rfl
  refine ⟨_, step_of_outcome? told, rfl, rfl, h.steady.acts told rfl, ?_, ?_,
    ⟨{}, {}, client_begun P _, client_begun W _, rfl, fun k r r' never => (by cases never),
      fun k never => (by cases never)⟩,
    kin.trans h.kin, h.pages, h.paged, ⟨?_, fun u id mode held => absurd held (h.free u id mode)⟩,
    fun id mode held => ?_, fun id _ => h.same id⟩
  · exact running_iff.mpr ⟨{}, client_begun W _, rfl⟩
  · rw [history_of_client (client_begun W _), history_of_client (client_begun P _)]
  · change W.store.settings.hasDeadline = true
    rw [h.steady.sane.settings, deadline]
  · exact absurd (accounted _ id mode held) (Nat.lt_irrefl _)

theorem completed_of_commit (h : Q.store.Coherent) (told : Q.outcome? (.commit tx) = some (reply, s)) :
    Q.running tx = true ∧ reply = .ok .done ∧ Q.store.Completed tx Q.store.content s := by
  obtain ⟨x, found, settled⟩ := Option.bind_eq_some_iff.mp told
  obtain ⟨running, rfl⟩ := action?_commit_eq_some_iff.mp found
  obtain ⟨answer, rfl, same, completed⟩ := settle_done (commit_completes h tx) settled
  cases answer with
  | ok a => exact ⟨running, rfl, completed⟩
  | error f => cases same

theorem Replays.commits (h : Replays settings tx u usable Q Q W) (steady : Steady settings Q)
    (told : Q.outcome? (.commit tx) = some (reply, s)) : ∃ w,
      W.outcome? (.commit u) = some (.ok .done, w) ∧ w.catalog = W.store.catalog ∧
      w.nextTx = W.store.nextTx ∧ (∀ v id mode, ¬w.locks.Held v id mode) ∧
      ∀ id, w.total id = s.lasting id := by
  obtain ⟨-, -, completed⟩ := completed_of_commit steady.coherent told
  obtain ⟨w, settled', completed'⟩ := settle_returns (commit_completes h.steady.coherent u)
  have allowed := action?_commit_eq_some_iff.mpr ⟨h.running, rfl⟩
  have kept : ∀ id, w.total id = W.store.total id := by
    intro id
    rw [total, completed'.view_of_commit]
    rfl
  refine ⟨w, ?_, by rw [completed'.rest], by rw [completed'.rest], fun v id mode held => ?_,
    fun id => ?_⟩
  · rw [outcome?, allowed]
    exact settled'
  · rw [completed'.rest] at held
    obtain ⟨before, other⟩ := Locks.held_releaseAll.mp held
    exact other (h.sole.mine v id mode before)
  · rw [kept, completed.lasting steady.coherent]
    by_cases held : ∃ mode, Q.store.locks.Held tx id mode
    · obtain ⟨mode, held⟩ := held
      rw [h.seen id mode held]
      split
      · rfl
      · rename_i other
        exact steady.coherent.total_of_clean ((steady.guarded.owner_of_held held).resolve_left other)
    · rw [h.ahead id fun mode here => held ⟨mode, here⟩, if_neg]
      exact fun owned => held ⟨_, steady.guarded.owned id tx owned⟩

/-- A transaction that commits is run once more, after those that have committed before. -/
theorem Serialized.commit (h : Serialized settings M Q W) (deadline : settings.hasDeadline = true)
    (accounted : ∀ u id mode, P.store.locks.Held u id mode → u < P.store.nextTx)
    (going : Going settings P.store.nextTx es (P.after .begin (.ok (.began P.store.nextTx))
      { P.store with nextTx := P.store.nextTx + 1 }) Q)
    (steady : Steady settings Q) (proper : Proper (Q.history P.store.nextTx))
    (told : Q.outcome? (.commit P.store.nextTx) = some (reply, s)) : ∃ W',
      Serialized settings M (Q.after (.commit P.store.nextTx) reply s) W' := by
  obtain ⟨W₁, began, committed, next, replays⟩ := h.begins deadline accounted going.kin
  -- its steps
  obtain ⟨W₂, usable, ran, replays'⟩ := replays.run going proper.1
    (by rw [history_of_client (client_begun P _)]; rfl) proper.2
  obtain ⟨past, isolated⟩ := replays.steady.isolated
  obtain ⟨committed', next'⟩ := steps_run isolated ran
  -- its commit
  obtain ⟨-, rfl, -⟩ := completed_of_commit steady.coherent told
  obtain ⟨w, told', catalog, next'', free, same⟩ := replays'.commits steady told
  have catalog' := catalog_of_step steady rfl told fun _ _ never => by cases never
  have last : (W₂.after (.commit W.store.nextTx) (.ok .done) w).committed =
      Q.committed ++ [Q.history P.store.nextTx] := by
    change W₂.committed ++ [W₂.history W.store.nextTx] = _
    rw [committed', committed, h.committed, replays'.history]
  refine ⟨W₂.after (.commit W.store.nextTx) (.ok .done) w, ?_, replays'.steady.acts told' rfl, last, ?_,
    ?_, fun ref => ?_, ?_, free, same⟩
  · change M.run (serial M.store.nextTx (Q.committed ++ [Q.history P.store.nextTx])) = _
    rw [serial_snoc, run_append, h.ran, Option.bind_some, run_cons, began, Option.bind_some, ← h.next,
      run_append, ran, Option.bind_some, run_cons, step_of_outcome? told']
    rfl
  · change w.nextTx = M.store.nextTx + (Q.committed ++ [Q.history P.store.nextTx]).length
    rw [next'', next', next, h.next, List.length_append]
    rfl
  · change s.catalog.Kin w.catalog
    rw [catalog, catalog']
    exact replays'.kin
  · change (w.catalog.table ref).pages ≤ (s.catalog.table ref).pages
    rw [catalog, catalog']
    exact replays'.pages ref
  · change w.catalog.Paged
    rw [catalog]
    exact replays'.paged

/-- Where tables were opened and nothing else was done, all is in memory as it is on disk. -/
theorem serialized_opened (opened : (start (Store.new settings disk)).run (opening.map .addTable) = some M)
    (apart : M.store.catalog.Apart) (paged : M.store.catalog.Paged) : Serialized settings M M M := by
  obtain ⟨-, committed, fresh⟩ := opened_run opened
  have coherent := fresh.coherent apart
  have sane : Sane settings M :=
    ⟨coherent, fresh.settings, fun u id held => absurd held (fresh.unlocked u id .exclusive)⟩
  exact ⟨by rw [committed]; rfl, ⟨sane, ⟨_, isolated_run opened⟩, assigned_run opened⟩, rfl,
    by rw [committed]; rfl, .refl _, fun _ => Nat.le_refl _, paged, fresh.unlocked,
    fun id => coherent.total_of_clean (fresh.owner id)⟩

theorem mem_committed_after (listed : history ∈ S.committed) :
    history ∈ (S.after e reply s).committed := by
  cases e with
  | commit u =>
    cases reply with
    | ok a => exact List.mem_append_left _ listed
    | error f => exact listed
  | begin | op _ _ | abort _ | drop _ | flushPage _ | flushAll | discard _ | addTable _ => exact listed

/-- The committed transactions can be run one after the other. -/
theorem serialized_run (opened : (start (Store.new settings disk)).run (opening.map .addTable) = some M)
    (apart : M.store.catalog.Apart) (paged : M.store.catalog.Paged)
    (deadline : settings.hasDeadline = true) (ran : M.run es = some S)
    (acts : ∀ e ∈ es, e.transacts = true) (room : S.store.catalog.pageIds.length ≤ settings.poolPages)
    (proper : ∀ history ∈ S.committed, Proper history) : ∃ W, Serialized settings M S W := by
  have first := serialized_opened opened apart paged
  obtain ⟨clients, -, -⟩ := opened_run opened
  refine (run_invariant (I := fun es S => M.run es = some S ∧ ((∀ e ∈ es, e.transacts = true) →
    S.store.catalog.pageIds.length ≤ settings.poolPages → (∀ history ∈ S.committed, Proper history) →
    ∃ W, Serialized settings M S W)) ?_ ⟨rfl, fun _ _ _ => ⟨M, first⟩⟩ ran).2 acts room proper
  rintro es Q e T ⟨ran, ih⟩ stepped
  refine ⟨run_snoc ran stepped, fun acts room proper => ?_⟩
  obtain ⟨reply, s, told, rfl⟩ := outcome?_of_step stepped
  have before : ∀ e ∈ es, e.transacts = true := fun e listed => acts e (List.mem_append_left _ listed)
  have last : e.transacts = true := acts e (List.mem_append_right _ (List.mem_singleton.mpr rfl))
  obtain ⟨steady, -⟩ := first.steady.run ran before
  have grown := grown_of_step steady last told
  have room' := Nat.le_trans (Catalog.length_pageIds_le grown.size.symm grown.pages) room
  obtain ⟨W, serialized⟩ := ih before room' fun history listed =>
    proper history (mem_committed_after listed)
  by_cases commits : ∃ tx, e = .commit tx
  · obtain ⟨tx, rfl⟩ := commits
    obtain ⟨running, rfl, -⟩ := completed_of_commit steady.coherent told
    have fresh : M.running tx = false := by
      rw [Session.running, clients]
      rfl
    -- where it has begun
    obtain ⟨sooner, later, P, rfl, ran', rfl⟩ := (isolated_run opened).begins ran fresh running
    obtain ⟨steady', grown'⟩ := first.steady.run ran' fun e listed =>
      before e (List.mem_append_left _ listed)
    have begun : P.outcome? .begin =
      some (.ok (.began P.store.nextTx), { P.store with nextTx := P.store.nextTx + 1 }) := rfl
    rw [run_append, ran', Option.bind_some, run_cons, step_of_outcome? begun, Option.bind_some] at ran
    have whole : (start (Store.new settings disk)).run (opening.map .addTable ++ sooner) = some P := by
      rw [run_append, opened]
      exact ran'
    have accounted := accounted_run whole
    have going : Going settings P.store.nextTx later _ Q :=
      ⟨steady'.acts begun rfl, ran,
        fun e listed => before e (List.mem_append_right _ (List.mem_cons_of_mem _ listed)), room',
        paged.grown grown', running, Nat.lt_succ_self _⟩
    exact serialized.commit deadline (fun u id mode held => (accounted.locks u id mode held).1) going steady
      (proper _ (List.mem_append_right _ (List.mem_singleton.mpr rfl))) told
  · exact ⟨W, serialized.other steady last told room fun tx same => commits ⟨tx, same⟩⟩

theorem Steady.idle (h : Steady settings S) (ended : ∀ tx, S.running tx = false)
    (frames : 0 < settings.poolPages) :
    S.store.Idle ∧ ∀ u id, ¬S.store.locks.Held u id .exclusive := by
  obtain ⟨past, isolated⟩ := h.isolated
  have none : ∀ u, S.running u ≠ true := by simp [ended]
  refine ⟨⟨h.coherent, fun id => ?_, h.sane.settings ▸ frames⟩,
    fun u id held => none u (h.sane.locked u id held)⟩
  apply Option.eq_none_iff_forall_ne_some.mpr
  exact fun u owned => none u (isolated.owned id u owned).1

/-- Where nothing is under way each table tells the rows that it has after running the committed
transactions one after the other. -/
theorem Serialized.scanned (h : Serialized settings M S W) (steady : Steady settings S)
    (deadline : settings.hasDeadline = true) (paged : S.store.catalog.Paged)
    (room : S.store.catalog.pageIds.length ≤ settings.poolPages)
    (ended : ∀ tx, S.running tx = false) {i : TableId} {ref : TableRef}
    (known : S.store.catalog.ref i = .ok ref) : ∃ rows,
      S.store.scanned i = .ok (rows, none) ∧ W.store.scanned i = .ok (rows, none) := by
  have pages := paged i ref known
  obtain ⟨-, key⟩ := steady.guarded.keyed _ _ known
  have frames : 0 < settings.poolPages := by
    have has : S.store.catalog.Has ⟨i, 0⟩ := ⟨ref, known, pages⟩
    have listed := Catalog.mem_pageIds_of_lists (lists_of_has steady.guarded has)
    exact Nat.lt_of_lt_of_le (List.length_pos_of_mem listed) room
  have readable : ∀ T : Session, Steady settings T → 0 < (T.store.catalog.table ref).pages →
      ¬T.store.Unreadable ref := by
    rintro T steady pages (none | ⟨-, impatient⟩)
    · simp [Table.pages, none] at pages
    · rw [steady.sane.settings, deadline] at impatient
      cases impatient
  obtain ⟨idle, free⟩ := steady.idle ended frames
  have idle' : W.store.Idle := ⟨h.steady.coherent, h.unowned, h.steady.sane.settings ▸ frames⟩
  have known' : W.store.catalog.ref i = .ok ref := by rw [h.kin.ref, known]
  refine ⟨(S.store.view.rowsFrom ref 0).map Row.placed, ?_, ?_⟩
  · rw [scanned_eq idle known free, if_neg (readable S steady pages)]
  · rw [scanned_eq idle' known' fun tx id held => h.free tx id _ held,
      if_neg (readable W h.steady (h.paged i ref known'))]
    have rows : W.store.view.rowsFrom ref 0 = S.store.view.rowsFrom ref 0 := by
      refine Plain.rowsFrom_congr h.kin (show S.store.catalog.ref _ = _ from key ▸ known) fun number _ => ?_
      change W.store.total _ = S.store.total _
      rw [h.same, steady.coherent.total_of_clean (idle.clean _)]
    rw [rows]

/-- Transactions are serializable in the order of their commits. Let any number of transactions take
their steps in any order, on tables in distinct files that all have a page at the start, with a frame
for each page that there is in the end and with requests for locks that give up. If those that are
committed are told no errors, and change nothing while they scan, then running them alone, one after the
other, tells them the same again: the same record ids, the same rows. Once none is under way, all tables
have the same rows as after that. -/
theorem serializable (opened : (start (Store.new settings disk)).run (opening.map .addTable) = some M)
    (apart : M.store.catalog.Apart) (paged : M.store.catalog.Paged)
    (deadline : settings.hasDeadline = true) (ran : M.run es = some S)
    (acts : ∀ e ∈ es, e.transacts = true) (room : S.store.catalog.pageIds.length ≤ settings.poolPages)
    (proper : ∀ history ∈ S.committed, Proper history) : ∃ W,
      M.run (serial M.store.nextTx S.committed) = some W ∧ W.committed = S.committed ∧
      ((∀ tx, S.running tx = false) → ∀ i ref, S.store.catalog.ref i = .ok ref → ∃ rows,
        S.store.scanned i = .ok (rows, none) ∧ W.store.scanned i = .ok (rows, none)) := by
  obtain ⟨W, serialized⟩ := serialized_run opened apart paged deadline ran acts room proper
  obtain ⟨steady, grown⟩ := (serialized_opened opened apart paged).steady.run ran acts
  exact ⟨W, serialized.ran, serialized.committed, fun ended i ref known =>
    serialized.scanned steady deadline (paged.grown grown) room ended known⟩

/-- Three transactions on two tables. The second one is committed first, and the first one sees what it
has stored. The third one is denied a lock and aborted. -/
def interleaved : List Event :=
  let schema : Schema := ⟨[⟨.integer, some "n"⟩]⟩
  [.begin, .begin, .begin, .op 1 (.insert 1 ⟨schema, [.integer 7], none⟩), .op 1 (.scan 2),
    .op 2 (.insert 2 ⟨schema, [.integer 8], none⟩), .op 3 (.insert 1 ⟨schema, [.integer 9], none⟩),
    .commit 2, .op 1 (.iterate 0 .start), .abort 3, .op 1 (.iterate 0 .hasNext),
    .op 1 (.iterate 0 .next), .op 1 (.iterate 0 .hasNext), .commit 1]

theorem serializable_interleaved :
    let schema : Schema := ⟨[⟨.integer, some "n"⟩]⟩
    let opening : List NewTable := [.load "odd" "odd" schema "n", .load "even" "even" schema "n"]
    ∃ M S W, (start (Store.new { pageSize := 16, poolPages := 2, lockWait := 0 }
        ⟨[("odd", .ofBytes (.zeros 16)), ("even", .ofBytes (.zeros 16))]⟩)).run
          (opening.map .addTable) = some M ∧
      M.run interleaved = some S ∧ S.replies.any (fun reply => !reply.isOk) = true ∧
      S.committed.map List.length = [1, 6] ∧ M.run (serial 1 S.committed) = some W ∧
      W.committed = S.committed ∧
      S.store.scanned 1 = .ok ([(some (0, 0), [.integer 7])], none) ∧
      W.store.scanned 1 = .ok ([(some (0, 0), [.integer 7])], none) ∧
      S.store.scanned 2 = .ok ([(some (0, 0), [.integer 8])], none) ∧
      W.store.scanned 2 = .ok ([(some (0, 0), [.integer 8])], none) := by
  intro schema opening
  have facts : ((start (Store.new { pageSize := 16, poolPages := 2, lockWait := 0 }
      ⟨[("odd", .ofBytes (.zeros 16)), ("even", .ofBytes (.zeros 16))]⟩)).run
      (opening.map .addTable)).any (fun M => M.store.catalog.Distinct ∧
        (∀ ref < M.store.catalog.opened.size, 0 < (M.store.catalog.table ref).pages) ∧
        M.store.nextTx = 1 ∧ (M.run interleaved).any (fun S =>
          S.store.catalog.pageIds.length ≤ 2 ∧ (∀ history ∈ S.committed, Proper history) ∧
          S.replies.any (fun reply => !reply.isOk) = true ∧ S.committed.map List.length = [1, 6] ∧
          S.store.nextTx = 4 ∧ (∀ tx < 4, S.running tx = false) ∧ [1, 2].all (fun i =>
            S.store.catalog.ref i = .ok (i - 1) ∧
            (S.store.scanned i).toOption = some ([(some (0, 0), [.integer (.ofNat (i + 6))])], none)) = true) =
              true) = true := by
    decide +kernel
  obtain ⟨M, opened, facts⟩ := (Option.any_eq_true _ _).mp facts
  obtain ⟨distinct, pages, next, facts⟩ := of_decide_eq_true facts
  obtain ⟨S, ran, facts⟩ := (Option.any_eq_true _ _).mp facts
  obtain ⟨room, proper, denied, lengths, next', ended, told⟩ := of_decide_eq_true facts
  have keyed := (isolated_run opened).guarded.keyed
  obtain ⟨W, ran', same, rows⟩ := serializable opened (distinct.apart keyed)
    (fun i ref known => pages ref (keyed i ref known).1) (by decide) ran (by decide) room proper
  have idle : ∀ tx, S.running tx = false := by
    intro tx
    have whole := isolated_run ((run_append _ _ _).trans (by rw [opened]; exact ran))
    cases running : S.running tx with
    | false => rfl
    | true => exact running.symm.trans (ended tx (next' ▸ whole.started tx running))
  have alone : ∀ i ∈ [1, 2], S.store.scanned i = .ok ([(some (0, 0), [.integer (.ofNat (i + 6))])], none) ∧
      W.store.scanned i = .ok ([(some (0, 0), [.integer (.ofNat (i + 6))])], none) := by
    intro i listed
    obtain ⟨known, found⟩ := of_decide_eq_true (List.all_eq_true.mp told i listed)
    obtain ⟨rows, scan, scan'⟩ := rows idle i _ known
    rw [scan] at found
    cases found
    exact ⟨scan, scan'⟩
  obtain ⟨odd, odd'⟩ := alone 1 (by decide)
  obtain ⟨even, even'⟩ := alone 2 (by decide)
  exact ⟨M, S, W, opened, ran, denied, lengths, next ▸ ran', same, odd, odd', even, even'⟩

end Session
end HeapStore
