import HeapStore.Proofs.Opening
import HeapStore.Proofs.Twins

/-! How many pages fit into the pool is not to be seen. Two sessions that differ only in that tell the
same, step by step, unless one of them finds its pool exhausted or takes back what it has already
written through to a file. -/
namespace HeapStore

/-- Whether a step was refused because no frame could be had. -/
def Reply.exhausted : Reply → Bool
  | .error f =>
    match f.cause? with
    | some (.poolExhausted _) => true
    | _ => false
  | .ok _ => false

/-- Whether a step is one of a transaction. -/
def Event.transacts : Event → Bool
  | .begin | .op _ _ | .commit _ | .abort _ => true
  | _ => false

theorem Plain.changeOf_eq {tx : TxId} {scans : List ScanRef} {o : Op} {y : Act Outcome} {v w : Plain}
    {out : Outcome} (found : perform? tx scans o = some y) (ended : y v = .ok out w) :
    changeOf (.op tx o, .ok out.answer) = out.change.map fun c => (tx, c.1) := by
  cases o with
  | insert table row =>
    cases found
    obtain ⟨ref, place, -, -, -, -, rfl⟩ := insertRow_ok ended
    rfl
  | delete record? =>
    cases found
    cases record? with
    | none => cases ended
    | some record =>
      obtain ⟨v', _, -, ended⟩ := bind_eq_ok_iff.mp ended
      obtain ⟨ref, _, -, ended⟩ := bind_eq_ok_iff.mp ended
      obtain ⟨bytes, _, -, ended⟩ := bind_eq_ok_iff.mp ended
      cases ended
      rfl
  | scan table =>
    cases found
    obtain ⟨r, _, -, ended⟩ := bind_eq_ok_iff.mp ended
    cases ended
    rfl
  | iterate k step =>
    obtain ⟨r, -, rfl⟩ := Option.map_eq_some_iff.mp found
    cases step
    all_goals
      obtain ⟨a, _, -, ended⟩ := bind_eq_ok_iff.mp ended
      cases ended
      rfl

namespace Store

theorem eq_of_mapError {α : Type} {answer : Except Failure α} {r : Except Stop α}
    (same : answer.mapError Stop.failed = r) : (∃ a, answer = .ok a ∧ r = .ok a) ∨
      ∃ f, answer = .error f ∧ r = .error (.failed f) := by
  cases answer with
  | ok a => exact Or.inl ⟨a, rfl, same.symm⟩
  | error f => exact Or.inr ⟨f, rfl, same.symm⟩

theorem not_exhausted {s : Store} {reply : Reply} (room : reply.exhausted = false) {e : Stop}
    (told : reply.mapError Stop.failed = .error e) : ¬s.Exhausted e := by
  rintro ⟨⟨n, rfl⟩, -⟩
  rcases eq_of_mapError told with ⟨a, -, never⟩ | ⟨f, rfl, same⟩
  · cases never
  · cases same
    cases room

/-- How a step ends that does not find the pool exhausted. -/
theorem settle_performs {may : Prop} {s : Store} {tx : TxId} {x : Action Answer}
    {y : Plain.Act Plain.Outcome}
    (ends : x.Ends s (Performs may tx s y))
    (room : may → ∀ reply s', Session.settle x s = some (reply, s') →
      ∀ e, reply.mapError Stop.failed = .error e → ¬s'.Exhausted e) :
    match y s.view with
    | .ok o v => ∃ t s', Session.settle x s = some (.ok o.answer, s') ∧ s.Upkeep tx t ∧ t.view = v ∧
        Applied tx o.change t s'
    | .error .crashed _ => Session.settle x s = none
    | .error (.failed f) v => ∃ s', Session.settle x s = some (.error f, s') ∧ s.Upkeep tx s' ∧
        s'.view = v := by
  rcases Session.settle_cases ends with ⟨none, s', performs⟩ | ⟨reply, s', some, performs⟩
  · rcases performs with ⟨-, e, crashed, ⟨⟨n, rfl⟩, -⟩, -⟩ | performs
    · cases crashed
    · split at performs
      · obtain ⟨a, t, never, -⟩ := performs
        cases never
      · rename_i e v ended
        rw [ended]
        cases performs.1
        exact none
  · rcases performs with ⟨allowed, e, told, exhausted, -⟩ | performs
    · exact absurd exhausted (room allowed reply s' some e told)
    · split at performs
      · rename_i o v ended
        rw [ended]
        obtain ⟨a, t, told, upkeep, view, rfl, applied⟩ := performs
        rcases eq_of_mapError told with ⟨a, rfl, same⟩ | ⟨f, -, never⟩
        · cases same
          exact ⟨t, s', some, upkeep, view, applied⟩
        · cases never
      · rename_i e v ended
        rw [ended]
        obtain ⟨told, rest⟩ := performs
        rcases eq_of_mapError told with ⟨a, -, never⟩ | ⟨f, rfl, same⟩
        · cases never
        · cases same
          obtain ⟨upkeep, view⟩ := rest.resolve_left (by simp)
          exact ⟨s', some, upkeep, view⟩

/-! The same tables can be opened with a pool of any size -/

/-- The same store with an empty pool of another size. -/
def withPool (n : Nat) (s : Store) : Store :=
  { s with settings := { s.settings with poolPages := n }, pool := .new n }

/-- Whether an action does not look at the pool at all. -/
def IgnoresPool (n : Nat) {α : Type} (x : Action α) : Prop := ∀ s, x (s.withPool n) =
  match x s with
  | .ok a s' => .ok a (s'.withPool n)
  | .error e s' => .error e (s'.withPool n)

variable {n : Nat} {α β : Type}

theorem ignoresPool_pure (a : α) : IgnoresPool n (pure a : Action α) := fun _ => rfl

theorem ignoresPool_bind {x : Action α} {f : α → Action β} (first : IgnoresPool n x)
    (later : ∀ a, IgnoresPool n (f a)) : IgnoresPool n (x >>= f) := by
  intro s
  simp only [bind, EStateM.bind, first s]
  cases x s with
  | ok a s' => exact later a s'
  | error e s' => rfl

theorem ignoresPool_createWithId (id : TableId) (path name : String) (schema : Schema) (key : String)
    (pageSize : Nat) : IgnoresPool n (createWithId id path name schema key pageSize) := by
  intro s
  have disk : (s.withPool n).disk = s.disk := rfl
  simp only [createWithId, register, Action.within, bind, EStateM.bind, Action.get_eq, disk]
  cases Table.create s.disk id path schema pageSize <;> rfl

theorem ignoresPool_openWithId (id : TableId) (path name : String) (schema : Schema) (key : String)
    (pageSize : Nat) : IgnoresPool n (openWithId id path name schema key pageSize) := by
  intro s
  have disk : (s.withPool n).disk = s.disk := rfl
  simp only [openWithId, register, Action.within, bind, EStateM.bind, Action.get_eq, disk]
  cases Table.load s.disk id path schema pageSize <;> rfl

theorem ignoresPool_allocate {x : TableId → Nat → Action Unit}
    (later : ∀ id pageSize, IgnoresPool n (x id pageSize)) : IgnoresPool n
      (do let id ← allocateId; x id (← get).settings.pageSize; return id) := by
  refine ignoresPool_bind (fun _ => rfl) fun id s => ?_
  exact ignoresPool_bind (later id s.settings.pageSize) (fun _ => ignoresPool_pure id) s

theorem ignoresPool_newTable (t : NewTable) : IgnoresPool n t.perform := by
  cases t with
  | create path name schema key =>
    refine ignoresPool_bind ?_ fun _ => ignoresPool_pure _
    exact ignoresPool_allocate fun id => ignoresPool_createWithId id path name schema key
  | load path name schema key =>
    refine ignoresPool_bind ?_ fun _ => ignoresPool_pure _
    exact ignoresPool_allocate fun id => ignoresPool_openWithId id path name schema key
  | createWithId id path name schema key pageSize =>
    refine ignoresPool_bind ?_ fun _ => ignoresPool_pure _
    exact ignoresPool_createWithId id path name schema key pageSize
  | loadWithId id path name schema key pageSize =>
    refine ignoresPool_bind ?_ fun _ => ignoresPool_pure _
    exact ignoresPool_openWithId id path name schema key pageSize

end Store

namespace Session
open Store

variable {S U : Session} {past es : List Event} {e : Event} {reply : Reply} {s u : Store} {tx v : TxId}
  {id : PageId}

/-- The steps of a run, as far as it goes. -/
def trace (S : Session) : List Event → List (Session × Event × Reply)
  | [] => []
  | e :: es =>
    match S.outcome? e with
    | some (reply, s) => (S, e, reply) :: (S.after e reply s).trace es
    | none => []

/-- The transaction whose change a step writes through to the file at once. The page is not cached, and
there is a dirty page in every frame. -/
def through? (step : Session × Event × Reply) : Option TxId :=
  match changeOf step.2 with
  | some (tx, id) =>
    if step.1.store.pool.image? id = none ∧ step.1.store.pool.AllDirty then some tx else none
  | none => none

/-- No step of the run finds the pool exhausted, and no transaction is aborted that has written
through. -/
structure Smooth (S : Session) (es : List Event) : Prop where
  room : ∀ step ∈ S.trace es, step.2.2.exhausted = false
  kept : ∀ step ∈ S.trace es, ∀ tx, through? step = some tx → Event.abort tx ∉ es

theorem trace_cons (told : S.outcome? e = some (reply, s)) :
    S.trace (e :: es) = (S, e, reply) :: (S.after e reply s).trace es := by
  simp [trace, told]

theorem Smooth.room_first (h : Smooth S (e :: es)) (told : S.outcome? e = some (reply, s)) :
    reply.exhausted = false :=
  h.room (S, e, reply) (by simp [trace_cons told])

theorem Smooth.kept_first (h : Smooth S (e :: es)) (told : S.outcome? e = some (reply, s))
    (change : changeOf (e, reply) = some (tx, id))
    (through : S.store.pool.image? id = none ∧ S.store.pool.AllDirty) : Event.abort tx ∉ e :: es :=
  h.kept (S, e, reply) (by simp [trace_cons told]) tx (by simp [through?, change, through])

theorem Smooth.after (h : Smooth S (e :: es)) (told : S.outcome? e = some (reply, s)) :
    Smooth (S.after e reply s) es where
  room step listed := h.room step (by simp [trace_cons told, listed])
  kept step listed tx through later :=
    h.kept step (by simp [trace_cons told, listed]) tx through (List.mem_cons_of_mem _ later)

/-- A running transaction was the last to change the page and will not be aborted. -/
def Suspect (past es : List Event) (S : Session) (id : PageId) (tx : TxId) : Prop :=
  Event.abort tx ∉ es ∧ S.running tx = true ∧ lastChange (past.zip S.replies) id = some tx

theorem Suspect.after (h : Suspect past (e :: es) S id tx) (told : S.replies.length = past.length)
    (running : (S.after e reply s).running tx = S.running tx)
    (other : ∀ v, changeOf (e, reply) ≠ some (v, id)) :
    Suspect (past ++ [e]) es (S.after e reply s) id tx := by
  obtain ⟨kept, runs, last⟩ := h
  refine ⟨fun later => kept (List.mem_cons_of_mem _ later), running.trans runs, ?_⟩
  rw [zip_after told, lastChange_append]
  split
  · rename_i v id' change
    rw [if_neg ?_, last]
    rintro rfl
    exact other v change
  · exact last

/-- Two sessions of which the same can be seen. Some events are left to come. -/
structure Alike (past es : List Event) (S U : Session) : Prop where
  twins : Twins (Suspect past es S) S.store U.store
  coherent : S.store.Coherent
  coherent' : U.store.Coherent
  isolated : Isolated past S
  clients : U.clients = S.clients
  replies : U.replies = S.replies

/-- Both sessions take the step and stay alike, or both crash. -/
def Together (past es : List Event) (e : Event) (S U : Session) : Prop :=
  S.outcome? e = none ∧ U.outcome? e = none ∨
    ∃ reply s u, S.outcome? e = some (reply, s) ∧ U.outcome? e = some (reply, u) ∧
      Alike (past ++ [e]) es (S.after e reply s) (U.after e reply u)

theorem step_of_outcome? (told : S.outcome? e = some (reply, s)) : S.step e = some (S.after e reply s) := by
  simp [step_eq_map, told]

theorem Alike.scans (h : Alike past es S U) : U.store.scans = S.store.scans :=
  congrArg Plain.scans h.twins.view

theorem Alike.running (h : Alike past es S U) : U.running tx = S.running tx := by
  simp [Session.running, h.clients]

theorem Alike.together (h : Alike past (e :: es) S U) (told : S.outcome? e = some (reply, s))
    (told' : U.outcome? e = some (reply, u)) (coherent : s.Coherent) (coherent' : u.Coherent)
    (twins : Twins (Suspect (past ++ [e]) es (S.after e reply s)) s u) : Together past es e S U := by
  refine Or.inr ⟨reply, s, u, told, told', twins, coherent, coherent',
    h.isolated.step (step_of_outcome? told), ?_, ?_⟩
  · cases e <;> simp [after, clientsAfter, update, h.clients, h.scans]
  · simp [after, h.replies]

theorem together_begin (h : Alike past (.begin :: es) S U) : Together past es .begin S U := by
  have next : U.store.nextTx = S.store.nextTx := congrArg Plain.nextTx h.twins.view
  let s : Store := { S.store with nextTx := S.store.nextTx + 1 }
  let u : Store := { U.store with nextTx := S.store.nextTx + 1 }
  have told : S.outcome? .begin = some (.ok (.began S.store.nextTx), s) := rfl
  have told' : U.outcome? .begin = some (.ok (.began S.store.nextTx), u) := by
    simp only [u, ← next]
    rfl
  refine h.together told told' (h.coherent.withNextTx _) (h.coherent'.withNextTx _)
    ⟨?_, fun id => ?_, h.twins.files⟩
  · exact congrArg (fun v : Plain => { v with nextTx := S.store.nextTx + 1 }) h.twins.view
  · refine (h.twins.pages id).imp_right ?_
    rintro ⟨tx, suspect, owned, owned'⟩
    refine ⟨tx, suspect.after h.isolated.told ?_ ?_, owned, owned'⟩
    · rw [running_after_begin, suspect.2.1, Bool.or_true]
    · exact fun _ never => by cases never

theorem outcome?_commit : S.outcome? (.commit tx) =
    if S.running tx then settle (do Store.commit tx; return .done) S.store else none := by
  simp only [outcome?, action?]
  split <;> rfl

theorem outcome?_abort : S.outcome? (.abort tx) =
    if S.running tx then settle (do Store.abort tx; return .done) S.store else none := by
  simp only [outcome?, action?]
  split <;> rfl

theorem together_commit (h : Alike past (.commit tx :: es) S U) : Together past es (.commit tx) S U := by
  cases running : S.running tx with
  | false =>
    have running' : U.running tx = false := h.running.trans running
    exact Or.inl (by simp [outcome?_commit, running, running'])
  | true =>
    have running' : U.running tx = true := h.running.trans running
    obtain ⟨s, settled, completed⟩ := settle_returns (commit_completes h.coherent tx)
    obtain ⟨u, settled', completed'⟩ := settle_returns (commit_completes h.coherent' tx)
    have told : S.outcome? (.commit tx) = some (.ok .done, s) := by
      simp only [outcome?_commit, running, if_true, settled]
    have told' : U.outcome? (.commit tx) = some (.ok .done, u) := by
      simp only [outcome?_commit, running', if_true, settled']
    refine h.together told told' completed.coherent completed'.coherent
      (h.twins.committed h.coherent h.coherent' completed completed' fun id v other suspect => ?_)
    refine suspect.after h.isolated.told ?_ fun _ never => by cases never
    exact (running_finish S tx v).trans (by simp [other])

theorem together_abort (h : Alike past (.abort tx :: es) S U) : Together past es (.abort tx) S U := by
  cases running : S.running tx with
  | false =>
    have running' : U.running tx = false := h.running.trans running
    exact Or.inl (by simp [outcome?_abort, running, running'])
  | true =>
    have running' : U.running tx = true := h.running.trans running
    obtain ⟨s, settled, completed, -⟩ := settle_returns (abort_completes h.coherent tx)
    obtain ⟨u, settled', completed', -⟩ := settle_returns (abort_completes h.coherent' tx)
    have told : S.outcome? (.abort tx) = some (.ok .done, s) := by
      simp only [outcome?_abort, running, if_true, settled]
    have told' : U.outcome? (.abort tx) = some (.ok .done, u) := by
      simp only [outcome?_abort, running', if_true, settled']
    refine h.together told told' completed.coherent completed'.coherent
      (h.twins.aborted h.coherent h.coherent' completed completed' fun id v suspect => ?_)
    -- nobody is aborted that is still to be suspected
    have other : v ≠ tx := by
      rintro rfl
      exact suspect.1 (List.mem_cons_self ..)
    refine ⟨other, suspect.after h.isolated.told ?_ fun _ never => by cases never⟩
    exact (running_finish S tx v).trans (by simp [other])

/-- A page that a running transaction was the last to change is not changed by another one. -/
theorem alone_of_change (h : Isolated past S) {o : Op} (told : S.outcome? (.op tx o) = some (reply, s))
    (change : changeOf (.op tx o, reply) = some (tx, id)) :
    S.running tx = true ∧ ∀ v, S.running v = true → lastChange (past.zip S.replies) id = some v →
      v = tx := by
  obtain ⟨running, alters⟩ := alters_of_change h.guarded told change
  refine ⟨running, fun v runs last => ?_⟩
  by_cases mine : v = tx
  · exact mine
  · exact absurd rfl (alters.page_ne (h.held id v last runs) (Ne.symm mine))

theorem together_op {o : Op} (h : Alike past (.op tx o :: es) S U)
    (smooth : Smooth S (.op tx o :: es)) (smooth' : Smooth U (.op tx o :: es)) :
    Together past es (.op tx o) S U := by
  have action : U.action? (.op tx o) = S.action? (.op tx o) := by simp [action?, h.clients]
  cases found : S.action? (.op tx o) with
  | none => exact Or.inl (by simp [outcome?, action, found])
  | some x =>
    obtain ⟨c, -, -, performed⟩ := action?_op_eq_some_iff.mp found
    obtain ⟨y, plain, ends⟩ := perform_follows h.coherent performed
    obtain ⟨_, plain', ends'⟩ := perform_follows h.coherent' performed
    cases plain.symm.trans plain'
    have outcome : S.outcome? (.op tx o) = settle x S.store := by simp [outcome?, found]
    have outcome' : U.outcome? (.op tx o) = settle x U.store := by simp [outcome?, action, found]
    have first := settle_performs ends fun _ reply s settled _ =>
      not_exhausted (smooth.room_first (outcome.trans settled))
    have second := settle_performs ends' fun _ reply u settled _ =>
      not_exhausted (smooth'.room_first (outcome'.trans settled))
    rw [h.twins.view] at second
    cases ended : y S.store.view with
    | error e v =>
      rw [ended] at first second
      cases e with
      | crashed => exact Or.inl ⟨outcome.trans first, outcome'.trans second⟩
      | failed f =>
        obtain ⟨s, settled, upkeep, view⟩ := first
        obtain ⟨u, settled', upkeep', view'⟩ := second
        refine h.together (outcome.trans settled) (outcome'.trans settled') upkeep.coherent
          upkeep'.coherent ?_
        refine (h.twins.upkeep h.coherent h.coherent' upkeep upkeep' (view'.trans view.symm)).mono ?_
        refine fun id v suspect => suspect.after h.isolated.told (running_after_op ..) fun u => ?_
        simp [changeOf_error]
    | ok out v =>
      rw [ended] at first second
      obtain ⟨t, s, settled, upkeep, view, applied⟩ := first
      obtain ⟨t', u, settled', upkeep', view', applied'⟩ := second
      have twins := h.twins.upkeep h.coherent h.coherent' upkeep upkeep' (view'.trans view.symm)
      have change := Plain.changeOf_eq plain ended
      have told := outcome.trans settled
      have told' := outcome'.trans settled'
      cases changed : out.change with
      | none =>
        rw [changed] at applied applied' change
        cases applied
        cases applied'
        refine h.together told told' upkeep.coherent upkeep'.coherent (twins.mono ?_)
        refine fun id v suspect => suspect.after h.isolated.told (running_after_op ..) fun u => ?_
        simp [change]
      | some page =>
        obtain ⟨id, bytes⟩ := page
        rw [changed] at applied applied' change
        obtain ⟨running, alone⟩ := alone_of_change h.isolated told change
        -- a page that is written through now, or was before, may differ on disk
        have suspect : Event.abort tx ∉ .op tx o :: es →
            Suspect (past ++ [.op tx o]) es (S.after (.op tx o) (.ok out.answer) s) id tx := by
          intro kept
          refine ⟨fun later => kept (List.mem_cons_of_mem _ later), ?_, ?_⟩
          · exact (running_after_op ..).trans running
          · simp [zip_after h.isolated.told, lastChange_append, change]
        refine h.together told told' applied.coherent applied'.coherent
          (twins.rewritten applied applied' (fun v before => suspect ?_) (fun other v ne before => ?_) ?_)
        · exact alone v before.2.1 before.2.2 ▸ before.1
        · refine before.after h.isolated.told (running_after_op ..) fun u => ?_
          simp [change, Ne.symm ne]
        · rintro (full | full)
          · exact suspect (smooth.kept_first told change (upkeep.through full))
          · exact suspect (smooth'.kept_first told' change (upkeep'.through full))

theorem together_of_step (h : Alike past (e :: es) S U) (acts : e.transacts = true)
    (smooth : Smooth S (e :: es)) (smooth' : Smooth U (e :: es)) : Together past es e S U := by
  cases e with
  | begin => exact together_begin h
  | op tx o => exact together_op h smooth smooth'
  | commit tx => exact together_commit h
  | abort tx => exact together_abort h
  | drop _ | flushPage _ | flushAll | discard _ | addTable _ => cases acts

/-- Sessions that are alike stay so, as long as both go smoothly. -/
theorem together_of_run {first : List Event} (h : Alike past (first ++ es) S U)
    (acts : ∀ e ∈ first, e.transacts = true) (smooth : Smooth S (first ++ es))
    (smooth' : Smooth U (first ++ es)) : S.run first = none ∧ U.run first = none ∨
      ∃ S' U', S.run first = some S' ∧ U.run first = some U' ∧ Alike (past ++ first) es S' U' := by
  induction first generalizing past S U with
  | nil => exact Or.inr ⟨S, U, rfl, rfl, by simpa using h⟩
  | cons e first ih =>
    rw [List.cons_append] at h smooth smooth'
    rcases together_of_step h (acts e (List.mem_cons_self ..)) smooth smooth' with
      ⟨crashed, crashed'⟩ | ⟨reply, s, u, told, told', alike⟩
    · exact Or.inl (by simp [run_cons, step_eq_map, crashed, crashed'])
    · simp only [run_cons, step_of_outcome? told, step_of_outcome? told', Option.bind_some]
      have later := ih alike (fun e listed => acts e (List.mem_cons_of_mem _ listed))
        (smooth.after told) (smooth'.after told')
      simpa using later

/-- The same session with an empty pool of another size. -/
def withPool (n : Nat) (S : Session) : Session := { S with store := S.store.withPool n }

theorem step_withPool (n : Nat) (S : Session) (t : NewTable) :
    (S.withPool n).step (.addTable t) = (S.step (.addTable t)).map (withPool n) := by
  have same := ignoresPool_newTable (n := n) t S.store
  simp only [step_eq_map, outcome?, action?, Option.bind_some, settle]
  rw [show (S.withPool n).store = S.store.withPool n from rfl, same]
  cases t.perform S.store with
  | ok a s => rfl
  | error e s => cases e <;> rfl

theorem run_withPool (n : Nat) (S : Session) (opening : List NewTable) :
    (S.withPool n).run (opening.map .addTable) = (S.run (opening.map .addTable)).map (withPool n) := by
  induction opening generalizing S with
  | nil => rfl
  | cons t opening ih =>
    simp only [List.map_cons, run_cons, step_withPool]
    cases S.step (.addTable t) with
    | none => rfl
    | some S' => exact ih S'

theorem smooth_of_writers {writers : List TxId} (all : ∀ step ∈ S.trace es,
    step.2.2.exhausted = false ∧ ∀ tx ∈ through? step, tx ∈ writers)
    (kept : ∀ tx ∈ writers, Event.abort tx ∉ es) : Smooth S es where
  room step listed := (all step listed).1
  kept step listed tx through := kept tx ((all step listed).2 tx through)

/-- The cache is transparent. Two sessions that differ only in how many pages fit into the pool answer
every step alike and have the same locks after every step, or both crash at the same one. Whenever no
transaction is under way their files are the same, byte by byte. No two tables may share a file, no
step may find the pool exhausted, and no transaction may be aborted that has written a page through. -/
theorem cache_transparent {settings : Settings} {n : Nat} {disk : Disk} {opening : List NewTable}
    {S U : Session} (opened : (start (Store.new settings disk)).run (opening.map .addTable) = some S)
    (opened' : (start (Store.new { settings with poolPages := n } disk)).run
      (opening.map .addTable) = some U)
    (apart : S.store.catalog.Apart) (acts : ∀ e ∈ es, e.transacts = true) (smooth : S.Smooth es)
    (smooth' : U.Smooth es) {first : List Event} (prior : first <+: es) :
    S.run first = none ∧ U.run first = none ∨
      ∃ S' U', S.run first = some S' ∧ U.run first = some U' ∧ U'.replies = S'.replies ∧
        U'.store.locks = S'.store.locks ∧ ((∀ tx, S'.running tx = false) → ∀ name,
          (U'.store.disk.get? name).map File.toBytes = (S'.store.disk.get? name).map File.toBytes) := by
  obtain ⟨later, rfl⟩ := prior
  obtain ⟨-, -, fresh⟩ := opened_run opened
  obtain ⟨-, -, fresh'⟩ := opened_run opened'
  -- the second session is the first one with another pool
  have same : U = S.withPool n := by
    have both := run_withPool n (start (Store.new settings disk)) opening
    rw [opened] at both
    exact Option.some.inj (opened'.symm.trans both)
  subst same
  have content : (S.withPool n).store.content = S.store.content := by
    funext id
    simp only [content, fresh.pool, fresh'.pool, Pool.image?_new]
    rfl
  have alike : Alike (opening.map .addTable) (first ++ later) S (S.withPool n) := by
    refine ⟨⟨?_, fun id => Or.inl ⟨?_, rfl⟩, fun _ _ => rfl⟩, fresh.coherent apart,
      fresh'.coherent apart, isolated_run opened, rfl, rfl⟩
    · unfold Store.view
      rw [content]
      rfl
    · simp [owner, fresh.pool, fresh'.pool]
  rcases together_of_run alike (fun e listed => acts e (List.mem_append_left _ listed)) smooth smooth'
    with crashed | ⟨S', U', ran, ran', alike⟩
  · exact Or.inl crashed
  · refine Or.inr ⟨S', U', ran, ran', alike.replies, congrArg Plain.locks alike.twins.view, ?_⟩
    intro settled
    refine alike.twins.toBytes_eq alike.coherent alike.coherent' fun id => ?_
    rcases alike.twins.pages id with ⟨-, same⟩ | ⟨tx, ⟨-, running, -⟩, -⟩
    · exact same
    · rw [settled] at running
      cases running

/-- One transaction changes a page of each of two tables and is committed, another one is aborted. With
one frame the second of these pages is written through. -/
def throughCommitted : List Event :=
  let schema : Schema := ⟨[⟨.integer, some "n"⟩]⟩
  [.begin, .op 1 (.insert 1 ⟨schema, [.integer 7], none⟩),
    .op 1 (.insert 2 ⟨schema, [.integer 8], none⟩), .commit 1,
    .begin, .op 2 (.insert 2 ⟨schema, [.integer 9], none⟩), .abort 2]

theorem cache_transparent_through :
    let schema : Schema := ⟨[⟨.integer, some "n"⟩]⟩
    let opening : List NewTable := [.create "odd" "odd" schema "n", .create "even" "even" schema "n"]
    ∃ S U S' U', (start (Store.new { pageSize := 16, poolPages := 2 })).run
        (opening.map .addTable) = some S ∧
      (start (Store.new { pageSize := 16, poolPages := 1 })).run (opening.map .addTable) = some U ∧
      S.run throughCommitted = some S' ∧ U.run throughCommitted = some U' ∧
      (U.trace throughCommitted).any (fun step => through? step = some 1) = true ∧
      U'.replies = S'.replies ∧ (U'.store.disk.get? "even").map File.toBytes =
        (S'.store.disk.get? "even").map File.toBytes := by
  intro schema opening
  have facts : ((start (Store.new { pageSize := 16, poolPages := 2 })).run
      (opening.map .addTable)).any (fun S => S.store.catalog.Distinct ∧
        (∀ step ∈ S.trace throughCommitted,
          step.2.2.exhausted = false ∧ ∀ tx ∈ through? step, tx ∈ [1]) ∧
        (S.run throughCommitted).any (fun S' =>
          S'.store.nextTx = 3 ∧ ∀ tx < 3, S'.running tx = false) = true) = true := by
    decide +kernel
  have facts' : ((start (Store.new { pageSize := 16, poolPages := 1 })).run
      (opening.map .addTable)).any (fun U =>
        (∀ step ∈ U.trace throughCommitted,
          step.2.2.exhausted = false ∧ ∀ tx ∈ through? step, tx ∈ [1]) ∧
        (U.trace throughCommitted).any (fun step => through? step = some 1) = true) = true := by
    decide +kernel
  obtain ⟨S, opened, facts⟩ := (Option.any_eq_true _ _).mp facts
  obtain ⟨distinct, all, ended⟩ := of_decide_eq_true facts
  obtain ⟨T, ran, ended⟩ := (Option.any_eq_true _ _).mp ended
  obtain ⟨next, ended⟩ := of_decide_eq_true ended
  obtain ⟨U, opened', facts'⟩ := (Option.any_eq_true _ _).mp facts'
  obtain ⟨all', through⟩ := of_decide_eq_true facts'
  have kept : ∀ tx ∈ [1], Event.abort tx ∉ throughCommitted := by simp [throughCommitted]
  obtain ⟨crashed, -⟩ | ⟨S', U', ran', ran'', replies, -, files⟩ := cache_transparent opened opened'
    (distinct.apart (isolated_run opened).guarded.keyed) (by decide) (smooth_of_writers all kept)
    (smooth_of_writers all' kept) (List.prefix_refl _)
  · simp [crashed] at ran
  · cases ran.symm.trans ran'
    refine ⟨S, U, T, U', opened, opened', ran, ran'', through, replies, files (fun tx => ?_) "even"⟩
    have whole := isolated_run ((run_append _ _ _).trans (by rw [opened]; exact ran))
    cases running : T.running tx with
    | false => rfl
    | true => exact running.symm.trans (ended tx (next ▸ whole.started tx running))

/-- Two tables read and write the same file. One of the transactions adds a row to the first table
while a page of the second one may still be cached. -/
def sharedFile : List Event :=
  [.begin, .op 1 (.scan 2), .op 1 (.iterate 0 .start), .commit 1,
    .begin, .op 2 (.insert 1 ⟨⟨[⟨.integer, some "n"⟩]⟩, [.integer 7], none⟩), .commit 2,
    .begin, .op 3 (.scan 2), .op 3 (.iterate 0 .start), .op 3 (.iterate 0 .hasNext)]

/-- In a file that two tables share the cache shows. -/
theorem cache_shows_in_shared_file :
    let disk : Disk := ⟨[("shared", .ofBytes (.zeros 16))]⟩
    let schema : Schema := ⟨[⟨.integer, some "n"⟩]⟩
    let opening : List NewTable :=
      [.load "shared" "first" schema "n", .load "shared" "second" schema "n"]
    ∃ S U S' U', (start (Store.new { pageSize := 16, poolPages := 2 } disk)).run
        (opening.map .addTable) = some S ∧
      (start (Store.new { pageSize := 16, poolPages := 1 } disk)).run
        (opening.map .addTable) = some U ∧
      (∀ e ∈ sharedFile, e.transacts = true) ∧ S.Smooth sharedFile ∧ U.Smooth sharedFile ∧
      S.run sharedFile = some S' ∧ U.run sharedFile = some U' ∧ U'.replies ≠ S'.replies := by
  intro disk schema opening
  have facts : ((start (Store.new { pageSize := 16, poolPages := 2 } disk)).run
      (opening.map .addTable)).any (fun S => (∀ step ∈ S.trace sharedFile,
        step.2.2.exhausted = false ∧ ∀ tx ∈ through? step, tx ∈ []) ∧ (S.run sharedFile).any
          (fun S' => decide (S'.replies.getLast?.map Except.toOption = some (some (.more false)))) =
            true) = true := by
    decide +kernel
  have facts' : ((start (Store.new { pageSize := 16, poolPages := 1 } disk)).run
      (opening.map .addTable)).any (fun U => (∀ step ∈ U.trace sharedFile,
        step.2.2.exhausted = false ∧ ∀ tx ∈ through? step, tx ∈ []) ∧ (U.run sharedFile).any
          (fun U' => decide (U'.replies.getLast?.map Except.toOption = some (some (.more true)))) =
            true) = true := by
    decide +kernel
  obtain ⟨S, opened, facts⟩ := (Option.any_eq_true _ _).mp facts
  obtain ⟨all, ended⟩ := of_decide_eq_true facts
  obtain ⟨S', ran, last⟩ := (Option.any_eq_true _ _).mp ended
  obtain ⟨U, opened', facts'⟩ := (Option.any_eq_true _ _).mp facts'
  obtain ⟨all', ended'⟩ := of_decide_eq_true facts'
  obtain ⟨U', ran', last'⟩ := (Option.any_eq_true _ _).mp ended'
  refine ⟨S, U, S', U', opened, opened', by decide, smooth_of_writers all (by simp),
    smooth_of_writers all' (by simp), ran, ran', fun same => ?_⟩
  have last := of_decide_eq_true last
  rw [← same, of_decide_eq_true last'] at last
  cases last

end Session
end HeapStore
