import HeapStore.Proofs.Closing
import HeapStore.Proofs.Running

/-! No dirty reads. Whoever was the last to change a page and has not ended holds it exclusively,
whether the change is cached or on disk, so nobody else gets at the page before. -/
namespace HeapStore

namespace Store

variable {s s' : Store} {id : PageId} {tx u : TxId}

theorem looking_perform (r : ScanRef) (step : ScanStep) : Looking (step.perform r) := by
  cases step with
  | start => exact looking_bind (looking_openScan r) fun _ => looking_pure _
  | hasNext => exact looking_bind (looking_hasNext r) fun _ => looking_pure _
  | next => exact looking_bind (looking_nextRow r) fun _ => looking_pure _
  | close => exact looking_bind (looking_closeScan r) fun _ => looking_pure _
  | restart => exact looking_bind (looking_rewind r) fun _ => looking_pure _

theorem quiet_ofFile {α : Type} (r : Except FileError α) : Quiet (Action.ofFile r) := by
  cases r with
  | ok a => exact quiet_pure a
  | error e => exact Action.respects_stop Calm.refl _

theorem quiet_allocateId : Quiet allocateId := fun _ =>
  Or.inr fun h => ⟨⟨h.pool, h.locks, h.keyed, h.owned, h.known⟩, fun _ _ _ held => held,
    fun _ _ owner => owner, rfl, ⟨Nat.le_refl _, fun _ _ => rfl⟩⟩

theorem quiet_register (t : Table) (name primaryKey : String) :
    Quiet (register t name primaryKey) := by
  refine Action.respects_modify fun s h => ⟨⟨h.pool, h.locks, h.keyed.add t name primaryKey,
    h.owned, ?_⟩, fun _ _ _ held => held, fun _ _ owner => owner, rfl,
    Catalog.extends_add _ _ _ _⟩
  intro id page cached
  rw [Catalog.ref_add]
  split
  · exact ⟨_, rfl⟩
  · exact h.known id page cached

theorem quiet_createWithId (id : TableId) (path name : String) (schema : Schema)
    (primaryKey : String) (pageSize : Nat) :
    Quiet (createWithId id path name schema primaryKey pageSize) :=
  quiet_bind (Action.respects_within _ (quiet_bind quiet_get fun _ => quiet_ofFile _)) fun _ =>
    quiet_bind (Action.respects_modify fun _ h => ⟨⟨h.pool, h.locks, h.keyed, h.owned, h.known⟩,
      fun _ _ _ held => held, fun _ _ owner => owner, rfl, .refl _⟩) fun _ => quiet_register _ _ _

theorem quiet_openWithId (id : TableId) (path name : String) (schema : Schema)
    (primaryKey : String) (pageSize : Nat) :
    Quiet (openWithId id path name schema primaryKey pageSize) :=
  quiet_bind (Action.respects_within _ (quiet_bind quiet_get fun _ => quiet_ofFile _)) fun _ =>
    quiet_register _ _ _

theorem quiet_newTable (t : NewTable) : Quiet t.perform := by
  cases t with
  | create path name schema key =>
    exact quiet_bind (quiet_bind quiet_allocateId fun _ => quiet_bind quiet_get fun _ =>
      quiet_bind (quiet_createWithId _ _ _ _ _ _) fun _ => quiet_pure _) fun _ => quiet_pure _
  | load path name schema key =>
    exact quiet_bind (quiet_bind quiet_allocateId fun _ => quiet_bind quiet_get fun _ =>
      quiet_bind (quiet_openWithId _ _ _ _ _ _) fun _ => quiet_pure _) fun _ => quiet_pure _
  | createWithId id path name schema key pageSize =>
    exact quiet_bind (quiet_createWithId _ _ _ _ _ _) fun _ => quiet_pure _
  | loadWithId id path name schema key pageSize =>
    exact quiet_bind (quiet_openWithId _ _ _ _ _ _) fun _ => quiet_pure _

/-! What an exclusive lock keeps others from -/

theorem acquire?_of_exclusive (h : s.Guarded) (held : s.locks.Held tx id .exclusive) (other : u ≠ tx)
    (mode : LockMode) : s.locks.acquire? id u mode = none :=
  h.locks.denied_of_clash (Ne.symm other) held (Locks.clash_comm.mp (Locks.clash_exclusive mode))

theorem getPage_of_exclusive (guarded : s.Guarded) (held : s.locks.Held tx id .exclusive) (other : u ≠ tx)
    (mode : LockMode) (h : Handle) : getPage u id mode s ≠ .ok h s' := by
  intro got
  have ends : (getPage u id mode).Ends s fun answer _ => ∀ h, answer ≠ .ok h := by
    unfold getPage
    rw [Action.ends_bind, ends_lock, acquire?_of_exclusive guarded held other]
    split
    · exact fun _ never => by cases never
    · exact fun _ never => by cases never
  exact ends.of_ok got h rfl

theorem fetchRows_of_exclusive (guarded : s.Guarded) (held : s.locks.Held tx id .exclusive)
    {sc : Scan} {number : Nat} (other : sc.tx ≠ tx)
    (page : ⟨(s.catalog.table sc.table).id, number⟩ = id) (rows : List Row) :
    fetchRows sc number s ≠ .ok rows s' := by
  intro got
  have ends : (fetchRows sc number).Ends s fun answer _ => ∀ rows, answer ≠ .ok rows := by
    unfold fetchRows getPage
    rw [Action.ends_bind, Action.ends_get, Action.andThen]
    dsimp only
    rw [page, Action.ends_bind, Action.ends_bind, ends_lock, acquire?_of_exclusive guarded held other]
    split
    · exact fun _ never => by cases never
    · exact fun _ never => by cases never
  exact ends.of_ok got rows rfl

/-- Two transactions do not both come to hold a page exclusively. -/
theorem Alters.page_ne (alters : s.Alters u id s') {p : PageId}
    (held : s.locks.Held tx p .exclusive) (other : u ≠ tx) : id ≠ p := by
  rintro rfl
  exact other (alters.guarded.locks tx u id .exclusive (alters.locks tx id _ held) alters.held)

theorem insertRow_of_exclusive (h : s.Guarded) (held : s.locks.Held tx id .exclusive)
    (other : u ≠ tx) {table : TableId} {row : Row} {record : RecordId}
    (stored : insertRow u table row s = .ok record s') : record.page ≠ id :=
  ((insertRow_ends h u table row).of_ok stored).1.page_ne held other

theorem deleteRow_of_exclusive (h : s.Guarded) (held : s.locks.Held tx id .exclusive)
    (other : u ≠ tx) {record : RecordId}
    (removed : deleteRow u (some record) s = .ok () s') : record.page ≠ id := by
  obtain ⟨_, same, alters, -⟩ := (deleteRow_ends h u (some record)).of_ok removed
  cases same
  exact alters.page_ne held other

end Store

/-- The page that a step has changed and the transaction whose step it was. -/
def changeOf : Event × Reply → Option (TxId × PageId)
  | (.op tx (.insert _ _), .ok (.stored record)) => some (tx, record.page)
  | (.op tx (.delete (some record)), .ok _) => some (tx, record.page)
  | _ => none

theorem changeOf_error (e : Event) (f : Failure) : changeOf (e, .error f) = none := by
  unfold changeOf
  split
  · rename_i same
    cases same
  · rename_i same
    cases same
  · rfl

/-- The transaction that made the last of the successful changes of a page. -/
def lastChange (steps : List (Event × Reply)) (id : PageId) : Option TxId :=
  steps.foldl (fun last step => match changeOf step with
    | some (tx, page) => if page = id then some tx else last
    | none => last) none

theorem lastChange_append (steps : List (Event × Reply)) (step : Event × Reply) (id : PageId) :
    lastChange (steps ++ [step]) id = match changeOf step with
      | some (tx, page) => if page = id then some tx else lastChange steps id
      | none => lastChange steps id := by
  rw [lastChange, List.foldl_append]
  rfl

namespace Session

variable {S S' : Session} {es : List Event} {e : Event}

/-- Changes and locks go together. -/
structure Isolated (es : List Event) (S : Session) : Prop where
  guarded : S.store.Guarded
  told : S.replies.length = es.length
  started : ∀ tx, S.running tx = true → tx < S.store.nextTx
  past : ∀ id tx, lastChange (es.zip S.replies) id = some tx → tx < S.store.nextTx
  held : ∀ id tx, lastChange (es.zip S.replies) id = some tx → S.running tx = true →
    S.store.locks.Held tx id .exclusive
  owned : ∀ id tx, S.store.owner id = some tx →
    S.running tx = true ∧ lastChange (es.zip S.replies) id = some tx

theorem isolated_start (settings : Settings) (disk : Disk) :
    Isolated [] (start (Store.new settings disk)) where
  guarded := Store.guarded_new settings disk
  told := rfl
  started tx running := by cases running
  past id tx last := by cases last
  held id tx last := by cases last
  owned id tx owner := by simp [start, Store.owner, Store.new] at owner

theorem zip_after (told : S.replies.length = es.length) (e : Event) (reply : Reply) (s : Store) :
    (es ++ [e]).zip (S.after e reply s).replies = es.zip S.replies ++ [(e, reply)] := by
  rw [after, List.zip_append told.symm]
  rfl

theorem told_after (told : S.replies.length = es.length) (e : Event) (reply : Reply) (s : Store) :
    (S.after e reply s).replies.length = (es ++ [e]).length := by
  simp [after, told]

/-- A step that changes no page and ends no transaction. -/
theorem Isolated.keeps (h : Isolated es S) {reply : Reply} {s : Store} (keeps : S.store.Keeps s)
    (same : ∀ tx, (S.after e reply s).running tx = S.running tx)
    (idle : changeOf (e, reply) = none) : Isolated (es ++ [e]) (S.after e reply s) := by
  have last : ∀ id, lastChange ((es ++ [e]).zip (S.after e reply s).replies) id =
      lastChange (es.zip S.replies) id := by
    intro id
    rw [zip_after h.told, lastChange_append, idle]
  have store : (S.after e reply s).store = s := rfl
  refine ⟨keeps.guarded, told_after h.told e reply s, ?_, ?_, ?_, ?_⟩
  · intro tx running
    rw [store, keeps.nextTx]
    exact h.started tx (same tx ▸ running)
  · intro id tx changed
    rw [store, keeps.nextTx]
    exact h.past id tx (last id ▸ changed)
  · intro id tx changed running
    exact keeps.locks _ _ _ (h.held id tx (last id ▸ changed) (same tx ▸ running))
  · intro id tx owner
    rw [same, last]
    exact h.owned id tx (keeps.owner id tx owner)

/-- A step that changes a page. -/
theorem Isolated.alters (h : Isolated es S) {reply : Reply} {s : Store} {tx : TxId} {id : PageId}
    (alters : S.store.Alters tx id s) (running : S.running tx = true)
    (same : ∀ u, (S.after e reply s).running u = S.running u)
    (change : changeOf (e, reply) = some (tx, id)) :
    Isolated (es ++ [e]) (S.after e reply s) := by
  have last : ∀ other, lastChange ((es ++ [e]).zip (S.after e reply s).replies) other =
      if id = other then some tx else lastChange (es.zip S.replies) other := by
    intro other
    rw [zip_after h.told, lastChange_append, change]
  have store : (S.after e reply s).store = s := rfl
  refine ⟨alters.guarded, told_after h.told e reply s, ?_, ?_, ?_, ?_⟩
  · intro u started
    rw [store, alters.nextTx]
    exact h.started u (same u ▸ started)
  · intro other u changed
    rw [store, alters.nextTx]
    rw [last] at changed
    split at changed
    · cases changed
      exact h.started tx running
    · exact h.past other u changed
  · intro other u changed started
    rw [last] at changed
    split at changed
    · rename_i here
      cases changed
      exact here ▸ alters.held
    · exact alters.locks _ _ _ (h.held other u changed (same u ▸ started))
  · intro other u owner
    rw [same, last]
    rcases alters.owner other u owner with before | ⟨rfl, rfl⟩
    · obtain ⟨started, changed⟩ := h.owned other u before
      refine ⟨started, ?_⟩
      split
      · rename_i here
        -- both hold the page exclusively by now
        have locked := alters.locks _ _ _ (h.guarded.owned other u before)
        rw [alters.guarded.locks tx u other .exclusive (here ▸ alters.held) locked]
      · exact changed
    · exact ⟨running, if_pos rfl⟩

/-- A step that ends a transaction. -/
theorem Isolated.ended (h : Isolated es S) {reply : Reply} {s : Store} {tx : TxId}
    (ended : S.store.Ended tx s)
    (rest : ∀ u, (S.after e reply s).running u = (u ≠ tx && S.running u))
    (idle : changeOf (e, reply) = none) : Isolated (es ++ [e]) (S.after e reply s) := by
  have last : ∀ id, lastChange ((es ++ [e]).zip (S.after e reply s).replies) id =
      lastChange (es.zip S.replies) id := by
    intro id
    rw [zip_after h.told, lastChange_append, idle]
  have store : (S.after e reply s).store = s := rfl
  refine ⟨ended.guarded, told_after h.told e reply s, ?_, ?_, ?_, ?_⟩
  · intro u running
    rw [rest, Bool.and_eq_true] at running
    rw [store, ended.nextTx]
    exact h.started u running.2
  · intro id u changed
    rw [store, ended.nextTx]
    exact h.past id u (last id ▸ changed)
  · intro id u changed running
    rw [rest, Bool.and_eq_true, decide_eq_true_eq] at running
    exact ended.locks u id _ running.1 (h.held id u (last id ▸ changed) running.2)
  · intro id u owner
    obtain ⟨other, before⟩ := ended.owner id u owner
    obtain ⟨running, changed⟩ := h.owned id u before
    rw [rest, last, Bool.and_eq_true, decide_eq_true_eq]
    exact ⟨⟨other, running⟩, changed⟩

/-- A transaction begins. It has taken no steps. -/
theorem Isolated.begin (h : Isolated es S) : Isolated (es ++ [.begin])
    (S.after .begin (.ok (.began S.store.nextTx)) { S.store with nextTx := S.store.nextTx + 1 }) := by
  have last : ∀ id, lastChange ((es ++ [Event.begin]).zip
      (S.after .begin (.ok (.began S.store.nextTx)) S.store).replies) id =
      lastChange (es.zip S.replies) id := by
    intro id
    rw [zip_after h.told, lastChange_append]
    rfl
  refine ⟨⟨h.guarded.pool, h.guarded.locks, h.guarded.keyed, h.guarded.owned, h.guarded.known⟩,
    told_after h.told .begin _ _, ?_, ?_, ?_, ?_⟩
  · intro tx running
    rw [running_after_begin, Bool.or_eq_true, decide_eq_true_eq] at running
    rcases running with rfl | running
    · exact Nat.lt_succ_self _
    · exact Nat.lt_succ_of_lt (h.started tx running)
  · intro id tx changed
    exact Nat.lt_succ_of_lt (h.past id tx ((last id).symm.trans changed))
  · intro id tx changed running
    have changed := (last id).symm.trans changed
    rw [running_after_begin, Bool.or_eq_true, decide_eq_true_eq] at running
    rcases running with rfl | running
    · exact absurd (h.past id _ changed) (Nat.lt_irrefl _)
    · exact h.held id tx changed running
  · intro id tx owner
    obtain ⟨running, changed⟩ := h.owned id tx owner
    rw [running_after_begin, running, Bool.or_true]
    exact ⟨rfl, (last id).trans changed⟩

/-- What a step comes to, as far as changes and locks go. -/
inductive Effect (S : Session) (e : Event) (reply : Reply) (s : Store) : Prop where
  | begun (first : e = .begin) (told : reply = .ok (.began S.store.nextTx))
      (store : s = { S.store with nextTx := S.store.nextTx + 1 })
  | kept (keeps : S.store.Keeps s) (same : ∀ tx, (S.after e reply s).running tx = S.running tx)
      (idle : changeOf (e, reply) = none)
  | altered (tx : TxId) (id : PageId) (alters : S.store.Alters tx id s)
      (running : S.running tx = true)
      (same : ∀ u, (S.after e reply s).running u = S.running u)
      (change : changeOf (e, reply) = some (tx, id))
  | ended (tx : TxId) (ended : S.store.Ended tx s) (running : S.running tx = true)
      (rest : ∀ u, (S.after e reply s).running u = (u ≠ tx && S.running u))
      (idle : changeOf (e, reply) = none)

/-- The steps that only read, and those that manage pages, change nothing. -/
theorem effect_of_quiet (h : S.store.Guarded) {x : Action Answer} {reply : Reply} {s : Store}
    (quiet : Store.Quiet x) (settled : settle x S.store = some (reply, s))
    (same : ∀ tx, (S.after e reply s).running tx = S.running tx)
    (idle : changeOf (e, reply) = none) : Effect S e reply s :=
  .kept ((settle_eq_some (quiet S.store) settled).resolve_left (mapError_ne_crashed reply) h) same
    idle

theorem effect_of_op (h : S.store.Guarded) {tx : TxId} {o : Op} {x : Action Answer} {reply : Reply}
    {s : Store} (found : S.action? (.op tx o) = some x)
    (settled : settle x S.store = some (reply, s)) : Effect S (.op tx o) reply s := by
  obtain ⟨c, client, allowed, found⟩ := action?_op_eq_some_iff.mp found
  have same := fun u => running_after_op S tx u o reply s
  cases o with
  | insert table row =>
    have running : S.running tx = true := running_iff.mpr ⟨c, client, by simpa [Op.iterates] using allowed⟩
    cases found
    have ends : Action.Ends (do return Answer.stored (← Store.insertRow tx table row)) S.store
        fun
          | .ok answer => fun s => ∃ record, answer = .stored record ∧
              S.store.Alters tx record.page s
          | .error e => fun s => e = .crashed ∨ S.store.Keeps s := by
      rw [Action.ends_bind]
      refine (Store.insertRow_ends h tx table row).mono ?_
      rintro (e | record) s altered
      · exact altered
      · exact ⟨record, rfl, altered.1⟩
    have ended := settle_eq_some ends settled
    cases reply with
    | ok answer =>
      obtain ⟨record, rfl, alters⟩ := ended
      exact .altered tx record.page alters running same rfl
    | error f => exact .kept (ended.resolve_left (by simp)) same rfl
  | delete record? =>
    have running : S.running tx = true := running_iff.mpr ⟨c, client, by simpa [Op.iterates] using allowed⟩
    cases found
    obtain ⟨answer, rfl, ended⟩ := settle_done (Store.deleteRow_ends h tx record?) settled
    cases answer with
    | ok _ =>
      obtain ⟨record, rfl, alters, -⟩ := ended
      exact .altered tx record.page alters running same rfl
    | error f => exact .kept (ended.resolve_left (by simp)) same (by cases record? <;> rfl)
  | scan table =>
    cases found
    exact effect_of_quiet h (Store.looking_bind (Store.looking_newScan tx table) fun _ =>
      Store.looking_pure _).quiet settled same rfl
  | iterate k step =>
    obtain ⟨r, -, rfl⟩ := Option.map_eq_some_iff.mp found
    exact effect_of_quiet h (Store.looking_perform r step).quiet settled same rfl

theorem effect_of_outcome (h : S.store.Guarded) {reply : Reply} {s : Store}
    (told : S.outcome? e = some (reply, s)) : Effect S e reply s := by
  obtain ⟨x, found, settled⟩ := Option.bind_eq_some_iff.mp told
  cases e with
  | begin =>
    cases found
    cases settled
    exact .begun rfl rfl rfl
  | op tx o => exact effect_of_op h found settled
  | commit tx =>
    obtain ⟨running, rfl⟩ := action?_commit_eq_some_iff.mp found
    obtain ⟨answer, rfl, -, ended⟩ := settle_done (Store.commit_ends h tx) settled
    exact .ended tx ended running (running_finish S tx) rfl
  | abort tx =>
    obtain ⟨running, rfl⟩ := action?_abort_eq_some_iff.mp found
    obtain ⟨answer, rfl, ended⟩ := settle_done (Store.abort_ends h tx) settled
    exact .ended tx (ended.resolve_left (mapError_ne_crashed answer)) running (running_finish S tx) rfl
  | drop tx =>
    obtain ⟨running, rfl⟩ := action?_drop_eq_some_iff.mp found
    obtain ⟨answer, rfl, ended⟩ := settle_done (Store.drop_ends h tx) settled
    exact .ended tx (ended.resolve_left (mapError_ne_crashed answer)) running (running_finish S tx) rfl
  | flushPage id =>
    cases found
    exact effect_of_quiet h (Store.quiet_bind (Store.quiet_flushPage id) fun _ =>
      Store.quiet_pure _) settled (fun _ => rfl) rfl
  | flushAll =>
    cases found
    exact effect_of_quiet h (Store.quiet_bind Store.quiet_flushAll fun _ => Store.quiet_pure _)
      settled (fun _ => rfl) rfl
  | discard id =>
    cases found
    exact effect_of_quiet h (Store.quiet_bind (Store.quiet_discard id) fun _ => Store.quiet_pure _)
      settled (fun _ => rfl) rfl
  | addTable t =>
    cases found
    exact effect_of_quiet h (Store.quiet_newTable t) settled (fun _ => rfl) rfl

theorem effect_of_step (h : S.store.Guarded) (stepped : S.step e = some S') :
    ∃ reply s, S' = S.after e reply s ∧ Effect S e reply s := by
  obtain ⟨reply, s, told, rfl⟩ := outcome?_of_step stepped
  exact ⟨reply, s, rfl, effect_of_outcome h told⟩

/-- Only a transaction that has not ended changes a page, and it holds the page by then. -/
theorem alters_of_change (h : S.store.Guarded) {reply : Reply} {s : Store} {tx : TxId} {id : PageId}
    (told : S.outcome? e = some (reply, s)) (change : changeOf (e, reply) = some (tx, id)) :
    S.running tx = true ∧ S.store.Alters tx id s := by
  rcases effect_of_outcome h told with
    ⟨rfl, -, -⟩ | ⟨-, -, idle⟩ | ⟨u, page, alters, running, -, same⟩ | ⟨-, -, -, -, idle⟩
  · cases change
  · simp [idle] at change
  · cases same.symm.trans change
    exact ⟨running, alters⟩
  · simp [idle] at change

/-- As a session takes a step, changes and locks stay together. -/
theorem Isolated.step (h : Isolated es S) (stepped : S.step e = some S') :
    Isolated (es ++ [e]) S' := by
  obtain ⟨reply, s, rfl, effect⟩ := effect_of_step h.guarded stepped
  cases effect with
  | begun first told store =>
    subst first told store
    exact h.begin
  | kept keeps same idle => exact h.keeps keeps same idle
  | altered tx id alters running same change => exact h.alters alters running same change
  | ended tx ended _ rest idle => exact h.ended ended rest idle

/-- No step takes a table away. -/
theorem Isolated.extends (h : Isolated es S) (stepped : S.step e = some S') :
    S.store.catalog.Extends S'.store.catalog := by
  obtain ⟨reply, s, rfl, effect⟩ := effect_of_step h.guarded stepped
  cases effect with
  | begun first told store =>
    subst store
    exact .refl _
  | kept keeps same idle => exact keeps.catalog
  | altered tx id alters running same change => exact alters.catalog
  | ended tx ended rest idle => exact ended.catalog

theorem isolated_run {settings : Settings} {disk : Disk}
    (ran : (start (Store.new settings disk)).run es = some S) : Isolated es S :=
  run_invariant (I := Isolated) (fun h stepped => h.step stepped) (isolated_start settings disk) ran

/-- No dirty reads, at any time, whatever is done to the pages and whatever tables there are: the
change of a page by a transaction that has not ended is under an exclusive lock of that transaction,
no other one has a lock there or gets to the page, and each dirty page is one of these. -/
theorem no_dirty_reads (settings : Settings) (disk : Disk) (es : List Event) (S : Session)
    (ran : (start (Store.new settings disk)).run es = some S) (tx : TxId) :
    (∀ id, lastChange (es.zip S.replies) id = some tx → S.running tx = true →
      S.store.locks.mode? tx id = some .exclusive ∧
      ∀ u ≠ tx, S.store.locks.mode? u id = none ∧
        (∀ mode h s, Store.getPage u id mode S.store ≠ .ok h s) ∧
        (∀ table row record s,
          Store.insertRow u table row S.store = .ok record s → record.page ≠ id) ∧
        (∀ record s, Store.deleteRow u (some record) S.store = .ok () s → record.page ≠ id) ∧
        ∀ sc number rows s, sc.tx = u → ⟨(S.store.catalog.table sc.table).id, number⟩ = id →
          Store.fetchRows sc number S.store ≠ .ok rows s) ∧
    ∀ r ∈ S.store.pool.residents, (S.store.pool.page r).dirtiedBy = some tx →
      S.running tx = true ∧ lastChange (es.zip S.replies) (S.store.pool.page r).id = some tx := by
  have h := isolated_run ran
  constructor
  · intro id changed running
    have held := h.held id tx changed running
    refine ⟨Locks.mode?_eq_exclusive_iff.mpr held, fun u other => ⟨?_, ?_, ?_, ?_, ?_⟩⟩
    · rw [Locks.mode?_eq_none_iff]
      intro mode held'
      exact other (h.guarded.locks tx u id mode held held')
    · intro mode handle s
      exact Store.getPage_of_exclusive h.guarded held other mode handle
    · intro table row record s stored
      exact Store.insertRow_of_exclusive h.guarded held other stored
    · intro record s removed
      exact Store.deleteRow_of_exclusive h.guarded held other removed
    · rintro sc number rows s rfl page
      exact Store.fetchRows_of_exclusive h.guarded held other page rows
  · intro r resident dirty
    obtain ⟨f, here⟩ := Store.mem_residents_iff.mp resident
    refine h.owned _ tx ?_
    rw [Store.owner, Pool.image?, h.guarded.pool.resident?_of_inFrame? here]
    exact dirty

/-- A transaction that has changed a page of a store without frames, and goes on. -/
def uncachedChange : List Event :=
  let schema : Schema := ⟨[⟨.integer, some "n"⟩]⟩
  [.addTable (.create "numbers" "numbers" schema "n"), .begin,
    .op 1 (.insert 1 ⟨schema, [.integer 7], none⟩)]

theorem no_dirty_reads_uncached :
    ∃ S, (start (Store.new { pageSize := 16, poolPages := 0 })).run uncachedChange = some S ∧
      S.store.pool.residents = [] ∧ S.store.locks.mode? 1 ⟨1, 0⟩ = some .exclusive := by
  have facts : ((start (Store.new { pageSize := 16, poolPages := 0 })).run uncachedChange).any
      (fun S => lastChange (uncachedChange.zip S.replies) ⟨1, 0⟩ = some 1 ∧ S.running 1 = true ∧
        S.store.pool.residents = []) = true := by
    decide +kernel
  rw [Option.any_eq_true] at facts
  obtain ⟨S, ran, facts⟩ := facts
  obtain ⟨changed, running, uncached⟩ := of_decide_eq_true facts
  exact ⟨S, ran, uncached, ((no_dirty_reads _ _ _ S ran 1).1 ⟨1, 0⟩ changed running).1⟩

end Session
end HeapStore
