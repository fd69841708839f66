import HeapStore.Proofs.Contents
import HeapStore.Proofs.Plain

/-! The pool does not show. Every step answers as it does on a store without a pool and leaves the
same contents, locks and scans behind, unless it finds the pool exhausted. -/
namespace HeapStore

/-- What there is to see of a store. -/
def Store.view (s : Store) : Plain where
  patient := s.settings.hasDeadline
  catalog := s.catalog
  locks := s.locks
  scans := s.scans
  nextTx := s.nextTx
  bytes := s.content

namespace Store

variable {α β γ δ : Type} {s s' t u : Store} {id : PageId} {tx : TxId} {may : Prop}

/-- What happens to owners and files while a transaction looks for a page and nobody changes one.
Tables may get empty pages. -/
structure Upkeep (tx : TxId) (s s' : Store) : Prop where
  coherent : s'.Coherent
  settings : s'.settings = s.settings
  catalog : s.catalog.Grown s'.catalog
  owner : ∀ id, s'.owner id = s.owner id
  saved : ∀ id, s.catalog.Has id ∨ ¬s'.catalog.Has id → s'.saved id = s.saved id
  fresh : ∀ id, ¬s.catalog.Has id → s'.catalog.Has id → s'.saved id = s.catalog.blank id
  content : ∀ id, s.catalog.Has id → s'.content id = s.content id
  padded : ∀ id ref, s.catalog.ref id = .ok ref → (s.catalog.table ref).Padded s.disk s'.disk
  files : ∀ name, (∀ id ref, s.catalog.ref id = .ok ref → (s.catalog.table ref).pageSize ≠ 0 →
    (s.catalog.table ref).file ≠ name) → s'.disk.get? name = s.disk.get? name
  full : s'.pool.AllDirty → s.pool.AllDirty ∧ ∀ id, s'.pool.image? id = s.pool.image? id
  exclusive : ∀ u id, s'.locks.Held u id .exclusive → s.locks.Held u id .exclusive ∨ u = tx

theorem Upkeep.refl (h : s.Coherent) : s.Upkeep tx s where
  coherent := h
  settings := rfl
  catalog := .refl _
  owner _ := rfl
  saved _ _ := rfl
  fresh _ lacks has := absurd has lacks
  content _ _ := rfl
  padded id ref known := (h.backed id ref known).padded rfl
  files _ _ := rfl
  full all := ⟨all, fun _ => rfl⟩
  exclusive _ _ held := Or.inl held

theorem Upkeep.trans (first : s.Upkeep tx t) (second : t.Upkeep tx u) : s.Upkeep tx u where
  coherent := second.coherent
  settings := second.settings.trans first.settings
  catalog := first.catalog.trans second.catalog
  owner id := (second.owner id).trans (first.owner id)
  saved id old := by
    have middle : t.catalog.Has id ∨ ¬u.catalog.Has id := old.imp_left first.catalog.has
    have start : s.catalog.Has id ∨ ¬t.catalog.Has id :=
      old.imp_right fun lacks has => lacks (second.catalog.has has)
    rw [second.saved id middle, first.saved id start]
  fresh id lacks has := by
    by_cases middle : t.catalog.Has id
    · rw [second.saved id (Or.inl middle), first.fresh id lacks middle]
    · rw [second.fresh id middle has, first.catalog.blank]
  content id has := (second.content id (first.catalog.has has)).trans (first.content id has)
  padded id ref known := by
    have later := second.padded id ref ((first.catalog.ref id).trans known)
    rw [first.catalog.table ref] at later
    exact (first.padded id ref known).trans later
  files name others := by
    rw [second.files name, first.files name others]
    intro id ref known some
    rw [first.catalog.ref] at known
    rw [first.catalog.table] at some ⊢
    exact others id ref known some
  full all := by
    obtain ⟨all, images⟩ := second.full all
    obtain ⟨all', images'⟩ := first.full all
    exact ⟨all', fun id => (images id).trans (images' id)⟩
  exclusive u id held := (second.exclusive u id held).elim (first.exclusive u id) Or.inr

/-- Every frame holds a dirty page, and none of them is the page of a table that was asked for. -/
def Exhausted (s : Store) (e : Stop) : Prop :=
  (∃ n, e = .ofCause (.poolExhausted n)) ∧ s.pool.AllDirty ∧
    ∃ id, s.catalog.Lists id ∧ s.pool.image? id = none

/-- The outcome of an action is that of `y` on what there is to see of the store, unless it may find
the pool exhausted. Where `y` returns, the values of both are related, and so are the store that `y`
sees then and the one there is. -/
def Follows (may : Prop) (tx : TxId) (s : Store) (y : Plain.Act β) (rel : α → β → Store → Store → Prop)
    (answer : Except Stop α) (s' : Store) : Prop :=
  (may ∧ ∃ e, answer = .error e ∧ s'.Exhausted e ∧ s.Upkeep tx s') ∨
    match y s.view with
    | .ok b v => ∃ a t, answer = .ok a ∧ s.Upkeep tx t ∧ t.view = v ∧ rel a b t s'
    | .error e v => answer = .error e ∧ (e = .crashed ∨ s.Upkeep tx s' ∧ s'.view = v)

variable {rel : α → β → Store → Store → Prop} {y : Plain.Act β} {v : Plain} {a : α} {b : β} {e : Stop}

theorem Follows.returns (ended : y s.view = .ok b v) (upkeep : s.Upkeep tx t) (view : t.view = v)
    (related : rel a b t s') : Follows may tx s y rel (.ok a) s' := by
  unfold Follows
  rw [ended]
  exact Or.inr ⟨a, t, rfl, upkeep, view, related⟩

theorem Follows.fails (ended : y s.view = .error e v) (upkeep : s.Upkeep tx s') (view : s'.view = v) :
    Follows may tx s y rel (.error e) s' := by
  unfold Follows
  rw [ended]
  exact Or.inr ⟨rfl, Or.inr ⟨upkeep, view⟩⟩

theorem Follows.crashes (ended : y s.view = .error .crashed v) :
    Follows may tx s y rel (.error .crashed) s' := by
  unfold Follows
  rw [ended]
  exact Or.inr ⟨rfl, Or.inl rfl⟩

/-- The values are the same, and so are the stores. -/
def Same (a b : α) (t s' : Store) : Prop := a = b ∧ s' = t

variable {x : Action α} {f : α → Action γ} {g : β → Plain.Act δ}
  {rel' : γ → δ → Store → Store → Prop}

theorem follows_bind (first : x.Ends s' (Follows may tx s y rel))
    (later : ∀ a b t u, y s.view = .ok b t.view → s.Upkeep tx t → rel a b t u →
      (f a).Ends u (Follows may tx t (g b) rel')) :
    (x >>= f).Ends s' (Follows may tx s (y >>= g) rel') := by
  rw [Action.ends_bind]
  refine first.mono ?_
  rintro answer u (⟨allowed, e, rfl, exhausted, upkeep⟩ | follows)
  · exact Or.inl ⟨allowed, e, rfl, exhausted, upkeep⟩
  · cases ended : y s.view with
    | error e v =>
      rw [ended] at follows
      obtain ⟨rfl, rest⟩ := follows
      refine Or.inr ?_
      rw [Plain.bind_eq, ended]
      exact ⟨rfl, rest⟩
    | ok b v =>
      rw [ended] at follows
      obtain ⟨a, t, rfl, upkeep, rfl, related⟩ := follows
      refine (later a b t u ended upkeep related).mono ?_
      rintro answer w (⟨allowed, e, rfl, exhausted, upkeep'⟩ | follows)
      · exact Or.inl ⟨allowed, e, rfl, exhausted, upkeep.trans upkeep'⟩
      · refine Or.inr ?_
        rw [Plain.bind_eq, ended]
        dsimp only
        cases ended' : g b t.view with
        | ok d v =>
          rw [ended'] at follows
          obtain ⟨c, t', same, upkeep', rest⟩ := follows
          exact ⟨c, t', same, upkeep.trans upkeep', rest⟩
        | error e v =>
          rw [ended'] at follows
          obtain ⟨same, rest⟩ := follows
          exact ⟨same, rest.imp_right fun done => ⟨upkeep.trans done.1, done.2⟩⟩

/-- Where the pool can not be exhausted, an action returns if `y` does. -/
theorem answers_of_follows (follows : x.Ends s' (Follows may tx s y rel)) (ended : y s.view = .ok b v)
    (spared : may → ∀ t e, s.Upkeep tx t → ¬t.Exhausted e) :
    x.Ends s' fun answer u => ∃ a t, answer = .ok a ∧ s.Upkeep tx t ∧ t.view = v ∧ rel a b t u := by
  refine follows.mono ?_
  rintro answer u (⟨allowed, e, -, exhausted, upkeep⟩ | follows)
  · exact absurd exhausted (spared allowed u e upkeep)
  · rwa [ended] at follows

theorem crashes_of_follows (follows : x.Ends s' (Follows may tx s y rel))
    (ended : y s.view = .error .crashed v) (spared : may → ∀ t e, s.Upkeep tx t → ¬t.Exhausted e) :
    x.Ends s' fun answer _ => answer = .error .crashed := by
  refine follows.mono ?_
  rintro answer u (⟨allowed, e, -, exhausted, upkeep⟩ | follows)
  · exact absurd exhausted (spared allowed u e upkeep)
  · rw [ended] at follows
    exact follows.1

theorem Follows.weaken {rel rel' : α → β → Store → Store → Prop} {answer : Except Stop α}
    (follows : Follows may tx s y rel answer s') (weaker : ∀ a b t u, rel a b t u → rel' a b t u) :
    Follows may tx s y rel' answer s' := by
  refine follows.imp_right fun follows => ?_
  cases ended : y s.view with
  | error e v =>
    rw [ended] at follows
    exact follows
  | ok b v =>
    rw [ended] at follows
    obtain ⟨a, t, same, upkeep, view, related⟩ := follows
    exact ⟨a, t, same, upkeep, view, weaker a b t s' related⟩

theorem follows_weaken {rel rel' : α → β → Store → Store → Prop}
    (follows : x.Ends s' (Follows may tx s y rel)) (weaker : ∀ a b t u, rel a b t u → rel' a b t u) :
    x.Ends s' (Follows may tx s y rel') :=
  follows.mono fun _ _ follows => follows.weaken weaker

/-- The value of an action is changed into one that is related to the same value of `y`. -/
theorem follows_map {rel' : γ → β → Store → Store → Prop} {k : α → γ}
    (first : x.Ends s' (Follows may tx s y rel)) (related : ∀ a b t u, rel a b t u → rel' (k a) b t u) :
    (do return k (← x)).Ends s' (Follows may tx s y rel') := by
  rw [Action.ends_bind]
  refine first.mono ?_
  rintro answer u (⟨allowed, e, rfl, exhausted, upkeep⟩ | follows)
  · exact Or.inl ⟨allowed, e, rfl, exhausted, upkeep⟩
  · cases ended : y s.view with
    | error e v =>
      rw [ended] at follows
      obtain ⟨rfl, rest⟩ := follows
      refine Or.inr ?_
      rw [ended]
      exact ⟨rfl, rest⟩
    | ok b v =>
      rw [ended] at follows
      obtain ⟨a, t, rfl, upkeep, view, holds⟩ := follows
      exact .returns ended upkeep view (related a b t u holds)

theorem follows_get {g : Plain → Plain.Act δ} {x : Action γ}
    (h : x.Ends s' (Follows may tx s (g s.view) rel')) : x.Ends s' (Follows may tx s (get >>= g) rel') := h

theorem Follows.pure {a : α} {b : β} (h : s.Coherent) (related : rel a b s s') :
    Follows may tx s (pure b) rel (.ok a) s' :=
  .returns (y := Pure.pure b) rfl (.refl h) rfl related

theorem follows_pure {a : α} {b : β} (h : s.Coherent) (related : rel a b s s') :
    (pure a : Action α).Ends s' (Follows may tx s (pure b) rel) :=
  Follows.pure h related

theorem follows_fail (h : s.Coherent) (c : Cause) :
    (Action.fail c : Action α).Ends s (Follows may tx s (throw (.ofCause c)) rel) := by
  rw [Action.ends_fail]
  exact .fails rfl (.refl h) rfl

theorem follows_crash : (Action.crash : Action α).Ends s' (Follows may tx s (throw .crashed) rel) := by
  rw [Action.ends_crash]
  exact .crashes rfl

theorem follows_ofOption (h : s.Coherent) (r : Option α) :
    (Action.ofOption r).Ends s (Follows may tx s (Plain.ofOption r) fun a b t s' =>
      (t = s ∧ s' = s) ∧ a = b ∧ r = some a) := by
  cases r with
  | none => exact follows_crash
  | some a => exact follows_pure h ⟨⟨rfl, rfl⟩, rfl, rfl⟩

theorem follows_ofCause (h : s.Coherent) (r : Except Cause α) :
    (Action.ofCause r).Ends s (Follows may tx s (Plain.ofCause r) fun a b t s' =>
      (t = s ∧ s' = s) ∧ a = b ∧ r = .ok a) := by
  cases r with
  | error c => exact follows_fail h c
  | ok a => exact follows_pure h ⟨⟨rfl, rfl⟩, rfl, rfl⟩

/-! Locks and pages -/

theorem Coherent.withLocks (h : s.Coherent) {locks : Locks}
    (guarded : Guarded { s with locks }) : Coherent { s with locks } :=
  ⟨guarded, h.capacity, h.apart, h.backed, h.named, h.has, h.whole, h.clean⟩

theorem upkeep_of_lock (h : s.Coherent) {mode : LockMode} {locks : Locks} {u : TxId}
    (granted : s.locks.acquire? id u mode = some locks) (mine : mode = .exclusive → u = tx) :
    s.Upkeep tx { s with locks } := by
  have grows := Locks.grows_of_acquire? granted
  have guarded : Guarded { s with locks } := ⟨h.guarded.pool, h.guarded.locks.acquire? granted,
    h.guarded.keyed, fun id tx owner => grows.kept _ _ _ (h.guarded.owned id tx owner),
    h.guarded.known⟩
  refine ⟨h.withLocks guarded, rfl, .refl _, fun _ => rfl, fun _ _ => rfl,
    fun _ lacks has => absurd has lacks, fun _ _ => rfl,
    fun id ref known => (h.backed id ref known).padded rfl, fun _ _ => rfl,
    fun all => ⟨all, fun _ => rfl⟩, ?_⟩
  intro v other held
  rcases (Locks.held_of_acquire? granted).mp held with before | ⟨rfl, -, same⟩
  · exact Or.inl before
  · exact Or.inr (mine same.symm)

theorem lock_follows (h : s.Coherent) (u : TxId) (id : PageId) (mode : LockMode)
    (mine : mode = .exclusive → u = tx) :
    (lock u id mode).Ends s (Follows may tx s (Plain.lock u id mode) fun _ _ t s' =>
      s' = t ∧ t.locks.Held u id mode) := by
  rw [ends_lock]
  split
  · rename_i patient
    split
    · rename_i locks granted
      refine .returns (Plain.lock_of_granted patient granted) (upkeep_of_lock h granted mine) rfl
        ⟨rfl, ?_⟩
      exact (Locks.held_of_acquire? granted).mpr (Or.inr ⟨rfl, rfl, rfl⟩)
    · rename_i denied
      exact .fails (Plain.lock_of_denied patient denied) (.refl h) rfl
  · rename_i impatient
    exact .crashes (Plain.lock_of_impatient impatient)

theorem Recached.upkeep (h : s.Coherent) (recached : Recached s s') : s.Upkeep tx s' := by
  have locks : s'.locks = s.locks := by rw [recached.rest]
  have settings : s'.settings = s.settings := by rw [recached.rest]
  have disk : s'.disk = s.disk := by rw [recached.rest]
  have catalog : s'.catalog = s.catalog := by rw [recached.rest]
  exact ⟨recached.coherent h, settings, catalog ▸ .refl _, recached.owner, fun id _ => recached.saved id,
    fun id lacks has => absurd (catalog ▸ has) lacks, fun id _ => recached.content h id,
    fun id ref known => (h.backed id ref known).padded (by rw [disk]), fun _ _ => by rw [disk],
    recached.full,
    fun _ _ held => Or.inl (locks ▸ held)⟩

theorem Recached.view (h : s.Coherent) (recached : Recached s s') : s'.view = s.view := by
  have contents : s'.content = s.content := funext (recached.content h)
  unfold Store.view
  rw [contents, recached.rest]

/-- An image that stands for the page was found. -/
def Got (id : PageId) (r : PageRef) (bytes : Bytes) (t s' : Store) : Prop :=
  s' = t ∧ t.Stands id r ∧ bytes = t.content id

theorem fetch_follows (h : s.Coherent) (id : PageId) (must : Bool)
    (listed : must = true → may ∧ s.catalog.Lists id) :
    (fetch id must).Ends s (Follows may tx s (Plain.read id) fun r bytes t s' =>
      Got id r bytes t s' ∧ t.locks = s.locks) := by
  refine (fetch_ends h.guarded.pool id must).mono fun answer t fetched => ?_
  have recached := fetched.recached h.guarded.pool
  have upkeep : s.Upkeep tx t := recached.upkeep h
  have view := recached.view h
  have locks : t.locks = s.locks := by rw [recached.rest]
  have catalog : t.catalog = s.catalog := by rw [recached.rest]
  cases answer with
  | ok r =>
    have stands := fetched.stands h.guarded.pool
    have has := stands.has upkeep.coherent
    rw [catalog] at has
    exact .returns (Plain.read_of_has has) upkeep view
      ⟨⟨rfl, stands, (recached.content h id).symm⟩, locks⟩
  | error e =>
    cases fetched with
    | exhausted uncached needed full sheds sound =>
      refine Or.inl ⟨(listed needed).1, _, rfl, ⟨⟨_, rfl⟩, full, id, (listed needed).2, ?_⟩, upkeep⟩
      exact (sheds.image?_of_full full id).trans (Pool.image?_eq_none_iff.mpr uncached)
    | missing uncached sheds sound unreadable =>
      rw [h.loadable_eq] at unreadable
      split at unreadable
      · rename_i missing
        cases unreadable
        exact .fails (Plain.read_of_missing missing) upkeep view
      · cases unreadable

theorem getPageForUpdate_follows (h : s.Coherent) (tx : TxId) (id : PageId) :
    (getPageForUpdate tx id).Ends s (Follows may tx s (Plain.getPage tx id .exclusive) fun r bytes t s' =>
      Got id r bytes t s' ∧ t.locks.Held tx id .exclusive) := by
  refine follows_bind (lock_follows h tx id .exclusive fun _ => rfl) ?_
  rintro _ _ t u - upkeep ⟨rfl, held⟩
  exact follows_weaken (fetch_follows upkeep.coherent id false fun never => by cases never)
    fun r bytes v s' got => ⟨got.1, got.2 ▸ held⟩

theorem getPageShared_follows (h : s.Coherent) (allowed : may) (u : TxId) (id : PageId)
    (listed : s.catalog.Lists id) : (getPage u id .shared).Ends s
      (Follows may tx s (Plain.getPage u id .shared) fun handle bytes t s' =>
        Got id handle.ref bytes t s') := by
  refine follows_bind (lock_follows h u id .shared fun never => by cases never) ?_
  rintro _ _ _ t ended upkeep ⟨rfl, held⟩
  obtain ⟨-, locks, -, same⟩ := Plain.lock_eq_ok_iff.mp ended
  have catalog : t.catalog = s.catalog := congrArg Plain.catalog same
  exact follows_map (fetch_follows upkeep.coherent id true fun _ =>
    ⟨allowed, catalog ▸ listed⟩)
    fun _ _ _ _ got => got.1

end Store
end HeapStore
