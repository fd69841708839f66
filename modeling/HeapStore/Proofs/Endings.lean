import HeapStore.Store.Rows

/-! How an action ends. `Ends x s Q` says that `Q` holds of the answer of `x` from `s` and of the
store that it leaves behind, whether it returns, fails or crashes. -/
namespace HeapStore

theorem exists_of_any {α : Type} {o : Option α} {P : α → Prop} [DecidablePred P]
    (found : o.any (fun a => P a) = true) : ∃ a, o = some a ∧ P a := by
  obtain ⟨a, here, held⟩ := (Option.any_eq_true _ _).mp found
  exact ⟨a, here, of_decide_eq_true held⟩

theorem of_toOption {ε α : Type} {x : Except ε α} {a : α} (found : x.toOption = some a) : x = .ok a := by
  cases x with
  | error e => cases found
  | ok b =>
    cases found
    rfl

namespace Action

variable {α β : Type} {s : Store}

theorem get_eq (s : Store) : (get : Action Store) s = .ok s s := rfl

theorem mapError_ok {ε ε' : Type} (f : ε → ε') (a : α) : (Except.ok a).mapError f = .ok a := rfl

theorem mapError_error {ε ε' : Type} (f : ε → ε') (e : ε) :
    (Except.error e : Except ε α).mapError f = .error (f e) := rfl

def Ends (x : Action α) (s : Store) (Q : Except Stop α → Store → Prop) : Prop :=
  match x s with
  | .ok a s => Q (.ok a) s
  | .error e s => Q (.error e) s

/-- What the answer of an action has to be like if `f` goes on from it. -/
def andThen (f : α → Action β) (Q : Except Stop β → Store → Prop) :
    Except Stop α → Store → Prop
  | .ok a, s => (f a).Ends s Q
  | .error e, s => Q (.error e) s

theorem ends_bind (x : Action α) (f : α → Action β) (Q : Except Stop β → Store → Prop) :
    (x >>= f).Ends s Q ↔ x.Ends s (andThen f Q) := by
  unfold Ends
  simp only [bind, EStateM.bind]
  cases x s <;> rfl

theorem bind_eq_ok_iff {x : Action α} {f : α → Action β} {b : β} {u : Store} :
    (x >>= f) s = .ok b u ↔ ∃ a t, x s = .ok a t ∧ f a t = .ok b u := by
  simp only [bind, EStateM.bind]
  cases x s with
  | ok a t =>
    constructor
    · exact fun next => ⟨a, t, rfl, next⟩
    · rintro ⟨_, _, same, next⟩
      cases same
      exact next
  | error e t =>
    constructor
    · intro never
      cases never
    · rintro ⟨_, _, same, -⟩
      cases same

theorem bind_eq_error_iff {x : Action α} {f : α → Action β} {e : Stop} {u : Store} :
    (x >>= f) s = .error e u ↔ x s = .error e u ∨ ∃ a t, x s = .ok a t ∧ f a t = .error e u := by
  simp only [bind, EStateM.bind]
  cases x s with
  | ok a t =>
    constructor
    · exact fun next => Or.inr ⟨a, t, rfl, next⟩
    · rintro (never | ⟨_, _, same, next⟩)
      · cases never
      · cases same
        exact next
  | error e t =>
    constructor
    · intro same
      cases same
      exact Or.inl rfl
    · rintro (same | ⟨_, _, never, -⟩)
      · cases same
        rfl
      · cases never

theorem attempt_of_ok {x : Action α} {a : α} {t : Store} (ended : x s = .ok a t) :
    attempt x s = .ok (.ok a) t := by
  rw [attempt, ended]

/-- An action that only has this answer returns. -/
theorem Ends.exists_ok {x : Action α} {a : α} {P : Store → Prop}
    (h : x.Ends s fun answer t => answer = .ok a ∧ P t) : ∃ t, x s = .ok a t ∧ P t := by
  unfold Ends at h
  cases ended : x s with
  | ok b t =>
    rw [ended] at h
    obtain ⟨same, held⟩ := h
    cases same
    exact ⟨t, rfl, held⟩
  | error e t =>
    rw [ended] at h
    cases h.1

theorem Ends.mono {x : Action α} {Q R : Except Stop α → Store → Prop} (h : x.Ends s Q)
    (weaker : ∀ r s', Q r s' → R r s') : x.Ends s R := by
  unfold Ends at h ⊢
  cases ended : x s with
  | ok a s' =>
    rw [ended] at h
    exact weaker _ _ h
  | error e s' =>
    rw [ended] at h
    exact weaker _ _ h

theorem Ends.and {x : Action α} {Q R : Except Stop α → Store → Prop} (h : x.Ends s Q)
    (h' : x.Ends s R) : x.Ends s fun r s' => Q r s' ∧ R r s' := by
  unfold Ends at *
  cases ended : x s with
  | ok a s' =>
    rw [ended] at h h'
    exact ⟨h, h'⟩
  | error e s' =>
    rw [ended] at h h'
    exact ⟨h, h'⟩

theorem ends_of_forall {x : Action α} {Q : Except Stop α → Store → Prop} (h : ∀ r t, Q r t) :
    x.Ends s Q := by
  unfold Ends
  cases x s with
  | ok a t => exact h _ _
  | error e t => exact h _ _

/-- What holds of an end only under an assumption. -/
theorem Ends.assuming {x : Action α} {p : Prop} {P : Store → Prop}
    (h : p → x.Ends s fun r t => r = .error .crashed ∨ P t) :
    x.Ends s fun r t => r = .error .crashed ∨ (p → P t) := by
  by_cases assumed : p
  · exact (h assumed).mono fun _ _ => Or.imp_right fun held _ => held
  · exact ends_of_forall fun _ _ => Or.inr fun assumed' => absurd assumed' assumed

/-- The one answer there is satisfies whatever the action ends in. -/
theorem Ends.of_ok {x : Action α} {Q : Except Stop α → Store → Prop} (h : x.Ends s Q)
    {a : α} {s' : Store} (ended : x s = .ok a s') : Q (.ok a) s' := by
  unfold Ends at h
  rwa [ended] at h

theorem Ends.of_error {x : Action α} {Q : Except Stop α → Store → Prop} (h : x.Ends s Q)
    {e : Stop} {s' : Store} (ended : x s = .error e s') : Q (.error e) s' := by
  unfold Ends at h
  rwa [ended] at h

/-- What an action tells that does not crash, and the store that it leaves behind. -/
def told? (x : Action α) (s : Store) : Option (Except Failure α × Store) :=
  match x s with
  | .ok a t => some (.ok a, t)
  | .error (.failed f) t => some (.error f, t)
  | .error .crashed _ => none

theorem told?_eq_ok_iff {x : Action α} {a : α} {t : Store} :
    x.told? s = some (.ok a, t) ↔ x s = .ok a t := by
  unfold told?
  split <;> simp_all

theorem told?_eq_error_iff {x : Action α} {f : Failure} {t : Store} :
    x.told? s = some (.error f, t) ↔ x s = .error (.failed f) t := by
  unfold told?
  split <;> simp_all

/-- An action that only has this answer tells it. -/
theorem Ends.exists_told {x : Action α} {answer : Except Failure α} {P : Store → Prop}
    (h : x.Ends s fun r t => r = answer.mapError .failed ∧ P t) : ∃ t, x.told? s = some (answer, t) ∧ P t := by
  unfold Ends at h
  unfold told?
  cases answer with
  | ok a =>
    cases ended : x s with
    | ok b t =>
      rw [ended] at h
      obtain ⟨same, held⟩ := h
      cases same
      exact ⟨t, rfl, held⟩
    | error e t =>
      rw [ended] at h
      cases h.1
  | error f =>
    cases ended : x s with
    | ok b t =>
      rw [ended] at h
      cases h.1
    | error e t =>
      rw [ended] at h
      obtain ⟨same, held⟩ := h
      cases same
      exact ⟨t, rfl, held⟩

@[simp] theorem ends_pure (a : α) (Q : Except Stop α → Store → Prop) :
    (pure a : Action α).Ends s Q ↔ Q (.ok a) s := Iff.rfl

@[simp] theorem ends_get (Q : Except Stop Store → Store → Prop) :
    (get : Action Store).Ends s Q ↔ Q (.ok s) s := Iff.rfl

@[simp] theorem ends_set (t : Store) (Q : Except Stop PUnit → Store → Prop) :
    (set t : Action PUnit).Ends s Q ↔ Q (.ok ⟨⟩) t := Iff.rfl

@[simp] theorem ends_modify (f : Store → Store) (Q : Except Stop PUnit → Store → Prop) :
    (modify f : Action PUnit).Ends s Q ↔ Q (.ok ⟨⟩) (f s) := Iff.rfl

@[simp] theorem ends_modifyGet (f : Store → α × Store) (Q : Except Stop α → Store → Prop) :
    (modifyGet f : Action α).Ends s Q ↔ Q (.ok (f s).1) (f s).2 := Iff.rfl

@[simp] theorem ends_stop (e : Stop) (Q : Except Stop α → Store → Prop) :
    (stop e : Action α).Ends s Q ↔ Q (.error e) s := Iff.rfl

@[simp] theorem ends_fail (c : Cause) (Q : Except Stop α → Store → Prop) :
    (fail c : Action α).Ends s Q ↔ Q (.error (.ofCause c)) s := Iff.rfl

@[simp] theorem ends_crash (Q : Except Stop α → Store → Prop) :
    (crash : Action α).Ends s Q ↔ Q (.error .crashed) s := Iff.rfl

@[simp] theorem ends_ofStop (r : Except Stop α) (Q : Except Stop α → Store → Prop) :
    (ofStop r).Ends s Q ↔ Q r s := by
  cases r <;> rfl

@[simp] theorem ends_ofCause (r : Except Cause α) (Q : Except Stop α → Store → Prop) :
    (ofCause r).Ends s Q ↔ Q (r.mapError .ofCause) s := by
  cases r <;> rfl

theorem orCrash_eq_ok_iff {o : Option α} {a : α} : orCrash o = .ok a ↔ o = some a := by
  cases o <;> simp [orCrash]

@[simp] theorem ends_ofOption (r : Option α) (Q : Except Stop α → Store → Prop) :
    (ofOption r).Ends s Q ↔ Q (orCrash r) s := by
  cases r <;> rfl

@[simp] theorem ends_ofAttempt (r : Except Failure α) (Q : Except Stop α → Store → Prop) :
    (ofAttempt r).Ends s Q ↔ Q (r.mapError .failed) s := by
  cases r <;> rfl

/-- The answer of an action with an activity named in its failure. -/
def inside (a : Activity) : Except Stop α → Except Stop α
  | .error (.failed f) => .error (.failed (f.within a))
  | r => r

theorem inside_eq_ok_iff {a : Activity} {r : Except Stop α} {x : α} : inside a r = .ok x ↔ r = .ok x := by
  unfold inside
  split <;> simp

theorem ends_within (a : Activity) (x : Action α) (Q : Except Stop α → Store → Prop) :
    (within a x).Ends s Q ↔ x.Ends s fun r => Q (inside a r) := by
  unfold Ends within
  cases x s with
  | ok => rfl
  | error e => cases e <;> rfl

/-- The answer of an action whose failure was made an answer. -/
def attempted : Except Stop α → Except Stop (Except Failure α)
  | .ok a => .ok (.ok a)
  | .error (.failed f) => .ok (.error f)
  | .error .crashed => .error .crashed

theorem ends_attempt (x : Action α) (Q : Except Stop (Except Failure α) → Store → Prop) :
    (attempt x).Ends s Q ↔ x.Ends s fun r => Q (attempted r) := by
  unfold Ends attempt
  cases x s with
  | ok => rfl
  | error e => cases e <;> rfl

theorem ends_bind_of_ok {x : Action α} {f : α → Action β} {a : α} {t : Store}
    {Q : Except Stop β → Store → Prop} (ended : x s = .ok a t) (later : (f a).Ends t Q) :
    (x >>= f).Ends s Q := by
  rw [ends_bind, Ends, ended]
  exact later

theorem crashes_bind {x : Action α} (crashes : x.Ends s fun answer _ => answer = .error .crashed)
    (f : α → Action β) : (x >>= f).Ends s fun answer _ => answer = .error .crashed := by
  rw [ends_bind]
  refine crashes.mono ?_
  rintro answer t rfl
  rfl

theorem crashes_attempt {x : Action α} (crashes : x.Ends s fun answer _ => answer = .error .crashed) :
    x.attempt.Ends s fun answer _ => answer = .error .crashed := by
  rw [ends_attempt]
  refine crashes.mono ?_
  rintro answer t rfl
  rfl

/-- However the action ends, other than by a crash, the store after it is related to the one before. -/
def Respects (R : Store → Store → Prop) (x : Action α) : Prop :=
  ∀ s, x.Ends s fun r s' => r = .error .crashed ∨ R s s'

section Respects

variable {R : Store → Store → Prop} (refl : ∀ s, R s s)
  (trans : ∀ {s t u}, R s t → R t u → R s u)

include trans in
theorem respects_bind {x : Action α} {f : α → Action β} (first : Respects R x)
    (later : ∀ a, Respects R (f a)) : Respects R (x >>= f) := by
  intro s
  rw [ends_bind]
  refine (first s).mono ?_
  rintro (e | a) s' moved
  · exact moved.imp (fun crashed => by cases crashed; rfl) id
  · have moved := moved.resolve_left (by simp)
    rw [andThen]
    refine (later a s').mono ?_
    intro r s'' further
    exact further.imp_right (trans moved)

include refl in
theorem respects_pure (a : α) : Respects R (pure a : Action α) := fun s => Or.inr (refl s)

include refl in
theorem respects_get : Respects R (get : Action Store) := fun s => Or.inr (refl s)

include refl in
theorem respects_stop (e : Stop) : Respects R (stop e : Action α) := fun s => Or.inr (refl s)

include refl in
theorem respects_ofCause (r : Except Cause α) : Respects R (ofCause r) := fun s => by
  rw [ends_ofCause]
  exact Or.inr (refl s)

include refl in
theorem respects_ofOption (r : Option α) : Respects R (ofOption r) := fun s => by
  rw [ends_ofOption]
  exact Or.inr (refl s)

theorem respects_modify {f : Store → Store} (moves : ∀ s, R s (f s)) :
    Respects R (modify f : Action PUnit) := fun s => Or.inr (moves s)

theorem respects_within {x : Action α} (a : Activity) (h : Respects R x) :
    Respects R (within a x) := by
  intro s
  rw [ends_within]
  refine (h s).mono fun r s' moved => ?_
  exact moved.imp_left fun crashed => by rw [crashed]; rfl

end Respects

end Action

namespace Store

variable {s : Store}

@[simp] theorem ends_updatePool (f : Pool → Pool) (Q : Except Stop Unit → Store → Prop) :
    (updatePool f).Ends s Q ↔ Q (.ok ()) { s with pool := f s.pool } := Iff.rfl

@[simp] theorem ends_page (r : PageRef) (Q : Except Stop Page → Store → Prop) :
    (page r).Ends s Q ↔ Q (.ok (s.pool.page r)) s := Iff.rfl

@[simp] theorem ends_mark (r : PageRef) (owner : Option TxId) (Q : Except Stop Unit → Store → Prop) :
    (mark r owner).Ends s Q ↔ Q (.ok ()) { s with pool := s.pool.update r (·.mark owner) } := Iff.rfl

@[simp] theorem ends_table (id : TableId) (Q : Except Stop Table → Store → Prop) :
    (table id).Ends s Q ↔ Q ((s.catalog.byId id).mapError .ofCause) s := by
  unfold table
  rw [Action.ends_bind, Action.ends_get]
  exact Action.ends_ofCause _ _

/-- What a lock request comes to. -/
theorem ends_lock (tx : TxId) (p : PageId) (mode : LockMode) (Q : Except Stop Unit → Store → Prop) :
    (lock tx p mode).Ends s Q ↔
      if s.settings.hasDeadline then
        match s.locks.acquire? p tx mode with
        | some locks => Q (.ok ()) { s with locks }
        | none => Q (.error (.ofCause (.aborted tx))) s
      else Q (.error .crashed) s := by
  unfold lock
  simp only [Action.ends_bind, Action.ends_get, Action.andThen]
  cases s.settings.hasDeadline with
  | false => rfl
  | true =>
    simp only [Bool.not_true, Bool.false_eq_true, if_false, if_true, Action.ends_bind,
      Action.ends_get, Action.andThen]
    cases s.locks.acquire? p tx mode <;> rfl

/-- The bytes that a page is loaded with, or why it can not be loaded. -/
def loadable (s : Store) (id : PageId) : Except Stop Bytes :=
  match s.catalog.byId id.table with
  | .ok t => Action.inside (.loading id) (t.read s.disk id)
  | .error c => .error (.ofCause c)

theorem ends_load (id : PageId) (Q : Except Stop PageRef → Store → Prop) :
    (load id).Ends s Q ↔
      match s.loadable id with
      | .ok bytes => Q (.ok s.pool.images.size) { s with pool := (s.pool.addImage ⟨id, bytes, none⟩).2 }
      | .error e => Q (.error e) s := by
  unfold load loadable
  rw [Action.ends_bind, ends_table]
  cases s.catalog.byId id.table with
  | error c => rfl
  | ok t =>
    simp only [Action.mapError_ok, Action.andThen, Action.ends_bind, Action.ends_within,
      Action.ends_get, Action.ends_ofStop]
    cases Action.inside (.loading id) (t.read s.disk id) <;> rfl

/-- The store once an empty page was added to a table. -/
def appended (s : Store) (ref : TableRef) : Store := { s with
  catalog := s.catalog.update ref ((s.catalog.table ref).appendEmpty s.disk).1
  disk := ((s.catalog.table ref).appendEmpty s.disk).2 }

theorem ends_appendPage (ref : TableRef) (Q : Except Stop Unit → Store → Prop) :
    (appendPage ref).Ends s Q ↔
      if (s.catalog.table ref).pageSize < Bytes.limit then Q (.ok ()) (s.appended ref)
      else Q (.error .crashed) s := by
  unfold appendPage Table.appendEmpty?
  rw [Action.ends_bind, Action.ends_get, Action.andThen, Action.ends_bind, Action.ends_ofOption]
  by_cases short : (s.catalog.table ref).pageSize < Bytes.limit
  · simp only [if_pos short]
    rfl
  · simp only [if_neg short]
    rfl

end Store
end HeapStore
