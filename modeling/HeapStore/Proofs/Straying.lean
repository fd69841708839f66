import HeapStore.Proofs.Failing
import HeapStore.Proofs.Storing

/-! Locks on pages that no table has. Who asks for such a page gets its lock before the page is found to be
missing, and keeps it. In the way of whoever adds that page later there is no other lock than that. -/
namespace HeapStore

namespace Store
open HeapStore.Action

variable {s t u : Store} {id : PageId} {tx v : TxId} {ref : TableRef} {i : TableId} {row : Row} {bytes : Bytes}
  {c : Call} {reply : Reply} {past : List (Call × Reply)} {settings : Settings} {disk : Disk}

/-- The transaction has asked for the page, did not get it for another reason than its lock, and has not
given the lock back since. -/
def Strayed (past : List (Call × Reply)) (v : TxId) (id : PageId) : Prop :=
  ∃ before c f later, past = before ++ (c, .error f) :: later ∧ c.asks? = some (v, id) ∧
    f.isAborted = false ∧ ∀ told ∈ later, ¬told.1.Frees v id

theorem Strayed.stays (h : Strayed past v id) (kept : ¬c.Frees v id) :
    Strayed (past ++ [(c, reply)]) v id := by
  obtain ⟨before, c', f, later, rfl, asked, lives, none⟩ := h
  refine ⟨before, c', f, later ++ [(c, reply)], by simp, asked, lives, fun told there => ?_⟩
  rcases List.mem_append.mp there with old | last
  · exact none told old
  · rw [List.mem_singleton.mp last]
    exact kept

/-- Every lock is on a page that some table has, or has strayed. -/
structure Traced (past : List (Call × Reply)) (s : Store) : Prop where
  pooled : s.Pooled
  sound : s.locks.Sound
  distinct : s.catalog.Distinct
  locks : ∀ v id mode, s.locks.Held v id mode → s.catalog.Lists id ∨ Strayed past v id

theorem traced_new (settings : Settings) (disk : Disk) : Traced [] (Store.new settings disk) where
  pooled := pooled_new settings disk
  sound := Locks.sound_empty _
  distinct i below := absurd below (Nat.not_lt_zero i)
  locks _ _ _ held := absurd held (Locks.not_held_empty _)

/-- A lock that is new is on a page that is there, or strays with the call that got it. -/
theorem Traced.step (h : Traced past s) (settled : Session.settle c.perform s = some (reply, t))
    (distinct : t.catalog.Distinct) : Traced (past ++ [(c, reply)]) t := by
  have moves := call_moves h.pooled settled distinct
  refine ⟨moves.pooled, moves.sound h.sound, distinct, fun v id mode held => ?_⟩
  obtain ⟨before, kept⟩ | there | ⟨asked, f, rfl, lives⟩ := moves.held v id mode held
  · exact (h.locks v id mode before).imp (moves.lists id) fun strayed => strayed.stays kept
  · exact Or.inl there
  · exact Or.inr ⟨past, c, f, [], rfl, asked, lives, fun told never => nomatch never⟩

theorem traced_of_follow (ran : (Store.new settings disk).follow past = some s) : Traced past s :=
  follow_induction (P := Traced) [] (fun _ _ _ _ _ traced => traced.step) (traced_new settings disk) ran

/-- No table, by whatever id, has the page behind the last one of a table. -/
theorem Traced.not_lists_next (h : Traced past s) (known : s.catalog.ref i = .ok ref) :
    ¬s.catalog.Lists (s.nextPage ref) := by
  rintro ⟨ref', mine, below⟩
  cases h.distinct ref (h.pooled.keyed i ref known).1 ref' (Catalog.lt_of_pages below) (Or.inl mine)
  exact Nat.lt_irrefl _ below

/-! Storing a row on a new page -/

theorem agrees_of_placeRow {place : PageRef × RecordId} (placed : placeRow ref tx row s = .ok place t) :
    row.schema.Agrees (s.catalog.table ref).schema := by
  unfold placeRow at placed
  obtain ⟨_, _, ⟨⟩, placed⟩ := bind_eq_ok_iff.mp placed
  obtain ⟨_, _, checked, -⟩ := bind_eq_ok_iff.mp placed
  cases fits : (s.catalog.table ref).checkSchema row with
  | ok _ => exact Table.agrees_of_checkSchema fits
  | error c =>
    rw [fits] at checked
    cases checked

/-- A row that was put on a new page is all that is stored there, and the other pages are as they were. -/
theorem Pooled.stored_beyond (h : s.Pooled) (known : s.catalog.ref i = .ok ref)
    (room : (s.catalog.table ref).Growable) (typed : row.Typed)
    (agrees : row.schema.Agrees (s.catalog.table ref).schema) {slot : Nat}
    (inserted : (s.catalog.table ref).layout.insert? (.zeros (s.catalog.table ref).pageSize) row.values =
      some (some slot, bytes))
    (catalog : t.catalog = s.catalog.extended ref)
    (content : ∀ id, t.content id = if id = s.nextPage ref then bytes else s.content id) :
    slot = 0 ∧ ∀ p, t.stored p = if p = ⟨s.nextPage ref, 0⟩ then some row.values else s.stored p := by
  obtain ⟨valid, rfl⟩ := h.keyed i ref known
  have grown := Catalog.grown_extended valid room
  rw [← catalog] at grown
  have has : ∀ id, t.catalog.Has id ↔ s.catalog.Has id ∨ id = s.nextPage ref := by
    intro id
    rw [catalog]
    exact Catalog.has_extended h.keyed known room
  obtain ⟨k, free, rfl, values⟩ := Table.valuesAt_insert? (typed.trans agrees) inserted
  cases Layout.eq_zero_of_firstFree?_zeros free
  refine ⟨rfl, fun p => ?_⟩
  obtain ⟨page, slot⟩ := p
  by_cases new : page = s.nextPage ref
  · subst new
    have empty : s.stored ⟨s.nextPage ref, slot⟩ = none := stored_of_lacks known (Nat.le_refl _)
    have total : t.total (s.nextPage ref) = bytes := by
      rw [total_of_has ((has _).mpr (Or.inr rfl)), content, if_pos rfl]
    have table : t.catalog.table ref = (s.catalog.table ref).extended := by
      rw [catalog, Catalog.table_extended valid, if_pos rfl]
    have told : t.stored ⟨s.nextPage ref, slot⟩ =
        (s.catalog.table ref).valuesAt (s.nextPage ref) bytes slot := by
      rw [stored_of_ref ((grown.ref _).trans known), total, table]
      rfl
    rw [told, values, empty, Table.valuesAt_zeros]
    by_cases first : slot = 0
    · rw [if_pos first, if_pos (by rw [first])]
    · rw [if_neg first, if_neg fun same => first (congrArg RecordId.slot same)]
  · rw [if_neg fun same => new (congrArg RecordId.page same)]
    refine stored_congr grown ?_
    by_cases there : s.catalog.Has page
    · rw [total_of_has there, total_of_has ((has page).mpr (Or.inl there)), content, if_neg new]
    · have lacks : ¬t.catalog.Has page := fun later => ((has page).mp later).elim there new
      rw [total_of_lacks there, total_of_lacks lacks, grown.blank]

/-- How a row is stored. -/
theorem insertRow_eq_ok (known : s.catalog.ref i = .ok ref) {record : RecordId}
    (stored : insertRow tx i row s = .ok record t) : ∃ r u,
    placeRow ref tx row s = .ok (r, record) u ∧ keepDirty tx r u = .ok () t := by
  unfold insertRow at stored
  obtain ⟨_, _, ⟨⟩, stored⟩ := bind_eq_ok_iff.mp stored
  rw [known] at stored
  obtain ⟨_, _, ⟨⟩, stored⟩ := bind_eq_ok_iff.mp stored
  obtain ⟨⟨r, record'⟩, u, placed, stored⟩ := bind_eq_ok_iff.mp stored
  obtain ⟨_, _, kept, ⟨⟩⟩ := bind_eq_ok_iff.mp stored
  exact ⟨r, u, placed, kept⟩

/-- Only another transaction that holds a lock on the new page keeps a row from it. -/
theorem Traced.kept_from_new_page (h : Traced past s) (known : s.catalog.ref i = .ok ref) {f : Failure}
    (failed : insertRow tx i row s = .error (.failed f) t)
    (grown : (t.catalog.table ref).pages ≠ (s.catalog.table ref).pages) :
    f = .ofCause (.aborted tx) ∧ s.Intact tx t ∧ s.Enlarged ref t ∧
      ∃ v mode, v ≠ tx ∧ s.locks.Held v (s.nextPage ref) mode := by
  obtain ⟨intact, -, -, ⟨same, -⟩ | ⟨ref', known', enlarged, rfl, denied⟩⟩ := insertRow_intact h.pooled failed
  · rw [same] at grown
    exact absurd rfl grown
  · cases Except.ok.inj (known.symm.trans known')
    obtain ⟨v, mode, other, held, -⟩ := Locks.clash_of_denied denied
    exact ⟨rfl, intact, enlarged, v, mode, other, (intact.locks.own v _ mode held).resolve_right other⟩

/-- A row for which a page was added is in its first slot, and nobody else holds a lock there. -/
theorem Traced.stored_on_new_page (h : Traced past s) (known : s.catalog.ref i = .ok ref) (typed : row.Typed)
    {record : RecordId} (stored : insertRow tx i row s = .ok record t)
    (grown : (t.catalog.table ref).pages ≠ (s.catalog.table ref).pages) :
    record = ⟨s.nextPage ref, 0⟩ ∧ (t.catalog.table ref).pages = (s.catalog.table ref).pages + 1 ∧
      (∀ p, t.stored p = if p = ⟨s.nextPage ref, 0⟩ then some row.values else s.stored p) ∧
      ∀ v mode, s.locks.Held v (s.nextPage ref) mode → v = tx := by
  obtain ⟨r, u, placed, kept⟩ := insertRow_eq_ok known stored
  have agrees := agrees_of_placeRow placed
  cases (placeRow_places h.pooled known tx row).of_ok placed with
  | found has seated =>
    obtain ⟨-, v, -, looked, adjusts, -⟩ := seated.keeps.of_ok kept
    rw [adjusts.catalog, looked.catalog] at grown
    exact absurd rfl grown
  | foundBeyond room crowded there seated =>
    obtain ⟨-, v, bytes, looked, adjusts, inserted, content⟩ := seated.keeps.of_ok kept
    have catalog : t.catalog = s.catalog.extended ref := by
      rw [adjusts.catalog, looked.catalog, catalog_appended]
    simp only [h.pooled.content_appended known, there, if_pos] at inserted content
    obtain ⟨first, stored⟩ := h.pooled.stored_beyond known room typed agrees inserted catalog fun id => by
      rw [content]
      by_cases new : id = s.nextPage ref
      · rw [if_pos new, if_pos new]
      · rw [if_neg new, if_neg new, if_neg new]
    obtain ⟨w, -, seen, -, held, -⟩ := seated
    refine ⟨?_, ?_, stored, fun v mode held' => ?_⟩
    · rw [← there, ← first]
    · rw [catalog, Catalog.table_extended (h.pooled.keyed i ref known).1, if_pos rfl,
        Table.pages_extended room]
    · rw [there] at held
      exact seen.locks.sound h.sound tx v _ mode held (seen.locks.kept v _ mode held')

/-- Storing a row crashes only if it has to wait for a lock without an end, or to count pages without one. -/
theorem Traced.insertRow_ends (h : Traced past s) (known : s.catalog.ref i = .ok ref)
    (takes : (s.catalog.table ref).Takes row) (room : (s.catalog.table ref).Growable)
    (deadline : s.settings.hasDeadline = true) : insertRow tx i row s ≠ .error .crashed t := by
  intro crashed
  obtain ⟨c, -, never, -⟩ | ⟨ref', known', crashed⟩ := insertRow_eq_error h.pooled crashed
  · cases never
  · cases Except.ok.inj (known.symm.trans known')
    have places := (placeRow_places h.pooled known tx row).of_error crashed
    generalize answer : Except.error Stop.crashed = a at places
    cases places with
    | crashed _ why =>
      rcases why with endless | full | ⟨page, whole, unfit⟩
      · rw [deadline] at endless
        cases endless
      · exact full room
      · exact takes.fits whole unfit
    | unfit => cases answer
    | denied => cases answer
    | found => cases answer
    | deniedBeyond => cases answer
    | foundBeyond => cases answer

/-- A lock on a page that is not there yet has strayed. If a row has a page added, it is stored there unless
another transaction holds such a lock. Then it is not, and the page stays empty. -/
theorem new_page_is_free_unless_asked_for (ran : (Store.new settings disk).follow past = some s)
    (known : s.catalog.ref i = .ok ref) :
    (∀ v mode, s.locks.Held v (s.nextPage ref) mode → Strayed past v (s.nextPage ref)) ∧
    ∀ tx row, row.Typed →
      (∀ answer t, (insertRow tx i row).told? s = some (answer, t) →
        (t.catalog.table ref).pages ≠ (s.catalog.table ref).pages →
        ((∀ v mode, s.locks.Held v (s.nextPage ref) mode → v = tx) →
          answer = .ok ⟨s.nextPage ref, 0⟩ ∧
          (t.catalog.table ref).pages = (s.catalog.table ref).pages + 1 ∧
          ∀ p, t.stored p = if p = ⟨s.nextPage ref, 0⟩ then some row.values else s.stored p) ∧
        ∀ v mode, v ≠ tx → s.locks.Held v (s.nextPage ref) mode →
          answer = .error (.ofCause (.aborted tx)) ∧ s.Intact tx t ∧ s.Enlarged ref t) ∧
      ∀ t, (s.catalog.table ref).Takes row → (s.catalog.table ref).Growable →
        settings.hasDeadline = true → insertRow tx i row s ≠ .error .crashed t := by
  have traced := traced_of_follow ran
  have settled : s.settings = settings := (follow_pooled (pooled_new settings disk) ran).2.1
  refine ⟨fun v mode held => ?_, fun tx row typed => ⟨fun answer t told grown => ?_, ?_⟩⟩
  · exact (traced.locks v _ mode held).resolve_left (traced.not_lists_next known)
  · cases answer with
    | error f =>
      obtain ⟨rfl, intact, enlarged, v, mode, other, held⟩ :=
        traced.kept_from_new_page known (told?_eq_error_iff.mp told) grown
      exact ⟨fun free => absurd (free v mode held) other, fun _ _ _ _ => ⟨rfl, intact, enlarged⟩⟩
    | ok record =>
      obtain ⟨rfl, pages, stored, free⟩ :=
        traced.stored_on_new_page known typed (told?_eq_ok_iff.mp told) grown
      exact ⟨fun _ => ⟨rfl, pages, stored⟩, fun v mode other held => absurd (free v mode held) other⟩
  · intro t takes room deadline
    exact traced.insertRow_ends known takes room (settled ▸ deadline)

/-- A transaction that has asked for the first page too early is over, so another one gets to add it. -/
theorem new_page_is_free_again :
    let schema : Schema := ⟨[⟨.integer, some "n"⟩]⟩
    let absent : Failure := (Failure.ofCause (.noSuchPage ⟨1, 0⟩)).within (.loading ⟨1, 0⟩)
    ∃ s t, (Store.new { pageSize := 16, poolPages := 1 }).follow
        [(.serve (.addTable (.create "odd" "odd" schema "n")), .ok .done),
          (.serve (.getPage 2 ⟨1, 0⟩ .shared), .error absent), (.serve (.complete 2 true), .ok .done)] = some s ∧
      insertRow 1 1 ⟨schema, [.integer 7], none⟩ s = .ok ⟨⟨1, 0⟩, 0⟩ t ∧
      t.stored ⟨⟨1, 0⟩, 0⟩ = some [.integer 7] := by
  intro schema absent
  have facts : ((Store.new { pageSize := 16, poolPages := 1 }).follow
      [(.serve (.addTable (.create "odd" "odd" schema "n")), .ok .done),
        (.serve (.getPage 2 ⟨1, 0⟩ .shared), .error absent),
        (.serve (.complete 2 true), .ok .done)]).any (fun s =>
          (s.catalog.ref 1).toOption = some 0 ∧ s.nextPage 0 = ⟨1, 0⟩ ∧ s.locks.holders ⟨1, 0⟩ = {} ∧
          ((insertRow 1 1 ⟨schema, [.integer 7], none⟩).told? s).any (fun told =>
            (told.2.catalog.table 0).pages ≠ (s.catalog.table 0).pages) = true) = true := by
    decide +kernel
  obtain ⟨s, ran, known, next, free, facts⟩ := exists_of_any facts
  obtain ⟨⟨answer, t⟩, told, grown⟩ := exists_of_any facts
  have typed : Row.Typed ⟨schema, [.integer 7], none⟩ := rfl
  obtain ⟨-, adds⟩ := new_page_is_free_unless_asked_for ran (of_toOption known)
  obtain ⟨stores, -⟩ := (adds 1 _ typed).1 answer t told grown
  rw [next] at stores
  obtain ⟨rfl, -, stored⟩ := stores fun v mode held => by
    unfold Locks.Held at held
    rw [free] at held
    cases mode <;> cases held
  refine ⟨s, t, ran, told?_eq_ok_iff.mp told, ?_⟩
  rw [stored, if_pos rfl]

/-- A transaction that wants to remove a row of a page that is not there keeps others from adding it. -/
theorem new_page_is_taken :
    let schema : Schema := ⟨[⟨.integer, some "n"⟩]⟩
    let absent : Failure := (Failure.ofCause (.noSuchPage ⟨1, 0⟩)).within (.loading ⟨1, 0⟩)
    ∃ s t, (Store.new { pageSize := 16, poolPages := 1 }).follow
        [(.serve (.addTable (.create "odd" "odd" schema "n")), .ok .done),
          (.serve (.delete 2 (some ⟨⟨1, 0⟩, 0⟩)), .error absent)] = some s ∧
      insertRow 1 1 ⟨schema, [.integer 7], none⟩ s = .error (.ofCause (.aborted 1)) t ∧
      (s.catalog.table 0).pages = 0 ∧ (t.catalog.table 0).pages = 1 ∧ s.locks.Held 2 ⟨1, 0⟩ .exclusive := by
  intro schema absent
  have facts : ((Store.new { pageSize := 16, poolPages := 1 }).follow
      [(.serve (.addTable (.create "odd" "odd" schema "n")), .ok .done),
        (.serve (.delete 2 (some ⟨⟨1, 0⟩, 0⟩)), .error absent)]).any (fun s =>
          ((insertRow 1 1 ⟨schema, [.integer 7], none⟩).told? s).any (fun told =>
            told.1 = .error (.ofCause (.aborted 1)) ∧ (s.catalog.table 0).pages = 0 ∧
            (told.2.catalog.table 0).pages = 1 ∧ s.locks.Held 2 ⟨1, 0⟩ .exclusive) = true) = true := by
    decide +kernel
  obtain ⟨s, ran, facts⟩ := exists_of_any facts
  obtain ⟨⟨answer, t⟩, told, rfl, before, after, held⟩ := exists_of_any facts
  exact ⟨s, t, ran, told?_eq_error_iff.mp told, before, after, held⟩

end Store
end HeapStore
