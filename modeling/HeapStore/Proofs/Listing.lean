import HeapStore.Proofs.Forgetting
import HeapStore.Proofs.Mapping

/-! A full scan tells the rows that are stored, in the order of their places, if nobody stores or removes
any in the meantime. So a table is a map from places to rows. -/
namespace HeapStore

namespace Session
open Store

variable {M P S : Session} {es past : List Event} {e : Event} {reply : Reply} {s : Store}
  {tx : TxId} {settings : Settings} {disk : Disk} {ref : TableRef} {i : TableId} {k r : Nat}
  {rows left : List Row} {w : Plain}

/-- What is left of a run in which nobody stores or removes rows, so that the pages hold what they hold
in `w`. -/
structure Calm (settings : Settings) (tx : TxId) (ref : TableRef) (w : Plain) (es : List Event)
    (P : Session) : Prop where
  steady : Steady settings P
  old : tx < P.store.nextTx
  ran : (P.run es).isSome = true
  looks : ∀ e ∈ es, e.looks = true
  known : w.catalog.ref (w.catalog.table ref).id = .ok ref
  catalog : P.store.catalog = w.catalog
  total : P.store.total = w.total

theorem Calm.step (h : Calm settings tx ref w (e :: es) P) : ∃ reply s,
    P.outcome? e = some (reply, s) ∧ Plain.Shows tx ref P.store.view s.view w ∧
      Calm settings tx ref w es (P.after e reply s) := by
  obtain ⟨S, ran⟩ := Option.isSome_iff_exists.mp h.ran
  obtain ⟨T, stepped, ran⟩ := Option.bind_eq_some_iff.mp ((run_cons P e es).symm.trans ran)
  obtain ⟨reply, s, told, rfl⟩ := outcome?_of_step stepped
  have looks := h.looks e (List.mem_cons_self ..)
  obtain ⟨catalog, total⟩ := h.steady.looks told looks
  have adds : ¬∃ t, e = .addTable t := by
    rintro ⟨t, rfl⟩
    cases looks
  have here : P.store.view.catalog = w.catalog := h.catalog
  have same : s.view.catalog = w.catalog := catalog.trans h.catalog
  refine ⟨reply, s, told, ⟨h.known, by rw [here], fun n mode _ => ?_, fun n beyond => ?_⟩, ?_⟩
  · exact (congrFun h.total _).symm
  · rw [same] at beyond
    have there : w.catalog.ref (PageId.mk (w.catalog.table ref).id n).table = .ok ref := h.known
    have lacks : ¬w.catalog.Has ⟨(w.catalog.table ref).id, n⟩ := by
      rw [Catalog.has_iff there]
      exact Nat.not_lt_of_le beyond
    rw [here, Plain.total, Catalog.fill_of_lacks lacks, Catalog.blank_of_ref there]
  · exact {
      steady := h.steady.step told fun added => absurd added adds
      old := Nat.lt_of_lt_of_le h.old (nextTx_of_step h.steady.guarded told)
      ran := Option.isSome_iff_exists.mpr ⟨S, ran⟩
      looks := fun e listed => h.looks e (List.mem_cons_of_mem _ listed)
      known := h.known
      catalog := catalog.trans h.catalog
      total := total.trans h.total }

theorem Calm.rest (h : Calm settings tx ref w es P) (scan : Underway tx k r ref left P w)
    (told : restRows? (scanSteps tx k (P.trace es)) = some rows) : rows = left := by
  induction es generalizing P left rows with
  | nil => cases told
  | cons e es ih =>
    obtain ⟨reply, s, next, shows, calm⟩ := h.step
    by_cases own : ∃ st, e = .op tx (.iterate k st)
    · obtain ⟨st, rfl⟩ := own
      rw [scanSteps_own next] at told
      rcases restRows?_cons told with
        ⟨rfl, rfl, rfl⟩ | ⟨rfl, rfl, rest⟩ | ⟨row, rows', rfl, rfl, rest, rfl⟩
      · obtain ⟨last, -⟩ := scan.hasNext h.steady h.old next shows
        cases left with
        | nil => rfl
        | cons row left => cases last
      · exact ih calm (scan.hasNext h.steady h.old next shows).2 rest
      · obtain ⟨left', rfl, onward⟩ := scan.next h.steady h.old next shows
        rw [ih calm onward rest]
    · have other : ∀ st, e ≠ .op tx (.iterate k st) := fun st same => own ⟨st, same⟩
      rw [scanSteps_other next other] at told
      exact ih calm (scan.other h.steady h.old next other) told

theorem Calm.tells (h : Calm settings tx ref w es P) (scan : Scans tx k r ref P)
    (told : fullScan? (scanSteps tx k (P.trace es)) = some rows) : rows = w.rowsFrom ref 0 := by
  induction es generalizing P with
  | nil => cases told
  | cons e es ih =>
    obtain ⟨reply, s, next, shows, calm⟩ := h.step
    by_cases own : ∃ st, e = .op tx (.iterate k st)
    · obtain ⟨st, rfl⟩ := own
      rw [scanSteps_own next] at told
      obtain ⟨opens, rfl, rest⟩ := fullScan?_cons told
      exact calm.rest (scan.opens h.steady h.old next shows opens) rest
    · have other : ∀ st, e ≠ .op tx (.iterate k st) := fun st same => own ⟨st, same⟩
      rw [scanSteps_other next other] at told
      exact ih calm (scan.after h.steady.assigned h.old next) told

/-- A full scan of a table that nobody changes tells its rows in the order of their places. -/
theorem rows_of_fullScan (ran : (start (Store.new settings disk)).run past = some M)
    (distinct : M.store.catalog.Distinct) (ran' : M.run es = some S) (looks : ∀ e ∈ es, e.looks = true)
    (known : M.store.catalog.ref i = .ok ref)
    (few : (M.store.catalog.table ref).layout.slots ≤ UInt16.size) (scan : Scans tx k r ref M)
    (told : fullScan? (scanSteps tx k (M.trace es)) = some rows) : rows = M.store.listing ref := by
  have steady := (orderly_run ran distinct).toSteady
  obtain ⟨c, client, -⟩ := used?_iterate_iff.mp scan.used
  obtain ⟨-, key⟩ := steady.guarded.keyed _ _ known
  have known' : M.store.catalog.ref (M.store.catalog.table ref).id = .ok ref := key.symm ▸ known
  have calm : Calm settings tx ref M.store.view es M :=
    ⟨steady, (accounted_run ran).started tx c client, Option.isSome_iff_exists.mpr ⟨S, ran'⟩, looks,
      known', rfl, rfl⟩
  rw [calm.tells scan told, rowsFrom_eq steady.coherent known' few]

/-- A table is a map from places to values, in any pool and whatever was in its file. A row is stored at
the first free place, which is on a new page if all others are taken, and a removal frees one place; no
other place of any table is touched. A full scan tells all that is stored in the order of the places. -/
theorem table_as_map (ran : (start (Store.new settings disk)).run past = some M)
    (distinct : M.store.catalog.Distinct) (known : M.store.catalog.ref i = .ok ref)
    (few : (M.store.catalog.table ref).layout.slots ≤ UInt16.size) :
    (∀ tx row record s, M.outcome? (.op tx (.insert i row)) = some (.ok (.stored record), s) → row.Typed →
      record = M.store.vacant ref ∧
      (∀ p, s.stored p = if p = record then some row.values else M.store.stored p) ∧
      ∀ k, (s.catalog.table k).pages = (M.store.catalog.table k).pages +
        if k = ref ∧ M.store.free? ref = none then 1 else 0) ∧
    (∀ tx record a s, M.outcome? (.op tx (.delete (some record))) = some (.ok a, s) →
      (M.store.stored record).isSome = true ∧
      (∀ p, s.stored p = if p = record then none else M.store.stored p) ∧ s.catalog = M.store.catalog) ∧
    (∀ es S tx k r rows, M.run es = some S → (∀ e ∈ es, e.looks = true) → Scans tx k r ref M →
      fullScan? (scanSteps tx k (M.trace es)) = some rows → rows = M.store.listing ref) ∧
    ∀ es S, M.run es = some S → (∀ e ∈ es, e.keeps = true) →
      (∀ tx i row, .op tx (.insert i row) ∈ es → row.Typed) →
      (∀ k, (M.store.catalog.table k).layout.slots ≤ UInt16.size) →
      S.store.stored = ((M.trace es).map Prod.snd).foldl storedAfter M.store.stored := by
  have steady := (orderly_run ran distinct).toSteady
  refine ⟨fun tx row record s told typed => ?_, fun tx record a s told => ?_,
    fun es S tx k r rows ran' looks scan told => ?_, fun es S ran' keeps typed few => ?_⟩
  · obtain ⟨ref', known', laws⟩ := stored_of_insert steady.coherent told typed fun ref' known' => by
      cases known.symm.trans known'
      exact few
    cases known.symm.trans known'
    exact laws
  · exact stored_of_delete steady.coherent told
  · exact rows_of_fullScan ran distinct ran' looks known few scan told
  · exact steady.stored_run ran' keeps typed few

/-- The page of a file that ends in part of another page gets full, and a new one is added. -/
theorem table_as_map_grown :
    let schema : Schema := ⟨[⟨.integer, some "n"⟩]⟩
    let row (n : Int32) : Row := ⟨schema, [.integer n], none⟩
    let scanned : List Event := .op 1 (.iterate 0 .start) ::
      ((List.replicate 3 [.op 1 (.iterate 0 .hasNext), .op 1 (.iterate 0 .next)]).flatten ++
        [.op 1 (.iterate 0 .hasNext)])
    ∃ M s S rows, (start (Store.new { pageSize := 16, poolPages := 1 }
        ⟨[("odd", .ofBytes ⟨Array.replicate 20 5⟩)]⟩)).run
        [.addTable (.load "odd" "odd" schema "n"), .begin, .op 1 (.scan 1), .op 1 (.insert 1 (row 7))] =
          some M ∧
      M.outcome? (.op 1 (.insert 1 (row 8))) = some (.ok (.stored ⟨⟨1, 1⟩, 0⟩), s) ∧
      ⟨⟨1, 1⟩, 0⟩ = M.store.vacant 0 ∧
      (∀ p, s.stored p = if p = ⟨⟨1, 1⟩, 0⟩ then some [.integer 8] else M.store.stored p) ∧
      M.run scanned = some S ∧ fullScan? (scanSteps 1 0 (M.trace scanned)) = some rows ∧
      rows = M.store.listing 0 := by
  intro schema row scanned
  have facts : ((start (Store.new { pageSize := 16, poolPages := 1 }
      ⟨[("odd", .ofBytes ⟨Array.replicate 20 5⟩)]⟩)).run
      [.addTable (.load "odd" "odd" schema "n"), .begin, .op 1 (.scan 1),
        .op 1 (.insert 1 (row 7))]).any (fun M =>
      M.store.catalog.Distinct ∧ (M.store.catalog.ref 1).toOption = some 0 ∧
      (M.store.catalog.table 0).layout.slots ≤ UInt16.size ∧ Scans 1 0 0 0 M ∧
      (M.outcome? (.op 1 (.insert 1 (row 8)))).any
        (fun told => told.1.toOption = some (.stored ⟨⟨1, 1⟩, 0⟩)) = true ∧
      (M.run scanned).isSome = true ∧
      (fullScan? (scanSteps 1 0 (M.trace scanned))).isSome = true) = true := by
    decide +kernel
  obtain ⟨M, ran, facts⟩ := (Option.any_eq_true _ _).mp facts
  obtain ⟨distinct, known, few, scan, told, onward, rows⟩ := of_decide_eq_true facts
  obtain ⟨⟨reply, s⟩, told, same⟩ := (Option.any_eq_true _ _).mp told
  obtain ⟨S, ran'⟩ := Option.isSome_iff_exists.mp onward
  obtain ⟨rows, rest⟩ := Option.isSome_iff_exists.mp rows
  obtain rfl := of_toOption (of_decide_eq_true same)
  have laws := table_as_map ran distinct (of_toOption known) few
  obtain ⟨first, stored, -⟩ := laws.1 1 (row 8) _ s told (by decide)
  exact ⟨M, s, S, rows, ran, told, first, stored, ran', rest,
    laws.2.2.1 scanned S 1 0 0 rows ran' (by decide) scan rest⟩

/-- A row that is stored in a table shows in another table of the same file, and a table that takes over
the id of another one may not take a row where its own file has room. -/
theorem table_not_as_map :
    let schema : Schema := ⟨[⟨.integer, some "n"⟩]⟩
    let row : Row := ⟨schema, [.integer 7], none⟩
    let store := Store.new { pageSize := 16, poolPages := 1 }
      ⟨[("odd", .ofBytes (.zeros 16)), ("even", .ofBytes (.zeros 16))]⟩
    (∃ M s, (start store).run [.addTable (.load "odd" "odd" schema "n"),
          .addTable (.load "even" "even" schema "n"), .addTable (.load "even" "same" schema "n"), .begin,
          .op 1 (.insert 1 row)] = some M ∧
      M.outcome? (.op 1 (.insert 2 row)) = some (.ok (.stored ⟨⟨2, 0⟩, 0⟩), s) ∧
      M.store.stored ⟨⟨3, 0⟩, 0⟩ = none ∧ s.stored ⟨⟨3, 0⟩, 0⟩ = some row.values) ∧
    ∃ M s, (start store).run [.addTable (.loadWithId 1 "odd" "odd" schema "n" 16), .begin,
          .op 1 (.insert 1 row), .addTable (.loadWithId 1 "even" "even" schema "n" 16)] = some M ∧
      M.outcome? (.op 1 (.insert 1 row)) = some (.ok (.stored ⟨⟨1, 0⟩, 1⟩), s) ∧
      M.store.saved ⟨1, 0⟩ = .zeros 16 := by
  intro schema row store
  have shared : ((start store).run [.addTable (.load "odd" "odd" schema "n"),
        .addTable (.load "even" "even" schema "n"), .addTable (.load "even" "same" schema "n"), .begin,
        .op 1 (.insert 1 row)]).any (fun M => M.store.stored ⟨⟨3, 0⟩, 0⟩ = none ∧
      (M.outcome? (.op 1 (.insert 2 row))).any (fun told =>
        told.1.toOption = some (.stored ⟨⟨2, 0⟩, 0⟩) ∧
          told.2.stored ⟨⟨3, 0⟩, 0⟩ = some row.values) = true) = true := by
    decide +kernel
  have taken : ((start store).run [.addTable (.loadWithId 1 "odd" "odd" schema "n" 16), .begin,
        .op 1 (.insert 1 row), .addTable (.loadWithId 1 "even" "even" schema "n" 16)]).any (fun M =>
      M.store.saved ⟨1, 0⟩ = .zeros 16 ∧ (M.outcome? (.op 1 (.insert 1 row))).any (fun told =>
        told.1.toOption = some (.stored ⟨⟨1, 0⟩, 1⟩)) = true) = true := by
    decide +kernel
  constructor
  · obtain ⟨M, ran, facts⟩ := (Option.any_eq_true _ _).mp shared
    obtain ⟨before, told⟩ := of_decide_eq_true facts
    obtain ⟨⟨reply, s⟩, told, facts⟩ := (Option.any_eq_true _ _).mp told
    obtain ⟨same, after⟩ := of_decide_eq_true facts
    obtain rfl := of_toOption same
    exact ⟨M, s, ran, told, before, after⟩
  · obtain ⟨M, ran, facts⟩ := (Option.any_eq_true _ _).mp taken
    obtain ⟨saved, told⟩ := of_decide_eq_true facts
    obtain ⟨⟨reply, s⟩, told, same⟩ := (Option.any_eq_true _ _).mp told
    obtain rfl := of_toOption (of_decide_eq_true same)
    exact ⟨M, s, ran, told, saved⟩

end Session
end HeapStore
