import HeapStore.Proofs.Persisting
import HeapStore.Proofs.Slotting
import HeapStore.Proofs.Storing

/-! A record id names one row, as long as the slots of a page can be told apart by sixteen bits. -/
namespace HeapStore

namespace Store

variable {s : Store} {ref : TableRef} {p : RecordId} {row : Row}

/-- The slots before the one that the next row goes to are in use. -/
theorem stored_of_passed {i : Nat} (before : i < (s.vacant ref).slot) :
    (s.stored ⟨(s.vacant ref).page, i⟩).isSome = true := by
  unfold vacant at before ⊢
  cases free : s.free? ref with
  | none =>
    rw [free] at before
    exact absurd before (Nat.not_lt_zero i)
  | some p =>
    rw [free] at before
    obtain ⟨-, passed, rest, split, used⟩ := List.find?_eq_some_iff_append.mp free
    have ascend := (s.catalog.table ref).places_ascend
    obtain ⟨table, number, slot⟩ := Table.mem_places.mp (List.mem_of_find?_eq_some free)
    have inside : ⟨p.page, i⟩ ∈ (s.catalog.table ref).places :=
      Table.mem_places.mpr ⟨table, number, Nat.lt_trans before slot⟩
    rw [split] at inside ascend
    rcases List.mem_append.mp inside with first | later
    · simpa using used _ first
    · rcases List.mem_cons.mp later with here | beyond
      · exact absurd (congrArg RecordId.slot here) (Nat.ne_of_lt before)
      · rcases List.rel_of_pairwise_cons (List.pairwise_append.mp ascend).2.1 beyond with lt | ⟨-, lt⟩
        · exact absurd lt (Nat.lt_irrefl _)
        · exact absurd lt (Nat.not_lt_of_gt before)

end Store

namespace Session
open Store

variable {M P S T : Session} {es past before later : List Event} {e : Event} {s t : Store} {tx u : TxId}
  {settings : Settings} {disk : Disk} {ref : TableRef} {i : TableId} {row : Row} {record p : RecordId}
  {a : Answer} {k r : Nat} {rows : List Row}

/-- A row that is stored is at the place that its record id tells, and stays there while nobody changes
anything. -/
theorem lodges_of_insert (h : M.store.Guarded)
    (told : M.outcome? (.op tx (.insert i row)) = some (.ok (.stored record), s)) (typed : row.Typed)
    (known : M.store.catalog.ref i = .ok ref)
    (few : (M.store.catalog.table ref).layout.slots ≤ UInt16.size) :
    s.Lodges ref record ⟨(M.store.catalog.table ref).schema, row.values, some record⟩ := by
  obtain ⟨c, x, -, found, settled⟩ := settled_of_op told
  cases found
  have ends : Action.Ends (do return Answer.stored (← insertRow tx i row)) M.store
      (Returns fun answer s => ∃ record, answer = .stored record ∧
        ∃ ref, M.store.catalog.ref i = .ok ref ∧
          (M.store.catalog.table ref).checkSchema row = .ok () ∧
            Edited (Inserts ref row.values record) record.page M.store s) := by
    rw [Action.ends_bind]
    refine (insertRow_ends h tx i row).mono ?_
    rintro (e | record) s altered
    · trivial
    · exact ⟨record, rfl, altered.2⟩
  obtain ⟨_, same, ref', known', checked, edited⟩ := settle_eq_some ends settled
  cases same
  cases known.symm.trans known'
  obtain ⟨t, old, new, scouts, ⟨table, inside, inserted⟩, catalog, firm⟩ := edited
  obtain ⟨valid, key⟩ := h.keyed _ _ known
  have like := scouts.catalog.table ref valid
  have types : row.values.map Value.type = (t.catalog.table ref).schema.types := by
    rw [like]
    exact typed.trans (Table.agrees_of_checkSchema checked)
  obtain ⟨k, free, slot, sets⟩ := Table.valuesAt_insert? types inserted
  have below : k < (M.store.catalog.table ref).layout.slots := by
    have below := Layout.lt_of_firstFree? free
    rwa [like] at below
  rw [Nat.mod_eq_of_lt (Nat.lt_of_lt_of_le below few)] at slot
  subst slot
  refine ⟨?_, by rw [catalog]; exact inside, new, firm, ?_⟩
  · rw [catalog, scouts.ref, table, like]
    exact key.symm ▸ known
  · rw [catalog, Table.row?_eq, sets, if_pos rfl, like, Option.map_some, RecordId.ofSlot,
      Nat.mod_eq_of_lt (Nat.lt_of_lt_of_le below few)]

/-- Of the page that a row is removed from, no other slot changes. -/
theorem freed_of_delete (h : S.store.Guarded)
    (told : S.outcome? (.op u (.delete (some record))) = some (.ok a, t)) (here : p.page = record.page) :
    t.stored p = if p = record then none else S.store.stored p := by
  obtain ⟨c, x, -, found, settled⟩ := settled_of_op told
  cases found
  obtain ⟨answer, same, ended⟩ := settle_done (deleteRow_ends h u (some record)) settled
  cases answer with
  | error f => cases same
  | ok _ =>
    obtain ⟨_, same, -, ref, known, t', old, new, -, ⟨catalog', reads, removed⟩, catalog, firm⟩ := ended
    cases same
    obtain ⟨page, slot⟩ := p
    cases here
    have catalog : t.catalog = S.store.catalog := catalog.trans catalog'
    have known' : t.catalog.ref record.page.table = .ok ref := catalog ▸ known
    by_cases has : S.store.catalog.Has record.page
    · obtain ⟨-, sets⟩ := Table.valuesAt_remove? removed
      have has' : t.catalog.Has record.page := catalog ▸ has
      rw [stored_of_ref (p := ⟨record.page, slot⟩) known',
        stored_of_ref (p := ⟨record.page, slot⟩) known, total_of_has has, total_of_has has',
        content_of_reads reads, content_of_reads firm.reads, catalog, sets]
      cases record
      simp
    · -- a cached page that the table does not count holds nothing, before and afterwards
      have beyond : (S.store.catalog.table ref).pages ≤ record.page.number :=
        Nat.le_of_not_lt fun inside => has ⟨ref, known, inside⟩
      rw [stored_of_lacks (p := ⟨record.page, slot⟩) known' (catalog ▸ beyond),
        stored_of_lacks (p := ⟨record.page, slot⟩) known beyond, ite_self]

/-- A run in which no step takes away the row that a transaction has stored at a place. Unless it does
nothing but look, the tables are distinct. -/
structure Spared (tx : TxId) (record : RecordId) (es : List Event) (P S : Session) : Prop where
  ran : P.run es = some S
  spares : (∀ e ∈ es, e.reads = true) ∨ S.store.catalog.Distinct ∧
    (∀ step ∈ P.trace es, takes tx record step.2 = false) ∧
    ∀ u j row, .op u (.insert j row) ∈ es → row.Typed

theorem Spared.initial (h : Spared tx record (before ++ later) P S) (isolated : Isolated past P)
    (ran : P.run before = some T) : Spared tx record before P T := by
  obtain ⟨ran', spares⟩ := h
  refine ⟨ran, spares.imp (fun reads e listed => reads e (List.mem_append_left _ listed)) ?_⟩
  rintro ⟨distinct, spares, typed⟩
  rw [run_append, ran] at ran'
  rw [trace_append ran] at spares
  exact ⟨((isolated.run ran).extends_run ran').distinct distinct,
    fun step listed => spares step (List.mem_append_left _ listed),
    fun u j row listed => typed u j row (List.mem_append_left _ listed)⟩

theorem lodges_run (h : Isolated past P) (ran : P.run es = some S) (reads : ∀ e ∈ es, e.reads = true)
    (lodges : P.store.Lodges ref p row) : S.store.Lodges ref p row := by
  induction es generalizing past P with
  | nil =>
    cases ran
    exact lodges
  | cons e es ih =>
    rw [run_cons, Option.bind_eq_some_iff] at ran
    obtain ⟨T, stepped, ran⟩ := ran
    obtain ⟨first, reads⟩ := List.forall_mem_cons.mp reads
    obtain ⟨reply, s, told, rfl⟩ := outcome?_of_step stepped
    exact ih (h.step stepped) ran reads (lodges_of_step h.guarded told first lodges)

/-- A row that is spared is where it was stored. -/
theorem Spared.lodges
    (h : Spared tx record es (M.after (.op tx (.insert i row)) (.ok (.stored record)) s) S)
    (ran : (start (Store.new settings disk)).run past = some M)
    (told : M.outcome? (.op tx (.insert i row)) = some (.ok (.stored record), s)) (typed : row.Typed)
    (known : M.store.catalog.ref i = .ok ref)
    (few : (M.store.catalog.table ref).layout.slots ≤ UInt16.size) :
    S.store.Lodges ref record ⟨(M.store.catalog.table ref).schema, row.values, some record⟩ := by
  have isolated := isolated_run ran
  have stepped := isolated.step (step_of_outcome? told)
  rcases h.spares with reads | ⟨distinct, spares, types⟩
  · exact lodges_run stepped h.ran reads (lodges_of_insert isolated.guarded told typed known few)
  · have onward : M.run (.op tx (.insert i row) :: es) = some S := by
      rw [run_cons, step_of_outcome? told]
      exact h.ran
    have orderly := orderly_run ran ((isolated.extends_run onward).distinct distinct)
    have after := orderly.step told ((stepped.extends_run h.ran).distinct distinct)
    obtain ⟨ref', known', names, below, -⟩ := place_of_insert orderly.coherent told typed
    cases known.symm.trans known'
    have short := Nat.lt_of_lt_of_le below few
    have place : record = M.store.vacant ref := by rw [names, RecordId.ofSlot, Nat.mod_eq_of_lt short]
    obtain ⟨ref', known', -, houses⟩ := orderly.toSteady.houses_of_insert told typed
    cases known.symm.trans known'
    rw [← place] at houses short
    have houses := after.houses_run h.ran distinct spares types houses
    have lodges := houses.lodges (after.run h.ran distinct).coherent short
    rwa [(orderly.table_run onward distinct known).2.1] at lodges

/-- Whoever has stored a row and has not ended can remove it by its record id. -/
theorem Orderly.removes (h : Orderly settings M)
    (told : M.outcome? (.op tx (.insert i row)) = some (.ok (.stored record), s))
    (ran : (M.after (.op tx (.insert i row)) (.ok (.stored record)) s).run es = some S)
    (distinct : S.store.catalog.Distinct) {row' : Row} (lodges : S.store.Lodges ref record row')
    (running : S.running tx = true) :
    ∃ t, S.outcome? (.op tx (.delete (some record))) = some (.ok .done, t) := by
  obtain ⟨past, isolated⟩ := h.isolated
  have stepped := isolated.step (step_of_outcome? told)
  have after := h.step told ((stepped.extends_run ran).distinct distinct)
  obtain ⟨before, alters⟩ := alters_of_change h.guarded told rfl
  have old : tx < s.nextTx := alters.nextTx ▸ h.started before
  have orderly := after.run ran distinct
  refine delete_answers orderly.coherent running ?_ (after.held_run ran distinct running old alters.held)
    lodges.known (by rw [lodges.stored]; rfl)
  rw [orderly.sane.settings, ← h.sane.settings]
  exact patient_of_insert h.coherent told

/-- A scan in a run that starts with the tables as they are. -/
theorem roams_of_run (ran : (start (Store.new settings disk)).run past = some M)
    (known : M.store.catalog.ref i = .ok ref)
    (few : (M.store.catalog.table ref).layout.slots ≤ UInt16.size) (ran' : M.run before = some P)
    (scan : Scans u k r ref P) : Roams u k r ref P := by
  have isolated := isolated_run ran
  obtain ⟨valid, -⟩ := isolated.guarded.keyed _ _ known
  have extends' := isolated.extends_run ran'
  have whole : (start (Store.new settings disk)).run (past ++ before) = some P := by
    rw [run_append, ran]
    exact ran'
  obtain ⟨c, client, -⟩ := used?_iterate_iff.mp scan.used
  refine ⟨scan, ⟨_, isolated_run whole⟩, assigned_run whole, (accounted_run whole).started u c client,
    Nat.lt_of_lt_of_le valid extends'.size, ?_⟩
  rw [extends'.table ref valid]
  exact few

/-- The record ids that a full scan tells are pairwise different, whatever happens in the meantime. A
row is stored under the record id that is told: as long as no step takes it away, it is the one row that
a full scan tells under this record id, and removing by the record id frees its slot and no other. If the
slots of a page are too many to be told apart then a row can get the record id of one that was there
before, which is then the one that is removed by it. -/
theorem record_id_names_row (ran : (start (Store.new settings disk)).run past = some M)
    (known : M.store.catalog.ref i = .ok ref) :
    ((M.store.catalog.table ref).layout.slots ≤ UInt16.size →
      (∀ es u rows, FullScan M es u ref rows → (rows.map Row.record).Nodup) ∧
      ∀ tx row record s, M.outcome? (.op tx (.insert i row)) = some (.ok (.stored record), s) →
        row.Typed → ∀ es S, Spared tx record es (M.after (.op tx (.insert i row)) (.ok (.stored record)) s) S →
          S.store.stored record = some row.values ∧
          (∀ u rows, FullScan (M.after (.op tx (.insert i row)) (.ok (.stored record)) s) es u ref rows →
            ∀ row', row' ∈ rows ∧ row'.record = some record ↔
              row' = ⟨(M.store.catalog.table ref).schema, row.values, some record⟩) ∧
          (S.store.catalog.Distinct → S.running tx = true →
            ∃ t, S.outcome? (.op tx (.delete (some record))) = some (.ok .done, t)) ∧
          ∀ u a t, S.outcome? (.op u (.delete (some record))) = some (.ok a, t) →
            ∀ p, p.page = record.page ∨ S.store.catalog.Distinct →
              t.stored p = if p = record then none else S.store.stored p) ∧
    ∀ tx row record s, M.outcome? (.op tx (.insert i row)) = some (.ok (.stored record), s) → row.Typed →
      M.store.catalog.Distinct → UInt16.size ≤ (M.store.vacant ref).slot →
      record ≠ M.store.vacant ref ∧ (M.store.stored record).isSome = true ∧
      ∀ u a t, (M.after (.op tx (.insert i row)) (.ok (.stored record)) s).outcome?
          (.op u (.delete (some record))) = some (.ok a, t) →
        t.stored record = none ∧ t.stored (M.store.vacant ref) = some row.values := by
  have isolated := isolated_run ran
  refine ⟨fun few => ⟨?_, fun tx row record s told typed es S spared => ?_⟩,
    fun tx row record s told typed distinct many => ?_⟩
  · rintro es u rows ⟨before, within, later, P, k, r, rfl, ran', scan, full⟩
    have stays : Stays ref (fun _ _ => False) P within := fun _ _ _ _ _ _ _ never => never.elim
    exact ((roams_of_run ran known few ran' scan).tells stays full).1
  · have stepped := isolated.step (step_of_outcome? told)
    have lodges := spared.lodges ran told typed known few
    refine ⟨lodges.stored, ?_, fun distinct running => ?_, ?_⟩
    · rintro u rows ⟨before, within, later, P, k, r, rfl, ran', scan, full⟩ row'
      -- up to each state of the scan the run was one that spares the row
      have stays : Stays ref (fun p told => p = record ∧
          told = ⟨(M.store.catalog.table ref).schema, row.values, some record⟩) P within := by
        rintro first rest T rfl ran'' p told' ⟨rfl, rfl⟩
        have split : before ++ (first ++ rest ++ later) = before ++ first ++ (rest ++ later) := by simp
        rw [split] at spared
        refine (spared.initial stepped ?_).lodges ran told typed known few
        rw [run_append, ran']
        exact ran''
      have onward : M.run (.op tx (.insert i row) :: before) = some P := by
        rw [run_cons, step_of_outcome? told]
        exact ran'
      obtain ⟨nodup, covers⟩ := (roams_of_run ran known few onward scan).tells stays full
      have mem := covers record _ ⟨rfl, rfl⟩
      constructor
      · rintro ⟨listed, named⟩
        exact List.inj_on_of_nodup_map nodup listed mem named
      · rintro rfl
        exact ⟨mem, rfl⟩
    · have onward : M.run (.op tx (.insert i row) :: es) = some S := by
        rw [run_cons, step_of_outcome? told]
        exact spared.ran
      have orderly := orderly_run ran ((isolated.extends_run onward).distinct distinct)
      exact orderly.removes told spared.ran distinct lodges running
    · rintro u a t removed p (here | distinct)
      · exact freed_of_delete (stepped.run spared.ran).guarded removed here
      · have whole : (start (Store.new settings disk)).run (past ++ .op tx (.insert i row) :: es) =
            some S := by
          rw [run_append, ran, Option.bind_some, run_cons, step_of_outcome? told]
          exact spared.ran
        exact (stored_of_delete (orderly_run whole distinct).coherent removed).2.1 p
  · have coherent := (orderly_run ran distinct).coherent
    obtain ⟨ref', known', names, -, law, -⟩ := place_of_insert coherent told typed
    cases known.symm.trans known'
    have wraps : (M.store.vacant ref).slot % UInt16.size < (M.store.vacant ref).slot :=
      Nat.lt_of_lt_of_le (Nat.mod_lt _ (by decide)) many
    have other : record ≠ M.store.vacant ref := by
      rw [names]
      exact fun same => Nat.ne_of_lt wraps (congrArg RecordId.slot same)
    have here : record.page = (M.store.vacant ref).page := by rw [names]; rfl
    refine ⟨other, by rw [names]; exact stored_of_passed wraps, fun u a t removed => ?_⟩
    have stepped := isolated.step (step_of_outcome? told)
    rw [freed_of_delete stepped.guarded removed rfl, freed_of_delete stepped.guarded removed here.symm,
      if_pos rfl, if_neg other.symm]
    exact ⟨rfl, (law _).trans (if_pos rfl)⟩

/-- A row that goes between two others is told after it is committed, and removed by its record id. -/
theorem record_id_names_row_committed :
    let schema : Schema := ⟨[⟨.integer, some "n"⟩]⟩
    let row : Row := ⟨schema, [.integer 7], none⟩
    let between : RecordId := ⟨⟨1, 0⟩, 1⟩
    let onward : List Event := [.commit 1, .begin, .op 2 (.scan 1)]
    let scanned : List Event := .op 2 (.iterate 0 .start) ::
      ((List.replicate 3 [.op 2 (.iterate 0 .hasNext), .op 2 (.iterate 0 .next)]).flatten ++
        [.op 2 (.iterate 0 .hasNext)])
    ∃ M s S rows a t, (start (Store.new { pageSize := 16, poolPages := 1 }
        ⟨[("odd", .ofBytes ⟨Array.replicate 16 5⟩)]⟩)).run
        [.addTable (.load "odd" "odd" schema "n"), .begin] = some M ∧
      M.outcome? (.op 1 (.insert 1 row)) = some (.ok (.stored between), s) ∧
      Spared 1 between (onward ++ scanned)
        (M.after (.op 1 (.insert 1 row)) (.ok (.stored between)) s) S ∧
      FullScan (M.after (.op 1 (.insert 1 row)) (.ok (.stored between)) s) (onward ++ scanned) 2 0 rows ∧
      ⟨schema, [.integer 7], some between⟩ ∈ rows ∧
      S.outcome? (.op 2 (.delete (some between))) = some (.ok a, t) ∧
      ∀ p, t.stored p = if p = between then none else S.store.stored p := by
  intro schema row between onward scanned
  have facts : ((start (Store.new { pageSize := 16, poolPages := 1 }
      ⟨[("odd", .ofBytes ⟨Array.replicate 16 5⟩)]⟩)).run
      [.addTable (.load "odd" "odd" schema "n"), .begin]).any (fun M =>
      (M.store.catalog.ref 1).toOption = some 0 ∧
      (M.store.catalog.table 0).layout.slots ≤ UInt16.size ∧
      (M.store.catalog.table 0).schema = schema ∧
      (M.outcome? (.op 1 (.insert 1 row))).any (fun told =>
        told.1.toOption = some (.stored between) ∧
        ((M.after (.op 1 (.insert 1 row)) (.ok (.stored between)) told.2).run onward).any (fun P =>
          Scans 2 0 0 0 P ∧ (fullScan? (scanSteps 2 0 (P.trace scanned))).isSome = true) = true ∧
        (∀ step ∈ (M.after (.op 1 (.insert 1 row)) (.ok (.stored between)) told.2).trace
          (onward ++ scanned), takes 1 between step.2 = false) ∧
        ((M.after (.op 1 (.insert 1 row)) (.ok (.stored between)) told.2).run (onward ++ scanned)).any
          (fun S => S.store.catalog.Distinct ∧ (S.outcome? (.op 2 (.delete (some between)))).any
            (fun told => told.1.toOption = some .done) = true) = true) = true) = true := by
    decide +kernel
  obtain ⟨M, ran, facts⟩ := (Option.any_eq_true _ _).mp facts
  obtain ⟨known, few, typed, told⟩ := of_decide_eq_true facts
  obtain ⟨⟨reply, s⟩, told, facts⟩ := (Option.any_eq_true _ _).mp told
  obtain ⟨same, scans, spares, ends⟩ := of_decide_eq_true facts
  obtain rfl := of_toOption same
  obtain ⟨P, ran', facts⟩ := (Option.any_eq_true _ _).mp scans
  obtain ⟨scan, rows⟩ := of_decide_eq_true facts
  obtain ⟨rows, full⟩ := Option.isSome_iff_exists.mp rows
  obtain ⟨S, ran'', facts⟩ := (Option.any_eq_true _ _).mp ends
  obtain ⟨distinct, removed⟩ := of_decide_eq_true facts
  obtain ⟨⟨reply, t⟩, removed, same⟩ := (Option.any_eq_true _ _).mp removed
  obtain rfl := of_toOption (of_decide_eq_true same)
  have spared : Spared 1 between (onward ++ scanned) _ S :=
    ⟨ran'', Or.inr ⟨distinct, spares, by simp [onward, scanned]⟩⟩
  have fullScan : FullScan _ (onward ++ scanned) 2 0 rows :=
    ⟨onward, scanned, [], P, 0, 0, by rw [List.append_nil], ran', scan, full⟩
  obtain ⟨-, tells, -, frees⟩ := ((record_id_names_row ran (of_toOption known)).1 few).2 1 row between s
    told (by decide) (onward ++ scanned) S spared
  exact ⟨M, s, S, rows, .done, t, ran, told, spared, fullScan,
    ((tells 2 rows fullScan _).mpr (by rw [typed])).1, removed,
    fun p => frees 2 .done t removed p (Or.inr distinct)⟩

/-- A page of 65544 slots without bytes, of which the first 65536 are in use. -/
def crowded : File := ⟨[⟨0, .replicate 8192 255⟩], 8193⟩

theorem byte_crowded (i : Nat) : crowded.byte i = if i < 8192 then 255 else 0 := by
  rw [crowded, File.byte, List.findSome?_singleton, Piece.byte?, if_pos (Nat.zero_le i), Nat.sub_zero,
    Bytes.byte?_replicate]
  split <;> rfl

theorem used?_crowded {k : Nat} (inside : k < 8193 * 8) :
    Layout.used? (crowded.span 0 8193) k = some (decide (k < UInt16.size)) := by
  have size : UInt16.size = 8192 * 8 := rfl
  have front : k / 8 < 8193 := Nat.div_lt_of_lt_mul (Nat.mul_comm _ _ ▸ inside)
  have shows := File.byte?_span crowded 0 front
  rw [Nat.zero_add, byte_crowded] at shows
  rw [Layout.used?, File.size_span, if_pos front]
  by_cases used : k < UInt16.size
  · rw [if_pos (by omega)] at shows
    rw [Bytes.bit_of_ones (by rw [shows]; rfl), decide_eq_true used]
  · rw [if_neg (by omega)] at shows
    rw [Bytes.bit, shows, decide_eq_false used]
    simp

/-- The next row of a table that has this file goes to the first slot that sixteen bits cannot number. -/
theorem vacant_crowded (h : s.Coherent) (clean : s.owner ⟨1, 0⟩ = none) (known : s.catalog.ref 1 = .ok 0)
    (table : s.catalog.table 0 = ⟨1, "odd", ⟨[]⟩, 8193, 8193⟩) (there : s.disk.get? "odd" = some crowded) :
    s.vacant 0 = ⟨⟨1, 0⟩, UInt16.size⟩ := by
  have here : s.catalog.ref (PageId.mk 1 0).table = .ok 0 := known
  have bytes := h.total_of_file clean here (by rw [table]; decide) (by rw [table, there])
  have whole := h.size_total here
  have free : (s.catalog.table 0).layout.firstFree? (s.total ⟨1, 0⟩) = some UInt16.size := by
    refine Layout.firstFree?_of_least whole (by rw [table]; decide) ?_ fun k below => ?_
    · rw [bytes, table]
      exact used?_crowded (by decide)
    · rw [bytes, table]
      refine (used?_crowded (Nat.lt_trans below (by decide))).trans ?_
      rw [decide_eq_true below]
  have key : (s.catalog.table 0).id = 1 := by rw [table]
  rw [← key] at known free ⊢
  exact (vacant_eq h known (Nat.zero_le _) (fun _ never => absurd never (Nat.not_lt_zero _)) free).1

/-- The row that goes there is told the record id of the first row of the page. That one is removed by the
record id, and the new one stays. -/
theorem record_id_names_other_row : ∃ M s t,
    (start (Store.new { pageSize := 8193, poolPages := 1 } ⟨[("odd", crowded)]⟩)).run
      [.addTable (.load "odd" "odd" ⟨[]⟩ "n"), .begin] = some M ∧
    M.outcome? (.op 1 (.insert 1 ⟨⟨[]⟩, [], none⟩)) = some (.ok (.stored ⟨⟨1, 0⟩, 0⟩), s) ∧
    (M.store.stored ⟨⟨1, 0⟩, 0⟩).isSome = true ∧ M.store.stored ⟨⟨1, 0⟩, UInt16.size⟩ = none ∧
    s.stored ⟨⟨1, 0⟩, UInt16.size⟩ = some [] ∧
    (M.after (.op 1 (.insert 1 ⟨⟨[]⟩, [], none⟩)) (.ok (.stored ⟨⟨1, 0⟩, 0⟩)) s).outcome?
      (.op 1 (.delete (some ⟨⟨1, 0⟩, 0⟩))) = some (.ok .done, t) ∧
    t.stored ⟨⟨1, 0⟩, 0⟩ = none ∧ t.stored ⟨⟨1, 0⟩, UInt16.size⟩ = some [] := by
  have facts : ((start (Store.new { pageSize := 8193, poolPages := 1 } ⟨[("odd", crowded)]⟩)).run
      ([NewTable.load "odd" "odd" ⟨[]⟩ "n"].map .addTable)).any (fun S =>
        S.store.catalog.Distinct ∧ (S.store.catalog.ref 1).toOption = some 0 ∧
        S.store.catalog.table 0 = ⟨1, "odd", ⟨[]⟩, 8193, 8193⟩) = true := by
    decide +kernel
  obtain ⟨S, opened, facts⟩ := (Option.any_eq_true _ _).mp facts
  obtain ⟨distinct, found, table⟩ := of_decide_eq_true facts
  obtain ⟨-, -, fresh⟩ := opened_run opened
  -- the page has too many bytes to be computed with, so the lemmas tell what happens from here on
  let begun : Store := { S.store with nextTx := S.store.nextTx + 1 }
  let M : Session := S.after .begin (.ok (.began S.store.nextTx)) begun
  have running : M.running 1 = true := by
    have first : S.store.nextTx = 1 := by rw [fresh.rest]; rfl
    rw [running_after_begin, first]
    rfl
  have known : begun.catalog.ref 1 = .ok 0 := of_toOption found
  have table : begun.catalog.table 0 = ⟨1, "odd", ⟨[]⟩, 8193, 8193⟩ := table
  have coherent : begun.Coherent := (sane_run opened distinct).coherent.withNextTx _
  have vacant : begun.vacant 0 = ⟨⟨1, 0⟩, UInt16.size⟩ :=
    vacant_crowded coherent (fresh.owner _) known table (fresh.files "odd" crowded rfl)
  have sole : Plain.Sole 1 begun.view :=
    ⟨congrArg Settings.hasDeadline fresh.settings, fun u p mode held => absurd held (fresh.unlocked u p mode)⟩
  have takes : (begun.catalog.table 0).Takes ⟨⟨[]⟩, [], none⟩ :=
    ⟨rfl, fun _ never => (by cases never), by rw [table]; rfl⟩
  obtain ⟨s, inserted, stores⟩ := (insertRow_stores coherent sole known (by rw [table]; decide) takes
    fun _ => by rw [table]; decide).exists_ok
  have told : M.outcome? (.op 1 (.insert 1 ⟨⟨[]⟩, [], none⟩)) = some (.ok (.stored ⟨⟨1, 0⟩, 0⟩), s) := by
    rw [vacant] at inserted
    exact outcome?_of_ok running (fun _ => rfl) (Action.bind_eq_ok_iff.mpr ⟨_, _, inserted, rfl⟩)
  have there : (begun.stored ⟨⟨1, 0⟩, 0⟩).isSome = true := by
    have before : 0 < (begun.vacant 0).slot := by rw [vacant]; decide
    have passed := stored_of_passed before
    rwa [vacant] at passed
  have empty : begun.stored ⟨⟨1, 0⟩, UInt16.size⟩ = none := by
    rw [← vacant]
    exact stored_vacant (by rw [table]; exact known)
  have stored := stores.stored
  rw [vacant] at stored
  have still : (s.stored ⟨⟨1, 0⟩, 0⟩).isSome = true := by rwa [stored, if_neg (by decide)]
  obtain ⟨t, deleted, drops⟩ := (deleteRow_drops stores.coherent (stores.sole sole)
    ((stores.grown.ref 1).trans known) still).exists_ok
  refine ⟨M, s, t, run_snoc opened rfl, told, there, empty, ?_, ?_, ?_, ?_⟩
  · rw [stored, if_pos rfl]
  · exact outcome?_of_ok ((running_after_op ..).trans running) (fun _ => rfl)
      (Action.bind_eq_ok_iff.mpr ⟨_, _, deleted, rfl⟩)
  · rw [drops.stored, if_pos rfl]
  · rw [drops.stored, if_neg (by decide), stored, if_pos rfl]

end Session
end HeapStore
