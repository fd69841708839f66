import HeapStore.Proofs.Ascending
import HeapStore.Proofs.Replaying

/-! A row stays where it was stored. Others may change the page, write it or take their own changes
back, and the pool may let go of it; the row is there until somebody removes it, its own transaction
is undone, or the page is dropped by hand. -/
namespace HeapStore

/-- Whether a step may take away the row that the transaction has stored at a place. -/
def takes (tx : TxId) (p : RecordId) : Event × Reply → Bool
  | (.op _ (.delete (some record)), .ok _) => record = p
  | (.abort u, _) | (.drop u, _) => u = tx
  | (.discard id, _) => id = p.page
  | _ => false

namespace Store

variable {s s' t : Store} {tx u : TxId} {ref : TableRef} {p : RecordId} {values : List Value}

/-- The values are at their place. They are there on disk as well, unless the transaction that has
stored them has the page dirty. -/
structure Houses (tx : TxId) (ref : TableRef) (p : RecordId) (values : List Value) (s : Store) :
    Prop where
  known : s.catalog.ref p.page.table = .ok ref
  shows : (s.catalog.table ref).valuesAt p.page (s.total p.page) p.slot = some values
  lasts : s.owner p.page = some tx ∨
    (s.catalog.table ref).valuesAt p.page (s.lasting p.page) p.slot = some values

theorem Houses.stored (h : s.Houses tx ref p values) : s.stored p = some values :=
  (stored_of_ref h.known).trans h.shows

/-- If tables have files of their own then all pages read the same as long as nobody changes them. -/
theorem Coherent.firm {id : PageId} (h : s.Coherent) (has : s.catalog.Has id) :
    s.Firm id (s.content id) := by
  have loads : s.loadable id = .ok (s.saved id) := by
    rw [h.loadable_eq, Catalog.missing?_eq_none_iff.mpr has]
  unfold content
  refine ⟨?_, fun page cached idle => ?_⟩
  · unfold Reads
    cases s.pool.image? id with
    | some page => rfl
    | none => exact loads
  · have clean : page.dirtiedBy = none :=
      Option.not_isSome_iff_eq_none.mp (by simpa [Page.isDirty] using idle)
    rw [cached, loads, ← h.clean id page cached clean]

theorem Houses.lodges (h : s.Houses tx ref p values) (coherent : s.Coherent)
    (short : p.slot < UInt16.size) : s.Lodges ref p ⟨(s.catalog.table ref).schema, values, some p⟩ := by
  have inside : p.page.number < (s.catalog.table ref).pages := by
    refine Nat.lt_of_not_le fun beyond => ?_
    have nothing := stored_of_lacks h.known beyond
    rw [h.stored] at nothing
    cases nothing
  have shows := h.shows
  rw [total_of_has ⟨ref, h.known, inside⟩] at shows
  refine ⟨h.known, inside, _, coherent.firm ⟨ref, h.known, inside⟩, ?_⟩
  rw [Table.row?_eq, shows, Option.map_some, RecordId.ofSlot, Nat.mod_eq_of_lt short]

theorem houses_of_clean (coherent : s.Coherent) (known : s.catalog.ref p.page.table = .ok ref)
    (stored : s.stored p = some values) (clean : s.owner p.page = none) : s.Houses tx ref p values := by
  have shows := (stored_of_ref known).symm.trans stored
  exact ⟨known, shows, Or.inr (coherent.total_of_clean clean ▸ shows)⟩

theorem Houses.congr (h : s.Houses tx ref p values) (known : s'.catalog.ref p.page.table = .ok ref)
    (table : s'.catalog.table ref = { s.catalog.table ref with length := (s'.catalog.table ref).length })
    (total : s'.total p.page = s.total p.page) (owner : s'.owner p.page = s.owner p.page)
    (lasting : s'.lasting p.page = s.lasting p.page) : s'.Houses tx ref p values := by
  refine ⟨known, ?_, ?_⟩
  · rw [table, total]
    exact h.shows
  · rw [table, lasting, owner]
    exact h.lasts

theorem Upkeep.houses (h : s.Upkeep u s') (coherent : s.Coherent) (houses : s.Houses tx ref p values) :
    s'.Houses tx ref p values :=
  houses.congr ((h.catalog.ref _).trans houses.known) (h.catalog.table ref) (h.total coherent _)
    (h.owner _) (h.lasting _)

/-- The page may be the one that gets new bytes, if the values are still there then. -/
theorem Rewritten.houses {id : PageId} {bytes : Bytes} (h : s.Rewritten u id bytes s')
    (houses : s.Houses tx ref p values) (stored : s'.stored p = some values)
    (mine : s.owner id = some tx → u = tx) : s'.Houses tx ref p values := by
  have catalog : s'.catalog = s.catalog := by rw [h.rest]
  have known : s'.catalog.ref p.page.table = .ok ref := catalog ▸ houses.known
  by_cases here : p.page = id
  · subst here
    rcases h.kept with ⟨owner, saved⟩ | ⟨clean, -⟩
    · refine ⟨known, (stored_of_ref known).symm.trans stored, ?_⟩
      rcases houses.lasts with owned | lasts
      · exact Or.inl (mine owned ▸ owner)
      · rw [catalog, lasting_of_same catalog saved]
        exact Or.inr lasts
    · exact houses_of_clean h.coherent known stored clean
  · obtain ⟨owner, saved⟩ := h.others _ here
    exact houses.congr known (by rw [catalog]) (by rw [h.total, if_neg here]) owner
      (lasting_of_same catalog saved)

/-- The transaction that has the page dirty ends. -/
theorem Completed.houses {b : PageId → Bytes} (h : s.Completed u b s') (coherent : s.Coherent)
    (houses : s.Houses tx ref p values)
    (holds : s'.total p.page = s.total p.page ∨ b = s.saved ∧ u ≠ tx) : s'.Houses tx ref p values := by
  have catalog : s'.catalog = s.catalog := by rw [h.rest]
  have known : s'.catalog.ref p.page.table = .ok ref := catalog ▸ houses.known
  by_cases owned : s.owner p.page = some u
  · obtain ⟨clean, content, -⟩ := h.landed _ owned
    refine houses_of_clean h.coherent known ?_ clean
    rw [stored_of_ref known, catalog]
    rcases holds with same | ⟨rfl, other⟩
    · rw [same, houses.shows]
    · have has := coherent.has_of_owner owned
      rw [total_of_has (catalog ▸ has), content, ← lasting_of_has has]
      refine houses.lasts.resolve_left fun mine => other ?_
      exact Option.some.inj (owned.symm.trans mine)
  · obtain ⟨owner, content, saved⟩ := h.others _ owned
    exact houses.congr known (by rw [catalog]) (total_of_same catalog content) owner
      (lasting_of_same catalog saved)

theorem Landed.houses {q : PageId → Prop} {b : PageId → Bytes} (h : Landed q b s s')
    (houses : s.Houses tx ref p values) (holds : q p.page → b p.page = s.content p.page) :
    s'.Houses tx ref p values := by
  have catalog : s'.catalog = s.catalog := by rw [h.rest]
  have known : s'.catalog.ref p.page.table = .ok ref := catalog ▸ houses.known
  have total := h.total holds
  by_cases taken : q p.page
  · refine houses_of_clean h.coherent known ?_ (h.landed _ taken).1
    rw [stored_congr (catalog ▸ .refl _) total, houses.stored]
  · obtain ⟨owner, -, saved⟩ := h.others _ taken
    exact houses.congr known (by rw [catalog]) total owner (lasting_of_same catalog saved)

theorem Opened.houses (h : s.Opened s') (coherent : s.Coherent) (distinct : s'.catalog.Distinct)
    (houses : s.Houses tx ref p values) : s'.Houses tx ref p values := by
  obtain ⟨known, table⟩ := h.kept distinct _ _ houses.known
  have pool : s'.pool = s.pool := by rw [h.rest]
  refine houses.congr known (by rw [table]) (h.total coherent distinct houses.known) ?_
    (h.lasting coherent distinct houses.known)
  rw [owner, owner, pool]

end Store

namespace Session
open Store

variable {M P S : Session} {es past : List Event} {e : Event} {reply : Reply} {s : Store}
  {tx u : TxId} {settings : Settings} {disk : Disk} {ref : TableRef} {i : TableId} {row : Row}
  {record p : RecordId} {values : List Value} {id : PageId}

/-- A change of a page leaves a row on it, unless it is this one that is removed. -/
theorem stored_of_change (h : S.store.Coherent) (told : S.outcome? e = some (reply, s))
    (change : changeOf (e, reply) = some (u, id)) (spares : takes tx p (e, reply) = false)
    (typed : ∀ u i row, e = .op u (.insert i row) → row.Typed)
    (stored : S.store.stored p = some values) : s.stored p = some values := by
  unfold changeOf at change
  split at change
  · rename_i u i row record same
    cases same
    obtain ⟨ref, known, -, -, law, -⟩ := place_of_insert h told (typed _ _ _ rfl)
    obtain ⟨-, key⟩ := h.guarded.keyed _ _ known
    rw [← key] at known
    have free := stored_vacant known
    rw [law, if_neg, stored]
    rintro rfl
    rw [stored] at free
    cases free
  · rename_i u record a same
    cases same
    obtain ⟨-, law, -⟩ := stored_of_delete h told
    rw [law, if_neg, stored]
    rintro rfl
    simp [takes] at spares
  · cases change

theorem Steady.houses (h : Steady settings S) (told : S.outcome? e = some (reply, s))
    (spares : takes tx p (e, reply) = false) (typed : ∀ u i row, e = .op u (.insert i row) → row.Typed)
    (distinct : s.catalog.Distinct) (houses : S.store.Houses tx ref p values) :
    s.Houses tx ref p values := by
  cases h.impact told with
  | begun first store =>
    subst store
    exact houses.congr houses.known rfl rfl rfl rfl
  | looked u o own upkeep idle => exact upkeep.houses h.coherent houses
  | changed u o id bytes t own running alters upkeep rewritten change =>
    have stored := stored_of_change h.coherent told change spares typed houses.stored
    refine rewritten.houses (upkeep.houses h.coherent houses) stored fun owned => ?_
    rw [upkeep.owner] at owned
    exact (alters.alone (h.guarded.owned _ _ owned)).symm
  | completed u b ends holds completed =>
    refine completed.houses h.coherent houses ?_
    cases e with
    | commit v =>
      cases ends
      exact Or.inl (congrFun (total_of_commit h.coherent told).2 _)
    | abort v | drop v =>
      cases ends
      have undone := holds.resolve_left fun never => by cases never.1
      exact Or.inr ⟨undone.1, by simpa [takes] using spares⟩
    | begin | op _ _ | flushPage _ | flushAll | discard _ | addTable _ => cases ends
  | landed q b flushes landed holds =>
    refine landed.houses houses (holds _ ?_)
    rintro rfl
    simp [takes] at spares
  | opened new adds opened => exact opened.houses h.coherent distinct houses

/-- A row that is stored is where the next row of its table goes. -/
theorem Steady.houses_of_insert (h : Steady settings S)
    (told : S.outcome? (.op tx (.insert i row)) = some (.ok (.stored record), s)) (typed : row.Typed) :
    ∃ ref, S.store.catalog.ref i = .ok ref ∧
      record = .ofSlot (S.store.vacant ref).page (S.store.vacant ref).slot ∧
      s.Houses tx ref (S.store.vacant ref) row.values := by
  obtain ⟨ref, known, names, -, law, -⟩ := place_of_insert h.coherent told typed
  obtain ⟨-, t, bytes, upkeep, rewritten⟩ := (h.impact told).of_change rfl
  obtain ⟨-, key⟩ := h.guarded.keyed _ _ known
  have page : record.page = (S.store.vacant ref).page := by rw [names]; rfl
  have known' : s.catalog.ref (S.store.vacant ref).page.table = .ok ref := by
    have catalog : s.catalog = t.catalog := by rw [rewritten.rest]
    rw [catalog, upkeep.catalog.ref, vacant_table, key, known]
  have stored : s.stored (S.store.vacant ref) = some row.values := by rw [law, if_pos rfl]
  refine ⟨ref, known, names, ?_⟩
  rcases rewritten.kept with ⟨owner, -⟩ | ⟨clean, -⟩
  · exact ⟨known', (stored_of_ref known').symm.trans stored, Or.inl (page ▸ owner)⟩
  · exact houses_of_clean rewritten.coherent known' stored (page ▸ clean)

theorem Orderly.houses_run (h : Orderly settings M) (ran : M.run es = some S)
    (distinct : S.store.catalog.Distinct) (spares : ∀ step ∈ M.trace es, takes tx p step.2 = false)
    (typed : ∀ u i row, .op u (.insert i row) ∈ es → row.Typed)
    (houses : M.store.Houses tx ref p values) : S.store.Houses tx ref p values := by
  revert spares typed houses
  refine h.run_induction ran distinct ?_ ?_
  · exact fun _ _ _ houses => houses
  · intro M e es reply s h told orderly _ ih spares typed houses
    rw [trace_cons told, List.forall_mem_cons] at spares
    refine ih spares.2 (fun u i row later => typed u i row (List.mem_cons_of_mem _ later)) ?_
    exact h.toSteady.houses told spares.1
      (fun u i row same => typed u i row (same ▸ List.mem_cons_self ..)) orderly.distinct houses

/-! Removing the row -/

theorem patient_of_insert (h : S.store.Coherent)
    (told : S.outcome? (.op tx (.insert i row)) = some (.ok (.stored record), s)) :
    S.store.settings.hasDeadline = true := by
  obtain ⟨c, y, -, plain, taken⟩ := op_taken h told
  cases plain
  generalize same : Except.ok (Answer.stored record) = reply at taken
  cases taken with
  | stuck f s iterates => cases iterates
  | refused f s ended upkeep => cases same
  | answered out t s ended upkeep applied =>
    obtain ⟨ref, place, known, -, slots, placed, -⟩ := Plain.insertRow_ok ended
    obtain ⟨n, -, -, room, -⟩ := Plain.insertAnywhere_first h.guarded.keyed known
      (Table.pageSize_pos_of_slots slots) placed
    exact room.patient

/-- Whoever holds the page exclusively can remove a row that is stored there. -/
theorem delete_answers (h : S.store.Coherent) (running : S.running tx = true)
    (patient : S.store.settings.hasDeadline = true) (held : S.store.locks.Held tx p.page .exclusive)
    (known : S.store.catalog.ref p.page.table = .ok ref) (stored : (S.store.stored p).isSome = true) :
    ∃ s, S.outcome? (.op tx (.delete (some p))) = some (.ok .done, s) := by
  obtain ⟨c, client, -⟩ := running_iff.mp running
  obtain ⟨-, key⟩ := h.guarded.keyed _ _ known
  have whole := h.size_total known
  have has : S.store.catalog.Has p.page := by
    refine (Catalog.has_iff known).mpr (Nat.lt_of_not_le fun beyond => ?_)
    simp [stored_of_lacks known beyond] at stored
  rw [stored_of_ref known] at stored
  obtain ⟨below, used⟩ := (Table.valuesAt_isSome whole _ _).mp stored
  obtain ⟨bytes, gone⟩ :=
    Layout.remove?_of_used (l := (S.store.catalog.table ref).layout) whole below used
  rw [total_of_has has] at gone
  have granted : S.store.locks.acquire? p.page tx .exclusive = some S.store.locks := if_pos held
  have got : Plain.getPage tx p.page .exclusive S.store.view =
      .ok (S.store.content p.page) S.store.view :=
    Plain.getPage_eq_ok_iff.mpr ⟨Plain.lock_of_granted patient granted, has, rfl⟩
  have ended := Plain.deleteRow_eq_ok_iff.mpr ⟨ref, bytes, known, key.symm, got, gone, rfl⟩
  obtain ⟨t, s, told, -⟩ :=
    op_answers (o := .delete (some p)) h (fun never => by cases never) running client rfl ended
  exact ⟨s, told⟩

end Session
end HeapStore
