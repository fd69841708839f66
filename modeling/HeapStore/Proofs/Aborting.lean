import HeapStore.Proofs.Sizing

/-! Aborts. Whatever has become of the files, an abort handles each page that its transaction has changed:
it is as on disk afterwards, or not cached any more if it can not be read. -/
namespace HeapStore

namespace Pool

variable {p : Pool} {n : Nat} {r k : PageRef}

theorem Sound.nodup_residents (h : p.Sound) : p.residents.Nodup := by
  refine List.pairwise_filterMap.mpr (List.pairwise_iff_getElem.mpr fun i j hi hj lt r here k there same => ?_)
  have frame : ∀ f (valid : f < p.frames.toList.length) r, p.frames.toList[f] = some r →
      p.inFrame? f = some r := by
    intro f valid r here
    rw [Array.getElem_toList] at here
    rw [inFrame?, Array.getD_eq_getD_getElem?, Array.getElem?_eq_getElem (by simpa using valid), here]
    rfl
  subst same
  exact absurd (h.frame_unique (frame i hi r here) (frame j hj r there) rfl) (Nat.ne_of_lt lt)

/-- What is found first is found at the first place where there is any. -/
theorem findSome?_eq_some_iff_first {α β : Type} {g : α → Option β} {b : β} {xs : List α} :
    xs.findSome? g = some b ↔
      ∃ n : Nat, xs[n]?.bind g = some b ∧ ∀ m < n, xs[m]?.bind g = none := by
  rw [List.findSome?_eq_some_iff]
  constructor
  · rintro ⟨before, x, after, rfl, found, none⟩
    refine ⟨before.length, ?_, fun m lt => ?_⟩
    · rw [List.getElem?_append_right (Nat.le_refl _), Nat.sub_self]
      exact found
    · rw [List.getElem?_append_left lt, List.getElem?_eq_getElem lt]
      exact none _ (List.getElem_mem lt)
  · rintro ⟨n, found, none⟩
    obtain ⟨x, there, found⟩ := Option.bind_eq_some_iff.mp found
    obtain ⟨lt, rfl⟩ := List.getElem?_eq_some_iff.mp there
    refine ⟨xs.take n, xs[n], xs.drop (n + 1), ?_, found, fun y listed => ?_⟩
    · rw [← List.drop_eq_getElem_cons lt, List.take_append_drop]
    · obtain ⟨m, below, rfl⟩ := List.mem_iff_getElem.mp listed
      rw [List.length_take] at below
      have past := none m (by omega)
      rwa [List.getElem?_eq_getElem (by omega), ← List.getElem_take] at past

theorem findSome?_dirtiedBy {β : Type} (p : Pool) (tx : TxId) (g : PageId → Option β) :
    ((p.dirtiedBy tx).findSome? fun r => g (p.page r).id) = p.frames.toList.findSome? fun o =>
      (o.bind fun r => if (p.page r).dirtiedBy = some tx then some (p.page r).id else none).bind g := by
  unfold dirtiedBy residents
  -- frames that are empty, or hold what others have changed, are passed over by both
  induction p.frames.toList with
  | nil => rfl
  | cons o os ih =>
    cases o with
    | none => simpa using ih
    | some r =>
      by_cases mine : (p.page r).dirtiedBy = some tx
      · simp only [List.filterMap_cons, id, List.filter_cons, mine, decide_true, if_true,
          List.findSome?_cons, Option.bind_some]
        cases g (p.page r).id with
        | some b => rfl
        | none => exact ih
      · simpa [mine] using ih

/-- The page in a frame, if it was changed by this transaction. -/
def changedIn? (p : Pool) (tx : TxId) (n : Nat) : Option PageId :=
  (p.inFrame? n).bind fun r => if (p.page r).dirtiedBy = some tx then some (p.page r).id else none

/-- The pages that a transaction has changed come in the order of their frames. -/
theorem findSome?_dirtiedBy_eq_some_iff {β : Type} {p : Pool} {tx : TxId} {g : PageId → Option β} {b : β} :
    ((p.dirtiedBy tx).findSome? fun r => g (p.page r).id) = some b ↔
      ∃ n id, p.changedIn? tx n = some id ∧ g id = some b ∧
        ∀ m < n, ∀ id', p.changedIn? tx m = some id' → g id' = none := by
  have place : ∀ n, (p.frames.toList[n]?.bind fun o => (o.bind fun r =>
      if (p.page r).dirtiedBy = some tx then some (p.page r).id else none).bind g) =
        (p.changedIn? tx n).bind g := by
    intro n
    rw [changedIn?, inFrame?, Array.getD_eq_getD_getElem?, Array.getElem?_toList]
    cases p.frames[n]? <;> rfl
  rw [findSome?_dirtiedBy, findSome?_eq_some_iff_first]
  simp only [place, Option.bind_eq_some_iff, Option.bind_eq_none_iff]
  refine exists_congr fun n => ?_
  constructor
  · rintro ⟨⟨id, there, found⟩, before⟩
    exact ⟨id, there, found, before⟩
  · rintro ⟨id, there, found, before⟩
    exact ⟨⟨id, there, found⟩, before⟩

end Pool

/-- There is but one reason why a page can not be read. -/
theorem Table.eq_noSuchPage {t : Table} {d : Disk} {id : PageId} {e : Stop} (sized : 0 < t.pageSize)
    (failed : t.read d id = .error e) : e = .ofCause (.noSuchPage id) := by
  rw [read, pageCount?, if_neg (Nat.ne_of_gt sized)] at failed
  split at failed
  · exact (Except.error.inj failed).symm
  · dsimp only at failed
    split at failed
    · exact (Except.error.inj failed).symm
    · split at failed
      · cases failed
      · exact (Except.error.inj failed).symm

namespace Store
open HeapStore.Action

variable {s t : Store} {id : PageId} {tx : TxId} {r : PageRef} {rs : List PageRef} {f : Failure}

/-- The failure to take a page back to what is on disk. -/
def lost? (s : Store) (id : PageId) : Option Failure :=
  match s.onDisk id with
  | .error (.failed f) => some (f.within (.restoring id))
  | _ => none

/-- What is cached of a page that was taken back to what is on disk. -/
def restored? (s : Store) (id : PageId) : Option Page :=
  match s.onDisk id with
  | .ok bytes => some ⟨id, bytes, none⟩
  | .error _ => none

theorem lost?_eq_some_iff : s.lost? id = some f ↔
    ∃ g, readPage id s = .error (.failed g) s ∧ f = g.within (.restoring id) := by
  simp only [lost?, readPage_eq_error_iff]
  cases s.onDisk id with
  | ok bytes => simp
  | error e => cases e <;> simp [eq_comm]

/-- A page of a known table is read in full length or is missing. -/
theorem onDisk_of_fits {p : Page} (fits : s.catalog.Fits p) :
    (∃ bytes, s.onDisk p.id = .ok bytes ∧ bytes.size = p.bytes.size) ∨
      s.onDisk p.id = .error (.ofCause (.noSuchPage p.id)) := by
  obtain ⟨ref, known, size, sized⟩ := fits
  have same : s.onDisk p.id = (s.catalog.table ref).read s.disk p.id := by
    simp only [onDisk, Catalog.byId, known, Except.map]
  rw [same]
  cases read : (s.catalog.table ref).read s.disk p.id with
  | ok bytes => exact Or.inl ⟨bytes, rfl, (Table.size_of_read read).trans size.symm⟩
  | error e => exact Or.inr (congrArg Except.error (Table.eq_noSuchPage sized read))

/-- The pages of these images were taken back or have left the pool, and that is all. -/
structure Restored (ids : PageId → Prop) (s t : Store) : Prop where
  rest : t = { s with pool := t.pool }
  shaped : t.Shaped
  image? : ∀ id, (ids id → t.pool.image? id = s.restored? id) ∧
    (¬ids id → t.pool.image? id = s.pool.image? id)

theorem restorePage_restores (h : s.Shaped) (there : s.pool.resident? (s.pool.page r).id = some r) :
    (restorePage r).Ends s fun answer t => answer = .ok (s.lost? (s.pool.page r).id) ∧
      Restored (· = (s.pool.page r).id) s t ∧ (∀ k, (t.pool.page k).id = (s.pool.page k).id) ∧
      ∀ other ≠ (s.pool.page r).id, t.pool.resident? other = s.pool.resident? other := by
  have shapes := restorePage_reshapes h r
  rw [ends_restorePage] at shapes ⊢
  obtain ⟨bytes, found, size⟩ | missing := onDisk_of_fits (h.fits_of_resident? there)
  · simp only [found, inside, if_pos size] at shapes ⊢
    refine ⟨by rw [lost?, found], ⟨rfl, shapes.shaped, fun id => ⟨?_, fun other => ?_⟩⟩, fun k => ?_,
      fun other _ => ?_⟩
    · rintro rfl
      rw [h.sound.image?_update, if_pos there, restored?, found]
    · rw [h.sound.image?_update, if_neg fun here => other (h.sound.id_of_resident? here).symm]
    · rw [Pool.page_update]
      split
      · rename_i here
        rw [here.1]
      · rfl
    · rw [Pool.resident?_update]
  · simp only [missing, inside] at shapes ⊢
    refine ⟨by rw [lost?, missing]; rfl, ⟨rfl, shapes.shaped, fun id => ⟨?_, fun other => ?_⟩⟩, fun k => ?_,
      fun other apart => ?_⟩
    · rintro rfl
      rw [h.sound.image?_remove, if_pos rfl, restored?, missing]
    · rw [h.sound.image?_remove, if_neg other]
    · rw [Pool.page_remove]
    · rw [h.sound.resident?_remove, if_neg apart]

/-- No page is left out because another one could not be read. -/
theorem restorePages_restores (h : s.Shaped) (there : ∀ r ∈ rs, s.pool.resident? (s.pool.page r).id = some r)
    (once : rs.Nodup) : (restorePages rs).Ends s fun answer t =>
      answer = .ok (rs.findSome? fun r => s.lost? (s.pool.page r).id) ∧
        Restored (fun id => ∃ r ∈ rs, (s.pool.page r).id = id) s t := by
  induction rs generalizing s with
  | nil => exact ⟨rfl, rfl, h, fun id => ⟨by simp, fun _ => rfl⟩⟩
  | cons r rs ih =>
    obtain ⟨new, once⟩ := List.nodup_cons.mp once
    have here := there r List.mem_cons_self
    -- the later images are of other pages, so they are still there when it is their turn
    have apart : ∀ k ∈ rs, (s.pool.page k).id ≠ (s.pool.page r).id := by
      intro k later same
      have both := there k (List.mem_cons_of_mem r later)
      rw [same, here] at both
      exact new (Option.some.inj both ▸ later)
    unfold restorePages
    rw [ends_bind]
    refine (restorePage_restores h here).mono ?_
    rintro answer u ⟨rfl, first, page, resident⟩
    have disk : ∀ id, u.onDisk id = s.onDisk id := fun id => by rw [first.rest]; rfl
    have lost : u.lost? = s.lost? := funext fun id => by rw [lost?, lost?, disk]
    have restored : u.restored? = s.restored? := funext fun id => by rw [restored?, restored?, disk]
    rw [andThen, ends_bind]
    refine (ih first.shaped (fun k later => ?_) once).mono ?_
    · rw [page, resident _ (apart k later)]
      exact there k (List.mem_cons_of_mem r later)
    · rintro answer t ⟨rfl, later⟩
      simp only [lost, page] at later ⊢
      refine ⟨?_, by rw [later.rest, first.rest], later.shaped, fun id => ⟨?_, fun none => ?_⟩⟩
      · rw [List.findSome?_cons]
        cases s.lost? (s.pool.page r).id <;> rfl
      · rintro ⟨k, listed, rfl⟩
        rcases List.mem_cons.mp listed with rfl | listed
        · have unlisted : ¬∃ j ∈ rs, (s.pool.page j).id = (s.pool.page k).id := by
            rintro ⟨j, later, same⟩
            exact apart j later same
          rw [(later.image? _).2 unlisted, (first.image? _).1 rfl]
        · rw [(later.image? _).1 ⟨k, listed, rfl⟩, restored]
      · have unlisted : ¬∃ k ∈ rs, (s.pool.page k).id = id := by
          rintro ⟨k, listed, same⟩
          exact none ⟨k, List.mem_cons_of_mem r listed, same⟩
        have other : id ≠ (s.pool.page r).id := fun same => none ⟨r, List.mem_cons_self, same.symm⟩
        rw [(later.image? id).2 unlisted, (first.image? id).2 other]

/-- An abort is over. A page of the transaction that can be read is as on disk, and another one is gone. -/
structure Aborted (tx : TxId) (s t : Store) : Prop where
  rest : t = { s with pool := t.pool, locks := t.locks }
  sound : t.pool.Sound
  clean : ∀ id, t.owner id ≠ some tx
  restored : ∀ id bytes, s.owner id = some tx → readPage id s = .ok bytes s →
    t.pool.image? id = some ⟨id, bytes, none⟩
  dropped : ∀ id e, s.owner id = some tx → readPage id s = .error e s → t.pool.image? id = none
  others : ∀ id, s.owner id ≠ some tx → t.pool.image? id = s.pool.image? id
  locks : ∀ u id mode, t.locks.Held u id mode ↔ s.locks.Held u id mode ∧ u ≠ tx

theorem Restored.aborted (h : Restored (s.owner · = some tx) s t) :
    s.Aborted tx { t with locks := t.locks.releaseAll tx } := by
  have locks : t.locks = s.locks := by rw [h.rest]
  refine ⟨by rw [h.rest], h.shaped.sound, fun id mine => ?_, fun id bytes mine read => ?_,
    fun id e mine read => ?_, fun id other => (h.image? id).2 other, fun u id mode => ?_⟩
  · rw [owner] at mine
    dsimp only at mine
    by_cases before : s.owner id = some tx
    · rw [(h.image? id).1 before, restored?] at mine
      split at mine <;> cases mine
    · rw [(h.image? id).2 before] at mine
      exact before mine
  · rw [(h.image? id).1 mine, restored?, readPage_eq_ok_iff.mp read]
  · rw [(h.image? id).1 mine, restored?, readPage_eq_error_iff.mp read]
  · dsimp only
    rw [Locks.held_releaseAll, locks]

theorem page_dirtiedBy_iff_owner (h : s.pool.Sound) :
    (∃ r ∈ s.pool.dirtiedBy tx, (s.pool.page r).id = id) ↔ s.owner id = some tx := by
  rw [← dirtiedBy_iff_owner h]
  refine exists_congr fun r => and_congr_right fun listed => ?_
  constructor
  · rintro rfl
    exact resident?_of_dirtiedBy h listed
  · exact h.id_of_resident?

theorem owner_of_changedIn? {n : Nat} (h : s.pool.Sound) (there : s.pool.changedIn? tx n = some id) :
    s.owner id = some tx := by
  obtain ⟨r, here, found⟩ := Option.bind_eq_some_iff.mp there
  obtain ⟨mine, same⟩ := Option.ite_none_right_eq_some.mp found
  exact (page_dirtiedBy_iff_owner h).mp ⟨r, mem_dirtiedBy_iff.mpr ⟨⟨n, here⟩, mine⟩, Option.some.inj same⟩

/-- The pages of a transaction are handled, all of them, and then its locks are released. -/
theorem abort_aborts (h : s.Shaped) (tx : TxId) :
    ∃ answer t, (complete tx false).told? s = some (answer, t) ∧ s.Aborted tx t ∧
      (answer = .ok () ↔ (s.pool.dirtiedBy tx).findSome? (fun r => s.lost? (s.pool.page r).id) = none) ∧
      ∀ f, answer = .error f ↔
        (s.pool.dirtiedBy tx).findSome? (fun r => s.lost? (s.pool.page r).id) = some f := by
  have ids : (fun id => ∃ r ∈ s.pool.dirtiedBy tx, (s.pool.page r).id = id) = (s.owner · = some tx) :=
    funext fun id => propext (page_dirtiedBy_iff_owner h.sound)
  have resident : ∀ r ∈ s.pool.dirtiedBy tx, s.pool.resident? (s.pool.page r).id = some r := fun r listed =>
    resident?_of_dirtiedBy h.sound listed
  have restores := restorePages_restores h resident (h.sound.nodup_residents.filter _)
  rw [ids] at restores
  generalize (s.pool.dirtiedBy tx).findSome? (fun r => s.lost? (s.pool.page r).id) = lost at restores ⊢
  have ends : (complete tx false).Ends s fun answer t =>
      answer = (lost.elim (.ok ()) .error : Except Failure Unit).mapError .failed ∧ s.Aborted tx t := by
    unfold complete restoreDirtiedBy
    rw [if_neg Bool.false_ne_true, ends_bind, ends_attempt, ends_bind, ends_get, andThen, ends_bind]
    refine restores.mono ?_
    rintro answer t ⟨rfl, restored⟩
    rw [andThen]
    cases lost with
    | none => exact ⟨rfl, restored.aborted⟩
    | some f => exact ⟨rfl, restored.aborted⟩
  obtain ⟨t, told, aborted⟩ := ends.exists_told
  exact ⟨_, t, told, aborted, by cases lost <;> simp, fun f => by cases lost <;> simp⟩

theorem lost?_eq_none_iff (h : s.Shaped) (mine : s.owner id = some tx) :
    s.lost? id = none ↔ ∃ bytes, readPage id s = .ok bytes s := by
  obtain ⟨p, cached, -⟩ := Option.bind_eq_some_iff.mp mine
  obtain ⟨r, there, rfl⟩ := Pool.image?_eq_some_iff.mp cached
  have fits := onDisk_of_fits (h.fits_of_resident? there)
  rw [h.sound.id_of_resident? there] at fits
  simp only [readPage_eq_ok_iff, lost?]
  obtain ⟨bytes, found, -⟩ | missing := fits
  · simp [found]
  · simp [missing, Stop.ofCause]

/-- An abort after any turns, such as others cutting a file short, comes to its end. It fails if one of the
pages can not be read, and tells why the first of them, by their frames, can not be. -/
theorem abort_finishes {settings : Settings} {disk : Disk} {turns : List Turn}
    (ran : (Store.new settings disk).take turns = some s) (tx : TxId) :
    ∃ answer t, (complete tx false).told? s = some (answer, t) ∧ s.Aborted tx t ∧
      (answer = .ok () ↔ ∀ id, s.owner id = some tx → ∃ bytes, readPage id s = .ok bytes s) ∧
      ∀ f, answer = .error f ↔ ∃ n id g, s.pool.changedIn? tx n = some id ∧
        readPage id s = .error (.failed g) s ∧ f = g.within (.restoring id) ∧
        ∀ m < n, ∀ id', s.pool.changedIn? tx m = some id' → ∃ bytes, readPage id' s = .ok bytes s := by
  have h := take_shaped (shaped_new settings disk) ran
  obtain ⟨answer, t, told, aborted, done, failed⟩ := abort_aborts h tx
  refine ⟨answer, t, told, aborted, ?_, fun f => ?_⟩
  · rw [done, List.findSome?_eq_none_iff]
    constructor
    · intro found id mine
      obtain ⟨r, listed, rfl⟩ := (page_dirtiedBy_iff_owner h.sound).mpr mine
      exact (lost?_eq_none_iff h mine).mp (found r listed)
    · intro found r listed
      have mine := (page_dirtiedBy_iff_owner h.sound).mp ⟨r, listed, rfl⟩
      exact (lost?_eq_none_iff h mine).mpr (found _ mine)
  · rw [failed, Pool.findSome?_dirtiedBy_eq_some_iff]
    refine exists_congr fun n => exists_congr fun id => ?_
    rw [lost?_eq_some_iff]
    constructor
    · rintro ⟨there, ⟨g, read, same⟩, before⟩
      exact ⟨g, there, read, same, fun m lt id' there' =>
        (lost?_eq_none_iff h (owner_of_changedIn? h.sound there')).mp (before m lt id' there')⟩
    · rintro ⟨g, there, read, same, before⟩
      exact ⟨there, ⟨g, read, same⟩, fun m lt id' there' =>
        (lost?_eq_none_iff h (owner_of_changedIn? h.sound there')).mpr (before m lt id' there')⟩

/-- Of three pages two are behind the end of the file by now. -/
theorem abort_finishes_on_shortened_file :
    let schema : Schema := ⟨[⟨.integer, some "n"⟩]⟩
    let put (tx : TxId) (table : TableId) (n : Int32) : Turn :=
      .call (.serve (.insert tx table ⟨schema, [.integer n], none⟩))
    let turns : List Turn := [.call (.serve (.addTable (.create "t.dat" "t" schema "n"))),
      .call (.serve (.addTable (.create "u.dat" "u" schema "n"))), .begin, .begin, put 2 2 5, put 1 1 6,
      put 1 1 7, put 1 1 8, put 1 1 9, put 1 1 10, put 1 1 11, put 1 1 12,
      .files fun d => (d.setLength "t.dat" 20).toOption.getD d]
    ∃ s t, (Store.new { pageSize := 16, poolPages := 4 }).take turns = some s ∧
      (complete 1 false).told? s =
        some (.error ((Failure.ofCause (.noSuchPage ⟨1, 1⟩)).within (.restoring ⟨1, 1⟩)), t) ∧
      s.Aborted 1 t ∧ t.pool.image? ⟨1, 0⟩ = some ⟨⟨1, 0⟩, .replicate 16 0, none⟩ ∧
      t.pool.image? ⟨1, 1⟩ = none ∧ t.pool.image? ⟨1, 2⟩ = none ∧ t.owner ⟨2, 0⟩ = some 2 := by
  intro schema put turns
  have facts : ((Store.new { pageSize := 16, poolPages := 4 }).take turns).any (fun s =>
      ((complete 1 false).told? s).any (fun told =>
        told.1 = .error ((Failure.ofCause (.noSuchPage ⟨1, 1⟩)).within (.restoring ⟨1, 1⟩)) ∧
        told.2.pool.image? ⟨1, 0⟩ = some ⟨⟨1, 0⟩, .replicate 16 0, none⟩ ∧
        told.2.pool.image? ⟨1, 1⟩ = none ∧ told.2.pool.image? ⟨1, 2⟩ = none ∧
        told.2.owner ⟨2, 0⟩ = some 2) = true) = true := by decide +kernel
  obtain ⟨s, ran, facts⟩ := exists_of_any facts
  obtain ⟨⟨_, t⟩, told, rfl, kept, lost, gone, other⟩ := exists_of_any facts
  obtain ⟨answer, t', told', aborted, -⟩ := abort_finishes ran 1
  rw [told] at told'
  cases told'
  exact ⟨s, t, ran, told, aborted, kept, lost, gone, other⟩

end Store
end HeapStore
