import HeapStore.Proofs.Calling

/-! Images and tables. Each image is one of a page of a table that is known, and is as long as the pages of
that table. Locks and files have no part in that, so it stays so whoever holds what and whatever happens to
the files, as long as no table takes over the id of another. -/
namespace HeapStore

namespace Catalog

variable {c c' : Catalog} {p : Page}

/-- No two tables share an id. -/
def Once (c : Catalog) : Prop :=
  ∀ i < c.opened.size, ∀ j < c.opened.size, (c.table i).id = (c.table j).id → i = j

instance (c : Catalog) : Decidable c.Once :=
  inferInstanceAs (Decidable (∀ i < c.opened.size, ∀ j < c.opened.size,
    (c.table i).id = (c.table j).id → i = j))

theorem Extends.once (h : c.Extends c') (once : c'.Once) : c.Once := by
  intro i hi j hj same
  refine once i (Nat.lt_of_lt_of_le hi h.size) j (Nat.lt_of_lt_of_le hj h.size) ?_
  rwa [h.key hi, h.key hj]

/-- The image is one of a page of a known table, and as long as that. -/
def Fits (c : Catalog) (p : Page) : Prop := ∃ ref, c.ref p.id.table = .ok ref ∧
  p.bytes.size = (c.table ref).pageSize ∧ 0 < (c.table ref).pageSize

theorem Fits.extends (fits : c.Fits p) (keyed : c.Keyed) (h : c.Extends c')
    (refs : ∀ id ref, c.ref id = .ok ref → c'.ref id = .ok ref) : c'.Fits p := by
  obtain ⟨ref, known, size⟩ := fits
  refine ⟨ref, refs _ ref known, ?_⟩
  rw [h.table ref (keyed _ ref known).1]
  exact size

/-- Ids lead to the tables that they led to as long as no two tables share one. -/
theorem Once.ref_add {t : Table} {name key : String} (once : (c.add t name key).Once) (keyed : c.Keyed)
    (id : TableId) (ref : TableRef) (known : c.ref id = .ok ref) : (c.add t name key).ref id = .ok ref := by
  obtain ⟨valid, mine⟩ := keyed id ref known
  rw [Catalog.ref_add]
  split
  · rename_i taken
    have last : c.opened.size < (c.add t name key).opened.size := by simp [Catalog.add]
    have same := once ref (Nat.lt_trans valid last) c.opened.size last (by
      rw [table_add, table_add, if_neg (Nat.ne_of_lt valid), if_pos rfl, mine, taken])
    exact absurd same (Nat.ne_of_lt valid)
  · exact known

/-- A page that can be read is as long as it should be. -/
theorem fits_of_read {ref : TableRef} {d : Disk} {bytes : Bytes} (known : c.ref p.id.table = .ok ref)
    (read : (c.table ref).read d p.id = .ok bytes) (size : p.bytes.size = bytes.size) : c.Fits p :=
  ⟨ref, known, size.trans (Table.size_of_read read),
    Table.pageSize_pos_of_lt (Table.read_eq_ok_iff.mp read).2.1⟩

end Catalog

theorem Table.same_of_write {t t' : Table} {d d' : Disk} {p : Page} (done : t.write d p = .ok (t', d')) :
    t' = { t with length := t'.length } := by
  unfold Table.write at done
  split at done
  · cases done
  · cases done
    rfl

namespace Store
open HeapStore.Action

variable {s t u : Store} {id : PageId} {tx : TxId} {r : PageRef} {q : Pool}

structure Shaped (s : Store) : Prop where
  sound : s.pool.Sound
  keyed : s.catalog.Keyed
  fits : ∀ r < s.pool.images.size, s.catalog.Fits (s.pool.page r)

theorem shaped_new (settings : Settings) (disk : Disk) : (Store.new settings disk).Shaped :=
  ⟨Pool.sound_new _, Catalog.keyed_empty, fun _ never => absurd never (Nat.not_lt_zero _)⟩

theorem Shaped.fits_of_resident? (h : s.Shaped) (there : s.pool.resident? id = some r) :
    s.catalog.Fits (s.pool.page r) := h.fits r (h.sound.lt_of_resident? there)

/-- Images were added or changed. -/
structure Reshapes (s t : Store) : Prop where
  shaped : t.Shaped
  images : s.pool.images.size ≤ t.pool.images.size

theorem Reshapes.refl (h : s.Shaped) : s.Reshapes s := ⟨h, Nat.le_refl _⟩

theorem Reshapes.trans (first : s.Reshapes t) (second : t.Reshapes u) : s.Reshapes u :=
  ⟨second.shaped, Nat.le_trans first.images second.images⟩

theorem Shaped.withLocks (h : s.Shaped) (locks : Locks) : s.Reshapes { s with locks } :=
  ⟨⟨h.sound, h.keyed, h.fits⟩, Nat.le_refl _⟩

theorem Shaped.withScans (h : s.Shaped) (scans : Array Scan) : Shaped { s with scans } :=
  ⟨h.sound, h.keyed, h.fits⟩

theorem Shaped.withDisk (h : s.Shaped) (disk : Disk) : s.Reshapes { s with disk } :=
  ⟨⟨h.sound, h.keyed, h.fits⟩, Nat.le_refl _⟩

theorem Shaped.withPool (h : s.Shaped) (sound : q.Sound) (images : q.images = s.pool.images) :
    s.Reshapes { s with pool := q } := by
  have page : ∀ r, q.page r = s.pool.page r := fun r => by rw [Pool.page, Pool.page, images]
  refine ⟨⟨sound, h.keyed, fun r valid => ?_⟩, Nat.le_of_eq (congrArg Array.size images.symm)⟩
  dsimp only at valid ⊢
  rw [images] at valid
  rw [page]
  exact h.fits r valid

theorem Shaped.update (h : s.Shaped) (r : PageRef) {g : Page → Page}
    (same : (g (s.pool.page r)).id = (s.pool.page r).id)
    (size : (g (s.pool.page r)).bytes.size = (s.pool.page r).bytes.size) :
    s.Reshapes { s with pool := s.pool.update r g } := by
  refine ⟨⟨h.sound.update r same, h.keyed, fun k valid => ?_⟩, Nat.le_of_eq (Pool.size_update ..).symm⟩
  dsimp only at valid ⊢
  rw [Pool.size_update] at valid
  rw [Pool.page_update]
  split
  · rename_i here
    obtain ⟨ref, known, long⟩ := h.fits r here.2
    exact ⟨ref, by rw [same, known], by rw [size]; exact long⟩
  · exact h.fits k valid

/-- A table file was written to, which may have made the table longer. -/
theorem Shaped.withFile (h : s.Shaped) (ref : TableRef) {t : Table} (disk : Disk)
    (same : t = { s.catalog.table ref with length := t.length }) :
    s.Reshapes { s with catalog := s.catalog.update ref t, disk } :=
  ⟨⟨h.sound, h.keyed.update ref (by rw [same]), fun r valid =>
    (h.fits r valid).extends h.keyed (Catalog.extends_update ref same) fun _ _ => id⟩, Nat.le_refl _⟩

/-- What an action that looks for an image can come to. -/
def Yields (s : Store) : Except Stop (Option PageRef) → Store → Prop
  | .ok r?, t => s.Reshapes t ∧ ∀ r, r? = some r → r < t.pool.images.size
  | .error e, t => e = .crashed ∨ s.Reshapes t

theorem Yields.after {answer : Except Stop (Option PageRef)} (first : s.Reshapes t)
    (yields : t.Yields answer u) : s.Yields answer u := by
  cases answer with
  | ok r? => exact ⟨first.trans yields.1, yields.2⟩
  | error e => exact Or.imp_right first.trans yields

theorem Yields.reshapes {α : Type} {answer : Except Stop α} {g : α → Option PageRef}
    (yields : s.Yields (answer.map g) t) : answer = .error .crashed ∨ s.Reshapes t := by
  cases answer with
  | ok a => exact Or.inr yields.1
  | error e => exact yields.imp_left (congrArg Except.error)

/-! Pages -/

theorem lock_reshapes (h : s.Shaped) (tx : TxId) (id : PageId) (mode : LockMode) :
    (lock tx id mode).Ends s fun answer t => answer = .error .crashed ∨ s.Reshapes t := by
  rw [ends_lock]
  split
  · split
    · exact Or.inr (h.withLocks _)
    · exact Or.inr (.refl h)
  · exact Or.inl rfl

/-- The page that is loaded is the only new image. -/
theorem Shaped.fits_addImage (h : s.Shaped) (sheds : s.pool.Sheds q) {bytes : Bytes}
    (loaded : s.loadable id = .ok bytes) (r : PageRef)
    (valid : r < (q.addImage ⟨id, bytes, none⟩).2.images.size) :
    s.catalog.Fits ((q.addImage ⟨id, bytes, none⟩).2.page r) := by
  rw [Pool.size_addImage, sheds.images] at valid
  rw [Pool.page_addImage, sheds.images]
  split
  · obtain ⟨ref, known, read⟩ := loadable_eq_ok_iff.mp loaded
    exact Catalog.fits_of_read (p := ⟨id, bytes, none⟩) known read rfl
  · rename_i old
    rw [sheds.page]
    exact h.fits r (Nat.lt_of_le_of_ne (Nat.le_of_lt_succ valid) old)

theorem fetch_yields (h : s.Shaped) (id : PageId) (must : Bool) :
    (fetch id must).Ends s fun answer => s.Yields (answer.map some) := by
  refine (fetch_ends h.sound id must).mono ?_
  intro answer t fetched
  have size : ∀ {q : Pool}, s.pool.Sheds q → ∀ page : Page,
      (q.addImage page).2.images.size = s.pool.images.size + 1 := fun sheds page => by
    rw [Pool.size_addImage, sheds.images]
  cases fetched with
  | hit f cached =>
    refine ⟨h.withPool (h.sound.touch f) rfl, ?_⟩
    rintro r ⟨⟩
    exact h.sound.lt_of_resident? cached
  | exhausted uncached needed full sheds sound => exact Or.inr (h.withPool sound sheds.images)
  | missing uncached sheds sound unreadable => exact Or.inr (h.withPool sound sheds.images)
  | @loaded q f bytes uncached ready read =>
    have fits := ready.fits ⟨id, bytes, none⟩ uncached
    have more := size ready.sheds ⟨id, bytes, none⟩
    refine ⟨⟨⟨(ready.sound.addImage _).install fits, h.keyed, h.fits_addImage ready.sheds read⟩, ?_⟩, ?_⟩
    · exact more ▸ Nat.le_succ _
    · rintro r ⟨⟩
      exact fits.image
  | @outside q bytes uncached optional full sheds sound read =>
    have more := size sheds ⟨id, bytes, none⟩
    refine ⟨⟨⟨sound.addImage _, h.keyed, h.fits_addImage sheds read⟩, more ▸ Nat.le_succ _⟩, ?_⟩
    rintro r ⟨⟩
    exact more ▸ Nat.lt_succ_self _

theorem getPageForUpdate_yields (h : s.Shaped) (tx : TxId) (id : PageId) :
    (getPageForUpdate tx id).Ends s fun answer => s.Yields (answer.map some) := by
  unfold getPageForUpdate
  rw [ends_bind]
  refine (lock_reshapes h tx id .exclusive).mono ?_
  rintro (e | _) t locked
  · exact locked.imp_left fun crashed => by cases crashed; rfl
  · have locked := locked.resolve_left (by simp)
    rw [andThen]
    exact (fetch_yields locked.shaped id false).mono fun _ _ => Yields.after locked

theorem getPage_reshapes (h : s.Shaped) (tx : TxId) (id : PageId) (mode : LockMode) :
    (getPage tx id mode).Ends s fun answer t => answer = .error .crashed ∨ s.Reshapes t := by
  unfold getPage
  rw [ends_bind]
  refine (lock_reshapes h tx id mode).mono ?_
  rintro (e | _) t locked
  · exact locked.imp_left fun crashed => by cases crashed; rfl
  · have locked := locked.resolve_left (by simp)
    rw [andThen, ends_bind]
    refine (fetch_yields locked.shaped id true).mono ?_
    rintro (e | r) u yields
    · exact yields.imp (fun crashed => by cases crashed; rfl) locked.trans
    · exact Or.inr (locked.trans yields.1)

theorem file_of_writable {p : Page} {catalog : Catalog} {disk : Disk}
    (written : s.writable p = .ok (catalog, disk)) : ∃ ref t, catalog = s.catalog.update ref t ∧
      t = { s.catalog.table ref with length := t.length } := by
  unfold writable at written
  split at written
  · cases written
  · rename_i ref _
    split at written
    · rename_i t disk' done
      cases written
      exact ⟨ref, t, rfl, Table.same_of_write done⟩
    · rename_i e _
      cases e <;> cases written

theorem writeTable_reshapes (h : s.Shaped) (ref : TableRef) (p : Page) :
    (writeTable ref p).Ends s fun _ t => s.Reshapes t := by
  unfold writeTable
  rw [ends_bind, ends_get, andThen, ends_bind, ends_ofStop]
  cases done : (s.catalog.table ref).write s.disk p with
  | error e => exact .refl h
  | ok written => exact h.withFile ref written.2 (Table.same_of_write done)

theorem writePage_reshapes (h : s.Shaped) (r : PageRef) :
    (writePage r).Ends s fun _ t => s.Reshapes t := by
  rw [ends_writePage]
  split
  · rename_i catalog disk written
    obtain ⟨ref, t, rfl, same⟩ := file_of_writable written
    have filed := h.withFile ref disk same
    exact filed.trans (filed.shaped.update r (g := (·.mark none)) rfl rfl)
  · exact .refl h

theorem writePages_reshapes (h : s.Shaped) (rs : List PageRef) :
    (writePages rs).Ends s fun _ t => s.Reshapes t := by
  induction rs generalizing s with
  | nil => exact .refl h
  | cons r rs ih =>
    unfold writePages
    rw [ends_bind]
    refine (writePage_reshapes h r).mono ?_
    rintro (e | _) t first
    · exact first
    · exact (ih first.shaped).mono fun _ _ => first.trans

theorem flushPage_reshapes (h : s.Shaped) (id : PageId) :
    (flushPage id).Ends s fun _ t => s.Reshapes t := by
  unfold flushPage
  rw [ends_bind, ends_get, andThen]
  dsimp only
  split
  · split
    · exact writePage_reshapes h _
    · exact .refl h
  · exact .refl h

theorem discard_reshapes (h : s.Shaped) (id : PageId) : s.Reshapes { s with pool := s.pool.remove id } :=
  h.withPool (h.sound.remove id) (Pool.images_remove _ id)

theorem restorePage_reshapes (h : s.Shaped) (r : PageRef) :
    (restorePage r).Ends s fun _ t => s.Reshapes t := by
  rw [ends_restorePage]
  split
  · split
    · rename_i size
      exact h.update r (g := fun p => { p with bytes := _, dirtiedBy := none }) rfl size
    · exact .refl h
  · exact discard_reshapes h _
  · exact .refl h

theorem restorePages_reshapes (h : s.Shaped) (rs : List PageRef) :
    (restorePages rs).Ends s fun _ t => s.Reshapes t := by
  induction rs generalizing s with
  | nil => exact .refl h
  | cons r rs ih =>
    unfold restorePages
    rw [ends_bind]
    refine (restorePage_reshapes h r).mono ?_
    rintro (e | _) t first
    · exact first
    · rw [andThen, ends_bind]
      refine (ih first.shaped).mono ?_
      rintro (e | _) u later
      · exact first.trans later
      · exact first.trans later

theorem complete_reshapes (h : s.Shaped) (tx : TxId) (commit : Bool) :
    (complete tx commit).Ends s fun _ t => s.Reshapes t := by
  have handled : Ends (if commit then flushDirtiedBy tx else restoreDirtiedBy tx) s fun _ t =>
      s.Reshapes t := by
    cases commit with
    | true => exact writePages_reshapes h _
    | false =>
      unfold restoreDirtiedBy
      rw [if_neg Bool.false_ne_true, ends_bind, ends_get, andThen, ends_bind]
      refine (restorePages_reshapes h _).mono ?_
      rintro (e | _ | f) t restored
      · exact restored
      · exact restored
      · exact restored
  unfold complete
  rw [ends_bind, ends_attempt]
  refine handled.mono ?_
  have freed : ∀ t, s.Reshapes t → s.Reshapes { t with locks := t.locks.releaseAll tx } :=
    fun t handled => handled.trans (handled.shaped.withLocks _)
  rintro (e | _) t handled
  · cases e with
    | failed f => exact freed t handled
    | crashed => exact handled
  · exact freed t handled

/-! Rows -/

theorem keepDirty_reshapes (h : s.Shaped) (valid : r < s.pool.images.size) (tx : TxId) :
    (keepDirty tx r).Ends s fun _ t => s.Reshapes t := by
  have marked := h.update r (g := (·.mark (some tx))) rfl rfl
  have size : (s.pool.update r (·.mark (some tx))).images.size = s.pool.images.size := Pool.size_update ..
  refine (keepDirty_ends h.sound valid tx).mono ?_
  intro answer t kept
  cases kept with
  | replaced fits cached =>
    exact marked.trans (marked.shaped.withPool (marked.shaped.sound.install fits) rfl)
  | @placed q f uncached ready =>
    have page : q.page r = _ := ready.sheds.page r
    have fits : q.Fits f r := by
      refine ready.sound.fits_of_free ready.frame ready.free ?_ ?_
      · rw [ready.sheds.images, size]
        exact valid
      · rw [page, page_update_mark valid]
        have none := (ready.sheds.kept (s.pool.page r).id)
        rw [Pool.resident?_update] at none
        exact none.elim (·.trans uncached) And.left
    exact marked.trans (marked.shaped.withPool (ready.sound.install fits) ready.sheds.images)
  | @through q catalog disk uncached full sheds sound written =>
    obtain ⟨ref, t, rfl, same⟩ := file_of_writable written
    have shed := marked.trans (marked.shaped.withPool sound sheds.images)
    have filed := shed.trans (shed.shaped.withFile ref disk same)
    exact filed.trans (filed.shaped.update r (g := (·.mark none)) rfl rfl)
  | refused unwritable =>
    obtain ⟨ref, known, -⟩ := h.fits r valid
    rw [writable_of_known (p := (s.pool.page r).mark (some tx)) h.keyed known] at unwritable
    cases unwritable

theorem insertInto_yields (h : s.Shaped) (table : Table) (tx : TxId) (row : Row) (number : Nat) :
    (insertInto table tx row number).Ends s fun answer =>
      s.Yields (answer.map (Option.map Prod.fst)) := by
  unfold insertInto
  rw [ends_bind]
  refine (getPageForUpdate_yields h tx _).mono ?_
  rintro (e | r) t yields
  · exact yields
  · obtain ⟨got, valid⟩ := yields
    simp only [andThen, ends_bind, ends_page, ends_ofOption]
    cases inserted : table.layout.insert? (t.pool.page r).bytes row.values with
    | none => exact Or.inl rfl
    | some result =>
      obtain ⟨slot? | slot, bytes⟩ := result
      · exact ⟨got, fun _ never => by cases never⟩
      · have written := got.shaped.update r (g := fun p => { p with bytes }) rfl (Layout.size_insert? inserted)
        refine ⟨got.trans written, ?_⟩
        rintro r ⟨⟩
        exact Nat.lt_of_lt_of_le (valid r rfl) written.images

theorem insertFrom_yields (h : s.Shaped) (table : Table) (tx : TxId) (row : Row) (count number : Nat) :
    (insertFrom table tx row count number).Ends s fun answer =>
      s.Yields (answer.map (Option.map Prod.fst)) := by
  induction count generalizing s number with
  | zero => exact ⟨.refl h, fun _ never => by cases never⟩
  | succ count ih =>
    unfold insertFrom
    rw [ends_bind]
    refine (insertInto_yields h table tx row number).mono ?_
    rintro (e | place | place) t yields
    · exact yields
    · exact (ih yields.1.shaped (number + 1)).mono fun _ _ => Yields.after yields.1
    · exact yields

theorem insertGrowing_yields (h : s.Shaped) (ref : TableRef) (tx : TxId) (row : Row)
    (appends number : Nat) :
    (insertGrowing ref tx row appends number).Ends s fun answer =>
      s.Yields (answer.map (some ∘ Prod.fst)) := by
  induction appends generalizing s number with
  | zero =>
    unfold insertGrowing
    rw [ends_bind, ends_get, andThen, ends_bind]
    refine (insertFrom_yields h _ tx row _ number).mono ?_
    rintro (e | place | place) t yields
    · exact yields
    · exact Or.inl rfl
    · exact yields
  | succ appends ih =>
    unfold insertGrowing
    rw [ends_bind, ends_get, andThen, ends_bind]
    refine (insertFrom_yields h _ tx row _ number).mono ?_
    rintro (e | place | place) t yields
    · exact yields
    · rw [andThen, ends_bind, ends_appendPage]
      split
      · have grown := yields.1.trans (yields.1.shaped.withFile ref
          ((t.catalog.table ref).appendEmpty t.disk).2 (t := ((t.catalog.table ref).appendEmpty t.disk).1) rfl)
        exact (ih grown.shaped _).mono fun _ _ => Yields.after grown
      · exact Or.inl rfl
    · exact yields

theorem placeRow_yields (h : s.Shaped) (ref : TableRef) (tx : TxId) (row : Row) :
    (placeRow ref tx row).Ends s fun answer => s.Yields (answer.map (some ∘ Prod.fst)) := by
  unfold placeRow
  rw [ends_bind, ends_get, andThen, ends_bind, ends_ofCause]
  cases (s.catalog.table ref).checkSchema row with
  | error c => exact Or.inr (.refl h)
  | ok fits =>
    simp only [mapError_ok, andThen]
    split
    · exact Or.inr (.refl h)
    · exact insertGrowing_yields h ref tx row _ 0

theorem clearSlot_yields (h : s.Shaped) (ref : TableRef) (tx : TxId) (record? : Option RecordId) :
    (clearSlot ref tx record?).Ends s fun answer => s.Yields (answer.map some) := by
  unfold clearSlot
  rw [ends_bind, ends_get, andThen]
  cases record? with
  | none => exact Or.inr (.refl h)
  | some record =>
    dsimp only
    split
    · exact Or.inr (.refl h)
    · rw [ends_bind]
      refine (getPageForUpdate_yields h tx _).mono ?_
      rintro (e | r) t yields
      · exact yields
      · obtain ⟨got, valid⟩ := yields
        simp only [andThen, ends_bind, ends_page, ends_ofOption]
        cases removed : (s.catalog.table ref).layout.remove? (t.pool.page r).bytes record.slot with
        | none => exact Or.inl rfl
        | some result =>
          obtain ⟨_ | _, bytes⟩ := result
          · exact Or.inr got
          · have written := got.shaped.update r (g := fun p => { p with bytes }) rfl
              (Layout.size_remove? removed)
            refine ⟨got.trans written, ?_⟩
            rintro r ⟨⟩
            exact Nat.lt_of_lt_of_le (valid r rfl) written.images

theorem insertRow_reshapes (h : s.Shaped) (tx : TxId) (table : TableId) (row : Row) :
    (insertRow tx table row).Ends s fun answer t => answer = .error .crashed ∨ s.Reshapes t := by
  unfold insertRow
  rw [ends_bind, ends_get, andThen, ends_bind, ends_ofCause]
  cases s.catalog.ref table with
  | error c => exact Or.inr (.refl h)
  | ok ref =>
    simp only [mapError_ok, andThen, ends_bind]
    refine (placeRow_yields h ref tx row).mono ?_
    rintro (e | place) t yields
    · exact yields.imp_left fun crashed => by cases crashed; rfl
    · rw [andThen, ends_bind]
      refine (keepDirty_reshapes yields.1.shaped (yields.2 _ rfl) tx).mono ?_
      rintro (e | _) u kept
      · exact Or.inr (yields.1.trans kept)
      · exact Or.inr (yields.1.trans kept)

theorem deleteRow_reshapes (h : s.Shaped) (tx : TxId) (record? : Option RecordId) :
    (deleteRow tx record?).Ends s fun answer t => answer = .error .crashed ∨ s.Reshapes t := by
  unfold deleteRow
  cases record? with
  | none => exact Or.inr (.refl h)
  | some record =>
    dsimp only
    rw [ends_bind, ends_get, andThen, ends_bind, ends_ofCause]
    cases s.catalog.ref record.page.table with
    | error c => exact Or.inr (.refl h)
    | ok ref =>
      simp only [mapError_ok, andThen, ends_bind]
      refine (clearSlot_yields h ref tx (some record)).mono ?_
      rintro (e | r) t yields
      · exact yields.imp_left fun crashed => by cases crashed; rfl
      · rw [andThen]
        refine (keepDirty_reshapes yields.1.shaped (yields.2 _ rfl) tx).mono ?_
        exact fun _ _ kept => Or.inr (yields.1.trans kept)

/-! Tables -/

theorem addTable_reshapes (h : s.Shaped) (table : NewTable) :
    table.perform.Ends s fun _ t => t.catalog.Once → s.Reshapes t := by
  refine newTable_adds (P := fun t => t.catalog.Once → s.Reshapes t) ⟨?_, ?_, ?_⟩ (fun _ => .refl h) table
  · intro t shapes once
    obtain ⟨shaped, images⟩ := shapes once
    exact ⟨⟨shaped.sound, shaped.keyed, shaped.fits⟩, images⟩
  · intro t file shapes _ once
    exact (shapes once).trans ((shapes once).shaped.withDisk _)
  · intro t new name key shapes _ _ once
    have longer := Catalog.extends_add t.catalog new name key
    obtain ⟨shaped, images⟩ := shapes (longer.once once)
    exact ⟨⟨shaped.sound, shaped.keyed.add new name key, fun r valid => (shaped.fits r valid).extends
      shaped.keyed longer (once.ref_add shaped.keyed)⟩, images⟩

/-! Requests and scans -/

theorem request_reshapes (h : s.Shaped) (q : Request) : q.perform.Ends s fun answer t =>
    answer = .error .crashed ∨ (t.catalog.Once → s.Reshapes t) := by
  have always : ∀ {x : Action Unit}, x.Ends s (fun _ t => s.Reshapes t) →
      x.Ends s fun answer t => answer = .error .crashed ∨ (t.catalog.Once → s.Reshapes t) :=
    fun ends => ends.mono fun _ _ shapes => Or.inr fun _ => shapes
  cases q with
  | getPage tx id mode =>
    exact ends_forget ((getPage_reshapes h tx id mode).mono fun _ _ => Or.imp_right fun shapes _ => shapes)
  | insert tx table row =>
    exact ends_forget ((insertRow_reshapes h tx table row).mono fun _ _ => Or.imp_right fun shapes _ => shapes)
  | delete tx record? =>
    exact (deleteRow_reshapes h tx record?).mono fun _ _ => Or.imp_right fun shapes _ => shapes
  | flushPage id => exact always (flushPage_reshapes h id)
  | flushAll => exact always (writePages_reshapes h _)
  | flushDirtiedBy tx => exact always (writePages_reshapes h _)
  | discard id => exact Or.inr fun _ => discard_reshapes h id
  | release tx id => exact Or.inr fun _ => h.withLocks _
  | complete tx commit => exact always (complete_reshapes h tx commit)
  | addTable table =>
    exact ends_forget ((addTable_reshapes h table).mono fun _ _ shapes => Or.inr shapes)

theorem writeMarked_reshapes (h : s.Shaped) (handle : Handle) (off : Nat) (new : Bytes) (tx : TxId) :
    (writeMarked handle off new tx).Ends s fun answer t => answer = .error .crashed ∨ s.Reshapes t := by
  rw [ends_writeMarked]
  split
  · exact Or.inr (.refl h)
  · exact Or.inl rfl
  · rename_i p mode written
    obtain ⟨same, size, -⟩ := overwrite?_eq_some written
    exact Or.inr (h.update handle.ref (g := fun _ => p.mark (some tx)) same size)

theorem overwrite_reshapes (h : s.Shaped) (handle : Handle) (off : Nat) (new : Bytes) :
    (overwrite handle off new).Ends s fun answer t => answer = .error .crashed ∨ s.Reshapes t := by
  unfold overwrite
  rw [ends_bind, ends_page, andThen]
  split
  · exact Or.inr (.refl h)
  · rw [ends_bind, ends_ofOption]
    cases written : (s.pool.page handle.ref).overwrite? off new with
    | none => exact Or.inl rfl
    | some p =>
      obtain ⟨same, size, -⟩ := overwrite?_eq_some written
      exact Or.inr (h.update handle.ref (g := fun _ => p) same size)

theorem walks_shaped : Walks fun s t => s.Shaped → t.Shaped where
  refl _ := id
  trans first second h := second (first h)
  moves _ scans h := h.withScans scans
  gets _ tx id _ := .assuming fun h => (getPage_reshapes h tx id .shared).mono fun _ _ =>
    Or.imp_right Reshapes.shaped

end Store

/-- What can happen to a store: calls, what the holder of an image does to it whether or not it says so,
rows that are placed or cleared and pages that are written past the pool, locks without a use, and whatever
others do to the files, such as to cut one short or to add zeros to it. -/
inductive Turn where
  | call (c : Call)
  | overwrite (h : Handle) (off : Nat) (new : Bytes)
  | mark (r : PageRef) (owner : Option TxId)
  | place (ref : TableRef) (tx : TxId) (row : Row)
  | clear (ref : TableRef) (tx : TxId) (record? : Option RecordId)
  | write (ref : TableRef) (p : Page)
  | lock (tx : TxId) (id : PageId) (mode : LockMode)
  | begin
  | files (change : Disk → Disk)

namespace Turn

def perform : Turn → Action Answer
  | call c => c.perform
  | overwrite h off new => do
    Store.overwrite h off new
    return .done
  | mark r owner => do
    Store.mark r owner
    return .done
  | place ref tx row => do
    let _ ← Store.placeRow ref tx row
    return .done
  | clear ref tx record? => do
    let _ ← Store.clearSlot ref tx record?
    return .done
  | write ref p => do
    Store.writeTable ref p
    return .done
  | lock tx id mode => do
    Store.lock tx id mode
    return .done
  | begin => do return .began (← Store.begin)
  | files change => do
    modify fun s => { s with disk := change s.disk }
    return .done

end Turn

namespace Store
open HeapStore.Action

variable {s t : Store} {turn : Turn} {turns : List Turn} {reply : Reply}

/-- The store after some turns, with no two tables sharing an id at any time. -/
def take (s : Store) (turns : List Turn) : Option Store :=
  turns.foldlM (fun s turn =>
    ((Session.settle turn.perform s).map Prod.snd).filter fun t => t.catalog.Once) s

theorem turn_shaped (h : s.Shaped) (settled : Session.settle turn.perform s = some (reply, t))
    (once : t.catalog.Once) : t.Shaped := by
  have ended : ∀ {α : Type} {y : Action α}, Session.settle (do let _ ← y; return .done) s = some (reply, t) →
      (y.Ends s fun answer t => answer = .error .crashed ∨ (t.catalog.Once → s.Reshapes t)) →
      t.Shaped := by
    intro α y settled ends
    obtain ⟨answer, -, crashed | shapes⟩ := Session.settle_done ends settled
    · exact absurd crashed (Session.mapError_ne_crashed answer)
    · exact (shapes once).shaped
  have moved : ∀ {α : Type} {y : Action α}, Session.settle (do let _ ← y; return .done) s = some (reply, t) →
      (y.Ends s fun answer t => answer = .error .crashed ∨ s.Reshapes t) → t.Shaped :=
    fun settled ends => ended settled (ends.mono fun _ _ => Or.imp_right fun shapes _ => shapes)
  have scanned : ∀ {x : Action Answer}, Respects (fun s t => s.Shaped → t.Shaped) x →
      Session.settle x s = some (reply, t) → t.Shaped := fun respects settled =>
    (Session.settle_eq_some (respects s) settled).resolve_left (Session.mapError_ne_crashed reply) h
  cases turn with
  | call c =>
    cases c with
    | serve q => exact ended settled (request_reshapes h q)
    | scan tx table =>
      exact scanned (walks_shaped.bind (walks_shaped.newScan tx table) fun _ =>
        respects_pure walks_shaped.refl _) settled
    | iterate r step => exact scanned (walks_shaped.perform r step) settled
    | write handle off new tx => exact moved settled (writeMarked_reshapes h handle off new tx)
  | overwrite handle off new => exact moved settled (overwrite_reshapes h handle off new)
  | mark r owner => exact moved settled (Or.inr (h.update r (g := (·.mark owner)) rfl rfl))
  | place ref tx row => exact moved settled ((placeRow_yields h ref tx row).mono fun _ _ => Yields.reshapes)
  | clear ref tx record? =>
    exact moved settled ((clearSlot_yields h ref tx record?).mono fun _ _ => Yields.reshapes)
  | write ref p => exact moved settled ((writeTable_reshapes h ref p).mono fun _ _ => Or.inr)
  | lock tx id mode => exact moved settled (lock_reshapes h tx id mode)
  | begin =>
    cases settled
    exact ⟨h.sound, h.keyed, h.fits⟩
  | files change => exact moved settled (Or.inr (h.withDisk _))

/-- What each turn preserves holds after all of them. -/
theorem take_induction {P : Store → Prop} (ran : s.take turns = some t) (start : P s)
    (step : ∀ s (turn : Turn) reply t, P s → Session.settle turn.perform s = some (reply, t) →
      t.catalog.Once → P t) : P t := by
  induction turns generalizing s with
  | nil =>
    cases ran
    exact start
  | cons turn turns ih =>
    rw [take, List.foldlM_cons, Option.bind_eq_bind, Option.bind_eq_some_iff] at ran
    obtain ⟨u, first, later⟩ := ran
    obtain ⟨first, once⟩ := Option.filter_eq_some_iff.mp first
    obtain ⟨⟨reply, _⟩, settled, rfl⟩ := Option.map_eq_some_iff.mp first
    exact ih later (step s turn reply _ start settled (of_decide_eq_true once))

theorem take_shaped (h : s.Shaped) (ran : s.take turns = some t) : t.Shaped :=
  take_induction ran h fun _ _ _ _ h settled once => turn_shaped h settled once

end Store
end HeapStore
