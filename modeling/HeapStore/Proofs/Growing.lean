import HeapStore.Proofs.Following
import HeapStore.Proofs.Slots

/-! The search for a free slot follows the store without a pool, over pages that tables have and over
pages that are added to them. -/
namespace HeapStore.Store

variable {s s' t u : Store} {id : PageId} {tx : TxId} {may : Prop}

/-! Adding pages -/

@[simp] theorem catalog_appended (s : Store) (ref : TableRef) :
    (s.appended ref).catalog = s.catalog.extended ref := by
  simp [appended, Catalog.extended, Table.appendEmpty_fst]

theorem table_appended {ref : TableRef} (valid : ref < s.catalog.opened.size) :
    (s.appended ref).catalog.table ref = (s.catalog.table ref).extended := by
  simp [Catalog.table_extended valid]

theorem saved_append (h : s.Coherent) {tableId : TableId} {ref : TableRef}
    (known : s.catalog.ref tableId = .ok ref) (id : PageId) :
    (s.appended ref).saved id =
      if id = ⟨(s.catalog.table ref).id, (s.catalog.table ref).pages⟩ then
        .zeros (s.catalog.table ref).pageSize else s.saved id := by
  obtain ⟨valid, key⟩ := h.guarded.keyed _ _ known
  let last : PageId := ⟨(s.catalog.table ref).id, (s.catalog.table ref).pages⟩
  have known' : s.catalog.ref last.table = .ok ref := by
    rw [show last.table = tableId from key, known]
  exact saved_writeAt h known' (Bytes.size_zeros _) s.pool id

theorem coherent_append (h : s.Coherent) {tableId : TableId} {ref : TableRef}
    (known : s.catalog.ref tableId = .ok ref) (room : (s.catalog.table ref).Growable) :
    (s.appended ref).Coherent := by
  obtain ⟨valid, key⟩ := h.guarded.keyed _ _ known
  have table : ∀ k, (s.appended ref).catalog.table k =
      if k = ref then (s.catalog.table ref).extended else s.catalog.table k := by
    simpa using Catalog.table_extended valid
  have file : ∀ k, ((s.appended ref).catalog.table k).file = (s.catalog.table k).file := by
    intro k
    rw [table]
    split
    · rename_i here
      rw [here]
      rfl
    · rfl
  have kept : ∀ id page, s.pool.image? id = some page → (s.appended ref).saved id = s.saved id := by
    intro id page cached
    rw [saved_append h known, if_neg]
    rintro rfl
    obtain ⟨ref', known', below⟩ := h.has _ page cached
    dsimp only at known' below
    rw [key, known] at known'
    cases known'
    exact Nat.lt_irrefl _ below
  refine ⟨(calm_of_file s ref ((s.catalog.table ref).appendEmpty s.disk).1
    ((s.catalog.table ref).appendEmpty s.disk).2 rfl h.guarded).guarded, h.capacity,
    ?_, ?_, ?_, ?_, ?_, ?_⟩
  · intro id id' k k' known known' same
    rw [file, file] at same
    exact h.apart id id' k k' known known' same
  · intro id k known'
    rw [table]
    split
    · rw [← Table.appendEmpty_fst _ s.disk]
      exact Table.backed_writeAt (h.backed _ _ known)
        (by rw [Bytes.size_zeros]; exact Nat.ne_of_gt room.1)
    · rename_i other
      refine Table.backed_writeAt_other (h.backed _ _ known') fun same => ?_
      have ids := h.apart _ _ _ _ known' known same
      change s.catalog.ref id = .ok k at known'
      rw [ids, known] at known'
      cases known'
      exact other rfl
  · intro id k known'
    rw [file]
    exact h.named id k known'
  · intro id page cached
    rw [catalog_appended]
    exact (Catalog.grown_extended valid room).has (h.has id page cached)
  · intro id page cached
    rw [kept id page cached]
    exact h.whole id page cached
  · intro id page cached clean
    rw [kept id page cached]
    exact h.clean id page cached clean

theorem content_append (h : s.Coherent) {tableId : TableId} {ref : TableRef}
    (known : s.catalog.ref tableId = .ok ref) (id : PageId) :
    (s.appended ref).content id =
      if id = ⟨(s.catalog.table ref).id, (s.catalog.table ref).pages⟩ then
        .zeros (s.catalog.table ref).pageSize else s.content id := by
  obtain ⟨-, key⟩ := h.guarded.keyed _ _ known
  have pool : (s.appended ref).pool = s.pool := rfl
  unfold content
  rw [saved_append h known, pool]
  cases cached : s.pool.image? id with
  | none => rfl
  | some page =>
    dsimp only
    rw [if_neg]
    rintro rfl
    obtain ⟨ref', known', below⟩ := h.has _ page cached
    dsimp only at known' below
    rw [key, known] at known'
    cases known'
    exact Nat.lt_irrefl _ below

theorem upkeep_append (h : s.Coherent) {tableId : TableId} {ref : TableRef}
    (known : s.catalog.ref tableId = .ok ref) (room : (s.catalog.table ref).Growable) :
    s.Upkeep tx (s.appended ref) := by
  obtain ⟨valid, key⟩ := h.guarded.keyed _ _ known
  have known' : s.catalog.ref (s.catalog.table ref).id = .ok ref := by rw [key, known]
  have lacks : ¬s.catalog.Has ⟨(s.catalog.table ref).id, (s.catalog.table ref).pages⟩ := by
    rintro ⟨ref', same, below⟩
    dsimp only at same below
    rw [known'] at same
    cases same
    exact Nat.lt_irrefl _ below
  have has : ∀ id, (s.catalog.extended ref).Has id ↔ _ := fun _ =>
    Catalog.has_extended h.guarded.keyed known room
  rw [← catalog_appended] at has
  have grown := Catalog.grown_extended valid room
  rw [← catalog_appended] at grown
  refine ⟨coherent_append h known room, rfl, grown, fun _ => rfl, ?_, ?_, ?_, ?_, ?_,
    fun all => ⟨all, fun _ => rfl⟩, fun _ _ held => Or.inl held⟩
  · intro id old
    rw [saved_append h known, if_neg]
    rintro rfl
    rcases old with old | lacks'
    · exact lacks old
    · exact lacks' ((has _).mpr (Or.inr rfl))
  · intro id lacks there
    have new := ((has id).mp there).resolve_left lacks
    rw [saved_append h known, if_pos new, new]
    simp only [Catalog.blank, Catalog.byId, known', Except.map]
  · intro id has
    rw [content_append h known, if_neg]
    rintro rfl
    exact lacks has
  · intro id k known'
    by_cases here : k = ref
    · subst here
      exact Table.padded_append (h.backed _ _ known) room
    · refine (h.backed _ _ known').padded ((Table.get?_writeAt _ _ _ _ _).trans (if_neg fun file => ?_))
      have ids := h.apart _ _ _ _ known' known file
      rw [ids, known] at known'
      cases known'
      exact here rfl
  · intro name others
    exact (Table.get?_writeAt _ _ _ _ _).trans
      (if_neg fun here => others tableId ref known (Nat.ne_of_gt room.1) here.symm)

/-! Rows -/

/-- New bytes of a page were found. They are in an image that stands for the page, which is known to
be changed only later. -/
def Drafted (tx : TxId) (id : PageId) (r : PageRef) (bytes : Bytes) (t s' : Store) : Prop :=
  t.Stands id r ∧ t.locks.Held tx id .exclusive ∧ bytes.size = (t.saved id).size ∧
    s' = { t with pool := t.pool.update r fun p => { p with bytes } }

/-- A place for a row was drafted, or none was found. -/
inductive Searched (tx : TxId) : Option (PageRef × RecordId) → Option (RecordId × Bytes) →
    Store → Store → Prop where
  | nothing (t : Store) : Searched tx none none t t
  | place {r : PageRef} {record : RecordId} {bytes : Bytes} {t s' : Store}
      (drafted : Drafted tx record.page r bytes t s') :
      Searched tx (some (r, record)) (some (record, bytes)) t s'

theorem insertInto_follows (h : s.Coherent) (t : Table) (tx : TxId) (row : Row) (number : Nat) :
    (insertInto t tx row number).Ends s
      (Follows may tx s (Plain.insertInto t tx row number) (Searched tx)) := by
  refine follows_bind (getPageForUpdate_follows h tx ⟨t.id, number⟩) ?_
  rintro r _ v _ - upkeep ⟨⟨rfl, stands, rfl⟩, held⟩
  rw [Action.ends_bind, ends_page, Action.andThen, stands.bytes upkeep.coherent]
  refine follows_bind (follows_ofOption upkeep.coherent _) ?_
  rintro ⟨_ | slot, bytes⟩ _ _ _ - - ⟨⟨rfl, rfl⟩, rfl, found⟩
  · exact follows_pure upkeep.coherent (.nothing _)
  · refine follows_pure upkeep.coherent (.place ⟨stands, held, ?_, rfl⟩)
    rw [Layout.size_insert? found, upkeep.coherent.size_content]

theorem insertFrom_follows (h : s.Coherent) (t : Table) (tx : TxId) (row : Row)
    (count number : Nat) : (insertFrom t tx row count number).Ends s
      (Follows may tx s (Plain.insertFrom t tx row count number) (Searched tx)) := by
  induction count generalizing s number with
  | zero => exact follows_pure h (.nothing s)
  | succ count ih =>
    refine follows_bind (insertInto_follows h t tx row number) ?_
    rintro _ _ v u - upkeep searched
    cases searched with
    | nothing => exact ih upkeep.coherent (number + 1)
    | place drafted => exact follows_pure upkeep.coherent (.place drafted)

theorem view_append (h : s.Coherent) {tableId : TableId} {ref : TableRef}
    (known : s.catalog.ref tableId = .ok ref) :
    Plain.append ref s.view = .ok () (s.appended ref).view := by
  have contents : (s.appended ref).content = fun id =>
      if id = ⟨(s.catalog.table ref).id, (s.catalog.table ref).pages⟩ then
        .zeros (s.catalog.table ref).pageSize else s.content id :=
    funext (content_append h known)
  unfold Store.view
  rw [contents]
  unfold appended
  rw [Table.appendEmpty_fst]
  rfl

/-- A search that has passed all pages goes on behind the last one, if it may. -/
theorem insertGrowing_passed {ref : TableRef} {row : Row} {number : Nat} (appends : Nat)
    (passed : (s.catalog.table ref).pages ≤ number) : insertGrowing ref tx row appends number s =
      match appends with
      | 0 => .error .crashed s
      | appends + 1 => (appendPage ref >>= fun _ =>
        insertGrowing ref tx row appends (max number (s.catalog.table ref).pages)) s := by
  have none : insertFrom (s.catalog.table ref) tx row ((s.catalog.table ref).pages - number) number s =
      .ok none s := by
    rw [Nat.sub_eq_zero_of_le passed]
    rfl
  rw [insertGrowing]
  simp only [bind, EStateM.bind, Action.get_eq, none]
  cases appends <;> rfl

/-- If it can not add a page it crashes, or at the last page number goes on forever. -/
theorem appendGrowing_stuck {ref : TableRef} {row : Row} {appends number : Nat}
    (valid : ref < s.catalog.opened.size) (some : 0 < (s.catalog.table ref).pageSize)
    (stuck : ¬(s.catalog.table ref).Growable) (passed : (s.catalog.table ref).pages ≤ number) :
    (appendPage ref >>= fun _ => insertGrowing ref tx row appends number).Ends s fun answer _ =>
      answer = .error .crashed := by
  induction appends generalizing s number with
  | zero =>
    rw [Action.ends_bind, ends_appendPage]
    split
    · rename_i short
      obtain ⟨-, fewer⟩ := Table.stuck_extended some short stuck
      have table := table_appended valid
      rw [Action.andThen, Action.Ends, insertGrowing_passed 0 (table ▸ Nat.le_trans fewer passed)]
    · rfl
  | succ appends ih =>
    rw [Action.ends_bind, ends_appendPage]
    split
    · rename_i short
      obtain ⟨stuck', fewer⟩ := Table.stuck_extended some short stuck
      have table := table_appended valid
      rw [Action.andThen, Action.Ends, insertGrowing_passed _ (table ▸ Nat.le_trans fewer passed)]
      refine ih (s := s.appended ref) ?_ ?_ ?_ ?_
      · exact (Catalog.opened_size_update _ _ _).symm ▸ valid
      · rw [table]
        exact some
      · rwa [table]
      · exact Nat.le_max_right _ _
    · rfl

/-- A new page has room for the row. -/
theorem insertNew_follows (h : s.Coherent) {tableId : TableId} {ref : TableRef}
    (known : s.catalog.ref tableId = .ok ref) (room : (s.catalog.table ref).Growable)
    (slots : (s.catalog.table ref).layout.slots ≠ 0) (tx : TxId) (row : Row) (appends : Nat) :
    (do appendPage ref; insertGrowing ref tx row appends (s.catalog.table ref).pages).Ends s
      (Follows may tx s (Plain.insertNew ref tx row (s.catalog.table ref).pages) fun a b t s' =>
        Searched tx (some a) (some b) t s') := by
  obtain ⟨valid, -⟩ := h.guarded.keyed _ _ known
  have table := table_appended valid
  have appending : (appendPage ref).Ends s (Follows may tx s (Plain.append ref) fun _ _ t s' =>
      s' = t ∧ t = s.appended ref) := by
    rw [ends_appendPage, if_pos room.2.1]
    exact .returns (view_append h known) (upkeep_append h known room) rfl ⟨rfl, rfl⟩
  refine follows_bind appending ?_
  rintro _ _ _ _ - upkeep ⟨rfl, rfl⟩
  apply follows_get
  unfold insertGrowing
  rw [Action.ends_bind, Action.ends_get, Action.andThen]
  dsimp only
  rw [table, Table.pages_extended room, Nat.add_sub_cancel_left]
  unfold insertFrom
  rw [bind_assoc]
  have view : (s.appended ref).view.catalog = (s.appended ref).catalog := rfl
  rw [view, table]
  refine follows_bind (insertInto_follows upkeep.coherent _ tx row _) ?_
  rintro _ _ t u ended upkeep' searched
  cases searched with
  | place drafted => exact follows_pure upkeep'.coherent (.place drafted)
  | nothing =>
    -- the slots of the new page are all free
    obtain ⟨-, slot?, bytes, inserted, none⟩ := Plain.insertInto_eq_ok_iff.mp ended
    cases slot? with
    | some slot => cases none
    | none =>
      have full := Layout.insert?_eq_none inserted
      change Layout.firstFree? (s.catalog.table ref).layout ((s.appended ref).content
        ⟨(s.catalog.table ref).id, (s.catalog.table ref).pages⟩) = _ at full
      rw [content_append h known, if_pos rfl] at full
      exact absurd full (Layout.firstFree?_zeros slots _)

theorem insertGrowing_follows (h : s.Coherent) {tableId : TableId} {ref : TableRef}
    (known : s.catalog.ref tableId = .ok ref) (slots : (s.catalog.table ref).layout.slots ≠ 0)
    (tx : TxId) (row : Row) (appends : Nat) : (insertGrowing ref tx row (appends + 1) 0).Ends s
      (Follows may tx s (Plain.insertAnywhere ref tx row) fun a b t s' =>
        Searched tx (some a) (some b) t s') := by
  obtain ⟨valid, key⟩ := h.guarded.keyed _ _ known
  have size := Table.pageSize_pos_of_slots slots
  have view : s.view.catalog = s.catalog := rfl
  unfold insertGrowing Plain.insertAnywhere
  rw [Action.ends_bind, Action.ends_get, Action.andThen]
  apply follows_get
  rw [view]
  refine follows_bind (insertFrom_follows h _ tx row _ 0) ?_
  rintro _ _ t u ended upkeep searched
  cases searched with
  | place drafted => exact follows_pure upkeep.coherent (.place drafted)
  | nothing =>
    obtain ⟨locks, same⟩ := Plain.insertFrom_locks ended
    have catalog : t.catalog = s.catalog := congrArg Plain.catalog same
    dsimp only
    rw [Nat.max_eq_right (Nat.zero_le _)]
    rw [← catalog] at known slots size valid ⊢
    by_cases room : (t.catalog.table ref).Growable
    · rw [if_pos room.2]
      exact insertNew_follows upkeep.coherent known room slots tx row appends
    · rw [if_neg fun few => room ⟨size, few⟩]
      refine (appendGrowing_stuck valid size room (Nat.le_refl _)).mono ?_
      rintro answer u rfl
      exact .crashes rfl

end HeapStore.Store
