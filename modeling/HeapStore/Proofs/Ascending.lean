import HeapStore.Proofs.Listing
import Mathlib.Data.List.Nodup

/-! What a scan tells whatever tables there are. Its record ids ascend, since the rows of each page are
told in the order of their slots and no page is read twice. It tells every row that stays where it is
meanwhile, since no page is left out. -/
namespace HeapStore

/-- Whether an event does nothing but look. -/
def Event.reads : Event → Bool
  | .begin => true
  | .op _ o => !o.alters
  | _ => false

/-- The record ids of the rows ascend, and the numbers of their pages are in `within`. -/
def Ascends (within : Nat → Prop) (rows : List Row) : Prop :=
  ∃ places : List RecordId, rows.map Row.record = places.map some ∧
    places.Pairwise RecordId.Before ∧ ∀ p ∈ places, within p.page.number

variable {rows later : List Row} {n m : Nat}

theorem Ascends.nodup {within : Nat → Prop} (h : Ascends within rows) :
    (rows.map Row.record).Nodup := by
  obtain ⟨places, same, ascend, -⟩ := h
  rw [same]
  exact List.Nodup.map (fun _ _ => Option.some.inj) (nodup_of_ascend ascend)

theorem Ascends.append (h : Ascends (· ≤ n) rows) (h' : Ascends (· = m) later) (lt : n < m) :
    Ascends (· ≤ m) (rows ++ later) := by
  obtain ⟨before, same, ascend, below⟩ := h
  obtain ⟨after, same', ascend', there⟩ := h'
  refine ⟨before ++ after, by rw [List.map_append, List.map_append, same, same'],
    List.pairwise_append.mpr ⟨ascend, ascend', fun p first q second => Or.inl ?_⟩, fun p listed => ?_⟩
  · rw [there q second]
    exact Nat.lt_of_le_of_lt (below p first) lt
  · rcases List.mem_append.mp listed with first | second
    · exact Nat.le_trans (below p first) (Nat.le_of_lt lt)
    · exact Nat.le_of_eq (there p second)

/-- The record ids of a page are those of its slots, if these are few enough to be told apart. -/
theorem Table.ascends_rows? {t : Table} {bytes : Bytes} (few : t.layout.slots ≤ UInt16.size)
    (told : t.layout.rows? t.schema ⟨t.id, n⟩ bytes = some rows) : Ascends (· = n) rows := by
  refine ⟨((List.range t.layout.slots).filter fun i => (t.valuesAt ⟨t.id, n⟩ bytes i).isSome).map
    (RecordId.mk ⟨t.id, n⟩), ?_, ?_, ?_⟩
  · rw [Table.rows?_eq told, List.map_filterMap, List.map_map, ← List.filterMap_eq_map,
      List.filterMap_filter]
    refine List.filterMap_congr fun i inside => ?_
    have short := Nat.mod_eq_of_lt (Nat.lt_of_lt_of_le (List.mem_range.mp inside) few)
    cases t.valuesAt ⟨t.id, n⟩ bytes i <;> simp [RecordId.ofSlot, short]
  · exact List.pairwise_map.mpr ((List.pairwise_lt_range.filter _).imp fun lt => Or.inr ⟨rfl, lt⟩)
  · intro p listed
    obtain ⟨i, -, rfl⟩ := List.mem_map.mp listed
    rfl

/-- The rows at places on pages up to number `n` are among those that were told. -/
def Covers (kept : RecordId → Row → Prop) (n : Nat) (rows : List Row) : Prop :=
  ∀ p row, kept p row → p.page.number ≤ n → row ∈ rows

theorem Covers.append {kept : RecordId → Row → Prop} (h : Covers kept n rows)
    (here : ∀ p row, kept p row → p.page.number = n + 1 → row ∈ later) :
    Covers kept (n + 1) (rows ++ later) := by
  intro p row listed below
  rcases Nat.lt_or_eq_of_le below with before | there
  · exact List.mem_append_left _ (h p row listed (Nat.le_of_lt_succ before))
  · exact List.mem_append_right _ (here p row listed there)

namespace Store
open HeapStore.Action

variable {s t : Store} {r : ScanRef} {ref : TableRef} {told : List Row} {sc : Scan} {fuel : Nat}
  {kept : RecordId → Row → Prop} {p : RecordId} {row : Row}

/-- A row is at a place of a table, and stays there as long as nobody changes anything. -/
structure Lodges (s : Store) (ref : TableRef) (p : RecordId) (row : Row) : Prop where
  known : s.catalog.ref p.page.table = .ok ref
  inside : p.page.number < (s.catalog.table ref).pages
  holds : ∃ bytes, s.Firm p.page bytes ∧
    ((s.catalog.table ref).layout.row? (s.catalog.table ref).schema p.page bytes p.slot).join = some row

theorem Lodges.congr (h : s.Lodges ref p row) (same : t.catalog = s.catalog)
    (firm : ∀ id bytes, s.Firm id bytes → t.Firm id bytes) : t.Lodges ref p row := by
  obtain ⟨known, inside, bytes, there, read⟩ := h
  exact ⟨same ▸ known, same ▸ inside, bytes, firm _ _ there, same ▸ read⟩

theorem Lodges.mem {bytes : Bytes} (h : s.Lodges ref p row) (reads : s.Reads p.page bytes)
    (read : (s.catalog.table ref).layout.rows? (s.catalog.table ref).schema p.page bytes = some rows) :
    row ∈ rows := by
  obtain ⟨-, -, bytes', firm, there⟩ := h
  cases firm.reads.unique reads
  rw [Layout.rows?_eq read, List.mem_filterMap]
  refine ⟨p.slot, List.mem_range.mpr (Nat.lt_of_not_le fun beyond => ?_), there⟩
  rw [Layout.row?, if_pos beyond] at there
  cases there

theorem content_of_reads {id : PageId} {bytes : Bytes} (reads : s.Reads id bytes) :
    s.content id = bytes := by
  unfold Reads at reads
  unfold content
  cases cached : s.pool.image? id with
  | some page =>
    rw [cached] at reads
    exact reads
  | none =>
    rw [cached] at reads
    obtain ⟨ref, known, read⟩ := loadable_eq_ok_iff.mp reads
    obtain ⟨-, -, f, there, -, same⟩ := Table.read_eq_ok_iff.mp read
    dsimp only
    rw [saved_of_ref known, Table.bytes, there]
    exact same

theorem Lodges.stored (h : s.Lodges ref p row) : s.stored p = some row.values := by
  obtain ⟨known, inside, bytes, firm, read⟩ := h
  rw [stored_of_ref known, total_of_has ⟨ref, known, inside⟩, content_of_reads firm.reads,
    Table.valuesAt, read]
  rfl

/-- A scan reads a table whose slots are few enough to be told apart, with rows at some of its places. -/
structure Browses (r : ScanRef) (ref : TableRef) (kept : RecordId → Row → Prop) (s : Store) : Prop where
  guarded : s.Guarded
  valid : r < s.scans.size
  table : (s.scans.getD r default).table = ref
  few : (s.catalog.table ref).layout.slots ≤ UInt16.size
  lodges : ∀ p row, kept p row → s.Lodges ref p row

/-- What the scan has told and what it holds to be told next ascend, and they cover the rows of the
pages up to the one that it has read last. -/
structure Telling (r : ScanRef) (ref : TableRef) (kept : RecordId → Row → Prop) (told : List Row)
    (s : Store) : Prop extends Browses r ref kept s where
  ascends : ∃ rest, (s.scans.getD r default).rest = some rest ∧
    Ascends (· ≤ (s.scans.getD r default).page) (told ++ rest) ∧
    Covers kept (s.scans.getD r default).page (told ++ rest)

/-- If an action returns then this holds. -/
def Returns {α : Type} (Q : α → Store → Prop) : Except Stop α → Store → Prop
  | .ok a, t => Q a t
  | .error _, _ => True

theorem returns_mono {α : Type} {x : Action α} {P Q : α → Store → Prop} (h : x.Ends s (Returns P))
    (weaker : ∀ a t, P a t → Q a t) : x.Ends s (Returns Q) := by
  refine h.mono ?_
  rintro (e | a) t reached
  · trivial
  · exact weaker a t reached

theorem returns_bind {α β : Type} {x : Action α} {f : α → Action β} {P : α → Store → Prop}
    {Q : β → Store → Prop} (first : x.Ends s (Returns P))
    (later : ∀ a t, P a t → (f a).Ends t (Returns Q)) : (x >>= f).Ends s (Returns Q) := by
  rw [ends_bind]
  refine first.mono ?_
  rintro (e | a) t reached
  · trivial
  · exact later a t reached

theorem returns_scan {α : Type} {f : Scan → Action α} {Q : α → Store → Prop}
    (h : (f (s.scans.getD r default)).Ends s (Returns Q)) : (scan r >>= f).Ends s (Returns Q) := h

theorem returns_ofOption {α : Type} (a? : Option α) :
    (ofOption a?).Ends s (Returns fun a t => a? = some a ∧ t = s) := by
  cases a? with
  | none => trivial
  | some a => exact ⟨rfl, rfl⟩

theorem pageCount_returns (sc : Scan) : (pageCount sc).Ends s
    (Returns fun n t => n = (s.catalog.table sc.table).pages ∧ t = s) := by
  refine returns_mono (returns_ofOption (s.catalog.table sc.table).pageCount?) fun n t counted => ?_
  obtain ⟨counted, same⟩ := counted
  unfold Table.pageCount? at counted
  split at counted
  · cases counted
  · cases counted
    exact ⟨rfl, same⟩

theorem getPage_returns (h : s.Guarded) (tx : TxId) (id : PageId) (mode : LockMode) :
    (getPage tx id mode).Ends s (Returns fun got t => s.Reads id (t.pool.page got.ref).bytes) := by
  refine returns_bind (P := fun _ t => t = { s with locks := t.locks }) ?_ fun _ t locked => ?_
  · rw [ends_lock]
    split
    · split
      · rfl
      · trivial
    · trivial
  · have pool : t.pool = s.pool := by rw [locked]
    have reads : ∀ bytes, t.Reads id bytes → s.Reads id bytes := by
      rw [locked]
      exact fun _ read => read
    refine returns_bind (P := fun got u => t.Reads id (u.pool.page got).bytes) ?_ fun got u read =>
      reads _ read
    refine (fetch_ends (pool ▸ h.pool) id true).mono ?_
    rintro (e | got) u fetched
    · trivial
    · exact fetched.reads

theorem Browses.sets (h : s.Browses r ref kept) (same : sc.table = ref) :
    (setScan r sc).Ends s (Returns fun _ t =>
      t.Browses r ref kept ∧ t.scans.getD r default = sc ∧ t.catalog = s.catalog) := by
  have now := Plain.getD_setIfInBounds h.valid sc
  have leaves := looks_of_scans s (s.scans.setIfInBounds r sc) h.guarded
  refine ⟨⟨leaves.guarded, ?_, ?_, h.few, fun p row listed => ?_⟩, now, rfl⟩
  · simpa using h.valid
  · rw [now, same]
  · exact (h.lodges p row listed).congr leaves.same leaves.firm

theorem Browses.gets (h : s.Browses r ref kept) (tx : TxId) (id : PageId) (mode : LockMode) :
    (getPage tx id mode).Ends s (Returns fun got t => t.Browses r ref kept ∧ t.scans = s.scans ∧
      t.catalog = s.catalog ∧ s.Reads id (t.pool.page got.ref).bytes) := by
  refine (((looking_getPage tx id mode s).and (sparing_getPage tx id mode s)).and
    (getPage_returns h.guarded tx id mode)).mono ?_
  rintro (e | got) t ⟨⟨looks, spares⟩, reads⟩
  · trivial
  · have leaves := looks.resolve_left (by simp) h.guarded
    refine ⟨⟨leaves.guarded, ?_, ?_, ?_, fun p row listed => ?_⟩, spares.scans, leaves.same, reads⟩
    · rw [spares.scans]
      exact h.valid
    · rw [spares.scans]
      exact h.table
    · rw [leaves.same]
      exact h.few
    · exact (h.lodges p row listed).congr leaves.same leaves.firm

/-- The rows that are read from a page ascend and are on this page, and none that is there is missing. -/
theorem Browses.fetches (h : s.Browses r ref kept) (same : sc.table = ref) (number : Nat) :
    (fetchRows sc number).Ends s (Returns fun rows t => t.Browses r ref kept ∧ t.scans = s.scans ∧
      t.catalog = s.catalog ∧ Ascends (· = number) rows ∧
      ∀ p row, kept p row → p.page.number = number → row ∈ rows) := by
  subst same
  refine returns_bind (P := fun got t => s = got ∧ s = t) ⟨rfl, rfl⟩ ?_
  rintro _ _ ⟨rfl, rfl⟩
  refine returns_bind (h.gets _ _ _) fun got t reached => ?_
  obtain ⟨browses, scans, catalog, reads⟩ := reached
  refine returns_bind (P := fun page u => page = t.pool.page got.ref ∧ u = t) ⟨rfl, rfl⟩ ?_
  rintro _ _ ⟨rfl, rfl⟩
  refine returns_mono (returns_ofOption _) ?_
  rintro rows _ ⟨told, rfl⟩
  refine ⟨browses, scans, catalog, Table.ascends_rows? h.few told, fun p row listed here => ?_⟩
  have lodges := h.lodges p row listed
  obtain ⟨-, key⟩ := h.guarded.keyed _ _ lodges.known
  have page : p.page = ⟨(s.catalog.table sc.table).id, number⟩ := by
    rw [← here, key]
  exact lodges.mem (page ▸ reads) (page ▸ told)

theorem Browses.tells (h : s.Browses r ref kept) (same : sc.table = ref) {rest : List Row}
    (read : sc.rest = some rest) (ascends : Ascends (· ≤ sc.page) (told ++ rest))
    (covers : Covers kept sc.page (told ++ rest)) :
    (setScan r sc).Ends s (Returns fun _ t =>
      t.Telling r ref kept told ∧ t.scans.getD r default = sc ∧ t.catalog = s.catalog) := by
  refine returns_mono (h.sets same) ?_
  rintro _ t ⟨browses, now, catalog⟩
  exact ⟨⟨browses, by rw [now]; exact ⟨rest, read, ascends, covers⟩⟩, now, catalog⟩

theorem Browses.opens (h : s.Browses r ref kept) :
    (openScan r).Ends s (Returns fun _ t => t.Telling r ref kept []) := by
  refine returns_scan (returns_bind (h.sets h.table) fun _ t reached => ?_)
  obtain ⟨browses, -, -⟩ := reached
  refine returns_bind (pageCount_returns _) ?_
  rintro n _ ⟨pages, rfl⟩
  have table : ({ s.scans.getD r default with page := 0 } : Scan).table = ref := h.table
  split
  · rename_i none
    refine returns_mono (browses.tells table rfl ⟨[], rfl, .nil, by simp⟩ fun p row listed below => ?_)
      fun _ _ reached => reached.1
    have inside := (browses.lodges p row listed).inside
    rw [← table, ← pages, none] at inside
    exact absurd inside (Nat.not_lt_zero _)
  · refine returns_bind (browses.fetches table 0) fun rows u reached => ?_
    obtain ⟨browses, -, -, ⟨places, same, ascend, there⟩, covers⟩ := reached
    have ascends : Ascends (· ≤ 0) ([] ++ rows) :=
      ⟨places, same, ascend, fun p listed => Nat.le_of_eq (there p listed)⟩
    refine returns_mono (browses.tells table rfl ascends fun p row listed below => ?_)
      fun _ _ reached => reached.1
    exact covers p row listed (Nat.le_zero.mp below)

theorem Browses.closes (h : s.Browses r ref kept) :
    (closeScan r).Ends s (Returns fun _ t => t.Browses r ref kept) := by
  have same : ({ s.scans.getD r default with rest := none } : Scan).table = ref := h.table
  exact returns_scan (returns_mono (h.sets same) fun _ _ reached => reached.1)

/-- If no row is left then all were told. The search ends before the fuel does. -/
theorem Telling.seeks (h : s.Telling r ref kept told) (some : 0 < fuel)
    (enough : (s.catalog.table ref).pages ≤ (s.scans.getD r default).page + fuel) :
    (seek r fuel).Ends s (Returns fun more t =>
      t.Telling r ref kept told ∧ (more = false → ∀ n, Covers kept n told)) := by
  induction fuel generalizing s with
  | zero => exact absurd some (Nat.lt_irrefl 0)
  | succ fuel ih =>
    refine returns_scan ?_
    obtain ⟨browses, rest, unread, ascends, covers⟩ := h
    have table := browses.table
    generalize at_r : s.scans.getD r default = here at *
    dsimp only
    rw [unread]
    cases rest with
    | cons row rest =>
      exact ⟨⟨browses, by rw [at_r]; exact ⟨_, unread, ascends, covers⟩⟩, fun never => by cases never⟩
    | nil =>
      refine returns_bind (pageCount_returns _) ?_
      rintro n _ ⟨rfl, rfl⟩
      split
      · rename_i last
        rw [table] at last
        refine ⟨⟨browses, by rw [at_r]; exact ⟨_, unread, ascends, covers⟩⟩,
          fun _ n p row listed _ => ?_⟩
        have inside := (browses.lodges p row listed).inside
        simpa using covers p row listed (by omega)
      · rename_i further
        rw [table] at further
        refine returns_bind (browses.sets table) fun _ t reached => ?_
        obtain ⟨browses, -, catalog⟩ := reached
        refine returns_bind (browses.fetches table _) fun rows u reached => ?_
        obtain ⟨browses, -, catalog', ascends', covers'⟩ := reached
        rw [List.append_nil] at ascends covers
        refine returns_bind (browses.tells table rfl (ascends.append ascends' (Nat.lt_succ_self _))
          (covers.append covers')) fun _ v reached => ?_
        obtain ⟨telling, now, catalog''⟩ := reached
        -- one page more and one unit of fuel less
        refine ih telling (by omega) ?_
        rw [now, catalog'', catalog', catalog]
        dsimp only
        omega

theorem Telling.searches (h : s.Telling r ref kept told) :
    (hasNext r).Ends s (Returns fun more t =>
      t.Telling r ref kept told ∧ (more = false → ∀ n, Covers kept n told)) :=
  returns_scan (returns_bind (P := fun got t => got = s ∧ t = s) ⟨rfl, rfl⟩ fun _ _ same => by
    obtain ⟨rfl, rfl⟩ := same
    rw [h.table]
    exact h.seeks (by omega) (by omega))

theorem Telling.advances (h : s.Telling r ref kept told) :
    (nextRow r).Ends s (Returns fun row t => t.Telling r ref kept (told ++ [row])) := by
  refine returns_bind h.searches fun more t reached => ?_
  split
  · refine returns_scan ?_
    obtain ⟨⟨browses, rest, unread, ascends, covers⟩, -⟩ := reached
    have table := browses.table
    generalize t.scans.getD r default = here at *
    rw [unread]
    cases rest with
    | nil => trivial
    | cons row rest =>
      have split : told ++ row :: rest = told ++ [row] ++ rest := by
        rw [List.append_assoc, List.singleton_append]
      rw [split] at ascends covers
      refine returns_bind (browses.tells ?_ rfl ascends covers) fun _ u reached => reached.1
      exact table
  · trivial

end Store

namespace Session
open Store

variable {P : Session} {es : List Event} {e : Event} {reply : Reply} {s : Store} {tx : TxId}
  {ref : TableRef} {k r : Nat} {st : ScanStep} {a : Answer} {told : List Row}
  {kept : RecordId → Row → Prop} {p : RecordId} {row : Row}

theorem settled_of_iterate (told : P.outcome? (.op tx (.iterate k st)) = some (reply, s))
    (used : P.used? (.op tx (.iterate k .start)) = some r) :
    settle (st.perform r) P.store = some (reply, s) := by
  obtain ⟨c, x, client, found, settled⟩ := settled_of_op told
  obtain ⟨r', mine, rfl⟩ := Option.map_eq_some_iff.mp found
  obtain ⟨c', client', mine'⟩ := used?_iterate_iff.mp used
  cases client.symm.trans client'
  cases mine.symm.trans mine'
  exact settled

/-- A step that does nothing but look leaves a row where it is. -/
theorem lodges_of_step (h : P.store.Guarded) (told : P.outcome? e = some (reply, s))
    (reads : e.reads = true) (lodges : P.store.Lodges ref p row) : s.Lodges ref p row := by
  cases e with
  | begin =>
    cases told
    exact lodges.congr rfl fun _ _ firm => ⟨firm.reads, firm.clean⟩
  | op u o =>
    have leaves := leaves_of_looking h told (by simpa [Event.reads] using reads)
    exact lodges.congr leaves.same leaves.firm
  | commit | abort | drop | flushPage | flushAll | discard | addTable => cases reads

/-- In every state of a run the rows are at their places. -/
def Stays (ref : TableRef) (kept : RecordId → Row → Prop) (P : Session) (es : List Event) : Prop :=
  ∀ before later T, es = before ++ later → P.run before = some T →
    ∀ p row, kept p row → T.store.Lodges ref p row

theorem Stays.first (h : Stays ref kept P es) : ∀ p row, kept p row → P.store.Lodges ref p row :=
  h [] es P rfl rfl

theorem Stays.step (h : Stays ref kept P (e :: es)) (next : P.outcome? e = some (reply, s)) :
    Stays ref kept (P.after e reply s) es := by
  rintro before later T rfl ran
  refine h (e :: before) later T rfl ?_
  rw [run_cons, step_of_outcome? next]
  exact ran

/-- A scan of a session, whose tables may share their files and ids. -/
structure Roams (tx : TxId) (k r : Nat) (ref : TableRef) (P : Session) : Prop
    extends Scans tx k r ref P where
  isolated : ∃ past, Isolated past P
  assigned : P.Assigned
  old : tx < P.store.nextTx
  opened : ref < P.store.catalog.opened.size
  few : (P.store.catalog.table ref).layout.slots ≤ UInt16.size

theorem Roams.guarded (h : Roams tx k r ref P) : P.store.Guarded := by
  obtain ⟨past, isolated⟩ := h.isolated
  exact isolated.guarded

theorem Roams.browses (h : Roams tx k r ref P) (stays : Stays ref kept P es) :
    P.store.Browses r ref kept :=
  ⟨h.guarded, (h.reads h.assigned).1, h.table, h.few, stays.first⟩

theorem Roams.step (h : Roams tx k r ref P) (next : P.outcome? e = some (reply, s)) :
    Roams tx k r ref (P.after e reply s) := by
  obtain ⟨past, isolated⟩ := h.isolated
  have stepped := step_of_outcome? next
  have extends' := isolated.extends stepped
  refine ⟨h.toScans.after h.assigned h.old next, ⟨_, isolated.step stepped⟩, h.assigned.step next,
    Nat.lt_of_lt_of_le h.old (nextTx_of_step h.guarded next),
    Nat.lt_of_lt_of_le h.opened extends'.size, ?_⟩
  rw [extends'.table ref h.opened]
  exact h.few

theorem Roams.other (h : Roams tx k r ref P) (telling : P.store.Telling r ref kept told)
    (next : P.outcome? e = some (reply, s)) (stays : Stays ref kept (P.after e reply s) es)
    (other : ∀ st, e ≠ .op tx (.iterate k st)) : s.Telling r ref kept told := by
  refine ⟨(h.step next).browses stays, ?_⟩
  rw [(h.assigned.sparse next).others r telling.valid fun same => ?_]
  · exact telling.ascends
  · obtain ⟨st, rfl⟩ := iterates_of_used h.assigned h.used same
    exact other st rfl

theorem Roams.opens (h : Roams tx k r ref P) (stays : Stays ref kept P es)
    (opens : st = .start ∨ st = .restart)
    (next : P.outcome? (.op tx (.iterate k st)) = some (.ok a, s)) : s.Telling r ref kept [] := by
  have ends : (st.perform r).Ends P.store (Returns fun _ t => t.Telling r ref kept []) := by
    rcases opens with rfl | rfl
    · exact returns_bind (h.browses stays).opens fun _ _ telling => telling
    · exact returns_bind (returns_bind (h.browses stays).closes fun _ _ browses => browses.opens)
        fun _ _ telling => telling
  exact settle_eq_some ends (settled_of_iterate next h.used)

theorem Roams.hasNext {more : Bool} (h : Roams tx k r ref P) (telling : P.store.Telling r ref kept told)
    (next : P.outcome? (.op tx (.iterate k .hasNext)) = some (.ok (.more more), s)) :
    s.Telling r ref kept told ∧ (more = false → ∀ n, Covers kept n told) := by
  have ends : (ScanStep.hasNext.perform r).Ends P.store (Returns fun answer t => ∃ more,
      answer = .more more ∧ t.Telling r ref kept told ∧ (more = false → ∀ n, Covers kept n told)) :=
    returns_bind telling.searches fun more _ reached => ⟨more, rfl, reached⟩
  obtain ⟨_, same, reached⟩ := settle_eq_some ends (settled_of_iterate next h.used)
  cases same
  exact reached

theorem Roams.next (h : Roams tx k r ref P) (telling : P.store.Telling r ref kept told)
    (next : P.outcome? (.op tx (.iterate k .next)) = some (.ok (.row row), s)) :
    s.Telling r ref kept (told ++ [row]) := by
  have ends : (ScanStep.next.perform r).Ends P.store
      (Returns fun answer t => ∃ row, answer = .row row ∧ t.Telling r ref kept (told ++ [row])) :=
    returns_bind telling.advances fun row _ telling => ⟨row, rfl, telling⟩
  obtain ⟨_, same, telling⟩ := settle_eq_some ends (settled_of_iterate next h.used)
  cases same
  exact telling

theorem Roams.rest (h : Roams tx k r ref P) (telling : P.store.Telling r ref kept told)
    (stays : Stays ref kept P es)
    (rest : restRows? (scanSteps tx k (P.trace es)) = some rows) :
    ((told ++ rows).map Row.record).Nodup ∧ ∀ p row, kept p row → row ∈ told ++ rows := by
  induction es generalizing P told rows with
  | nil => cases rest
  | cons e es ih =>
    cases next : P.outcome? e with
    | none =>
      rw [trace, next] at rest
      cases rest
    | some pair =>
      obtain ⟨reply, s⟩ := pair
      by_cases own : ∃ st, e = .op tx (.iterate k st)
      · obtain ⟨st, rfl⟩ := own
        rw [scanSteps_own next] at rest
        rcases restRows?_cons rest with
          ⟨rfl, rfl, rfl⟩ | ⟨rfl, rfl, onward⟩ | ⟨row, rows', rfl, rfl, onward, rfl⟩
        · obtain ⟨⟨-, left, -, ascends, -⟩, covers⟩ := h.hasNext telling next
          have nodup := ascends.nodup
          rw [List.map_append] at nodup
          rw [List.append_nil]
          exact ⟨nodup.of_append_left, fun p row listed => covers rfl _ p row listed (Nat.le_refl _)⟩
        · exact ih (h.step next) (h.hasNext telling next).1 (stays.step next) onward
        · have later := ih (h.step next) (h.next telling next) (stays.step next) onward
          rwa [List.append_assoc, List.singleton_append] at later
      · have other : ∀ st, e ≠ .op tx (.iterate k st) := fun st same => own ⟨st, same⟩
        rw [scanSteps_other next other] at rest
        exact ih (h.step next) (h.other telling next (stays.step next) other) (stays.step next) rest

/-- The rows that a full scan tells have different record ids, and those that stay at their places
meanwhile are among them. -/
theorem Roams.tells (h : Roams tx k r ref P) (stays : Stays ref kept P es)
    (full : fullScan? (scanSteps tx k (P.trace es)) = some rows) :
    (rows.map Row.record).Nodup ∧ ∀ p row, kept p row → row ∈ rows := by
  induction es generalizing P with
  | nil => cases full
  | cons e es ih =>
    cases next : P.outcome? e with
    | none =>
      rw [trace, next] at full
      cases full
    | some pair =>
      obtain ⟨reply, s⟩ := pair
      by_cases own : ∃ st, e = .op tx (.iterate k st)
      · obtain ⟨st, rfl⟩ := own
        rw [scanSteps_own next] at full
        obtain ⟨opens, rfl, rest⟩ := fullScan?_cons full
        exact (h.step next).rest (h.opens stays opens next) (stays.step next) rest
      · have other : ∀ st, e ≠ .op tx (.iterate k st) := fun st same => own ⟨st, same⟩
        rw [scanSteps_other next other] at full
        exact ih (h.step next) (stays.step next) full

end Session
end HeapStore
