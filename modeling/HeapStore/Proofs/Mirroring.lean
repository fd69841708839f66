import HeapStore.Proofs.Browsing

/-! Whole steps of a transaction, done again by one that is alone: they answer the same and change the
same pages to hold the same. -/
namespace HeapStore

/-- The scans that can be used once a step was taken, if it can be taken. A scan can be used once it is
open, until its transaction changes something. -/
def Op.usable? (usable : List Nat) : Op → Option (List Nat)
  | .insert _ _ | .delete _ => some []
  | .scan _ => some usable
  | .iterate k .start | .iterate k .restart => some (k :: usable)
  | .iterate k .close => some (usable.filter (· ≠ k))
  | .iterate k .hasNext | .iterate k .next => if k ∈ usable then some usable else none

namespace Plain

variable {v v' w w' : Plain} {tx u t : TxId} {scans scans' : List ScanRef} {usable usable' : List Nat}
  {o : Op} {y : Act Outcome} {out : Outcome} {own own' : Option ScanRef} {k : Nat} {r r' : ScanRef}

/-- The scans of both transactions go together. Those that can be used are abreast. -/
structure Level (tx u : TxId) (scans scans' : List ScanRef) (usable : List Nat) (v w : Plain) : Prop where
  length : scans'.length = scans.length
  reads : ∀ (k : Nat) r r', scans[k]? = some r → scans'[k]? = some r' → ∃ ref,
    v.catalog.ref (v.catalog.table ref).id = .ok ref ∧ v.Reads r { table := ref, tx } ∧
      w.Reads r' { table := ref, tx := u }
  abreast : ∀ k ∈ usable, ∃ r r', scans[k]? = some r ∧ scans'[k]? = some r' ∧ Abreast tx v w r r'

/-- The scans of a transaction once it has taken a step that answers. -/
def scansAfter (v : Plain) (scans : List ScanRef) : Op → List ScanRef
  | .scan _ => scans ++ [v.scans.size]
  | _ => scans

theorem Level.there (h : Level tx u scans scans' usable v w) (mine : scans[k]? = some r) :
    ∃ r', scans'[k]? = some r' :=
  ⟨_, List.getElem?_eq_getElem (h.length ▸ (List.getElem?_eq_some_iff.mp mine).1)⟩

theorem Level.mono (h : Level tx u scans scans' usable v w) (le : ∀ k ∈ usable', k ∈ usable) :
    Level tx u scans scans' usable' v w :=
  ⟨h.length, h.reads, fun k listed => h.abreast k (le k listed)⟩

theorem Level.idle (h : Level tx u scans scans' usable v w) : Level tx u scans scans' [] v w :=
  h.mono (by simp)

theorem Level.cons (h : Level tx u scans scans' usable v w) (mine : scans[k]? = some r)
    (mine' : scans'[k]? = some r') (abreast : Abreast tx v w r r') :
    Level tx u scans scans' (k :: usable) v w := by
  refine ⟨h.length, h.reads, fun j listed => ?_⟩
  rcases List.mem_cons.mp listed with rfl | before
  · exact ⟨r, r', mine, mine', abreast⟩
  · exact h.abreast j before

/-- What other scans do is of no concern. -/
theorem Level.moves (h : Level tx u scans scans' usable v w) (kin : v.catalog.Kin w.catalog)
    (moves : Moves t own v v') (moves' : Moves u own' w w')
    (others : ∀ k ∈ usable, own ≠ scans[k]? ∧ own' ≠ scans'[k]?) :
    Level tx u scans scans' usable v' w' := by
  refine ⟨h.length, fun k r r' mine mine' => ?_, fun k listed => ?_⟩
  · obtain ⟨ref, known, reads, reads'⟩ := h.reads k r r' mine mine'
    exact ⟨ref, by rw [moves.kin.key, moves.kin.ref, known], moves.reads reads, moves'.reads reads'⟩
  · obtain ⟨r, r', mine, mine', abreast⟩ := h.abreast k listed
    obtain ⟨ref, known, reads, reads'⟩ := h.reads k r r' mine mine'
    obtain ⟨other, other'⟩ := others k listed
    rw [mine] at other
    rw [mine'] at other'
    exact ⟨r, r', mine, mine', abreast.moves moves moves' other other' kin known reads reads'⟩

/-- Nothing that happens to pages matters once no scan can be used. -/
theorem Level.changed (h : Level tx u scans scans' [] v w) (change : Option (PageId × Bytes)) :
    Level tx u scans scans' [] (v.changed change) (w.changed change) := by
  cases change with
  | none => exact h
  | some page => exact ⟨h.length, h.reads, fun k never => by cases never⟩

/-! New scans -/

theorem newScan_ok {table : TableId} (ended : newScan tx table v = .ok r v') : ∃ ref,
    v.catalog.ref table = .ok ref ∧ v' = { v with scans := v.scans.push { table := ref, tx } } := by
  replace ended := get_bind_eq_ok_iff.mp ended
  obtain ⟨ref, known, ended⟩ := ofCause_bind_eq_ok_iff.mp ended
  cases ended
  exact ⟨ref, known, rfl⟩

theorem newScan_eq {table : TableId} {ref : TableRef} (known : w.catalog.ref table = .ok ref) (u : TxId) :
    newScan u table w = .ok w.scans.size { w with scans := w.scans.push { table := ref, tx := u } } := by
  simp only [newScan, bind_eq, get_eq, known]
  rfl

theorem reads_push (v : Plain) (sc : Scan) :
    Reads { v with scans := v.scans.push sc } v.scans.size sc := by
  simp [Reads, Array.getD_eq_getD_getElem?]

theorem getElem?_snoc {a b : ScanRef} (found : (scans ++ [a])[k]? = some b) :
    scans[k]? = some b ∨ k = scans.length ∧ a = b := by
  rw [List.getElem?_append] at found
  split at found
  · exact Or.inl found
  · rw [List.getElem?_singleton] at found
    split at found
    · exact Or.inr ⟨by omega, Option.some.inj found⟩
    · cases found

theorem Level.snoc (h : Level tx u scans scans' usable v w) {ref : TableRef}
    (known : v.catalog.ref (v.catalog.table ref).id = .ok ref) (reads : v.Reads r { table := ref, tx })
    (reads' : w.Reads r' { table := ref, tx := u }) :
    Level tx u (scans ++ [r]) (scans' ++ [r']) usable v w := by
  refine ⟨by simp [h.length], fun k a b mine mine' => ?_, fun k listed => ?_⟩
  · rcases getElem?_snoc mine with old | ⟨last, rfl⟩ <;> rcases getElem?_snoc mine' with old' | ⟨last', rfl⟩
    · exact h.reads k a b old old'
    · have := (List.getElem?_eq_some_iff.mp old).1
      have := h.length
      omega
    · have := (List.getElem?_eq_some_iff.mp old').1
      have := h.length
      omega
    · exact ⟨ref, known, reads, reads'⟩
  · obtain ⟨a, b, mine, mine', abreast⟩ := h.abreast k listed
    refine ⟨a, b, ?_, ?_, abreast⟩
    · exact (List.getElem?_append_left (List.getElem?_eq_some_iff.mp mine).1).trans mine
    · exact (List.getElem?_append_left (List.getElem?_eq_some_iff.mp mine').1).trans mine'

theorem Level.newScan (h : Level tx u scans scans' usable v w) (mirrors : Mirrors tx u v v' w)
    {table : TableId} (ended : newScan tx table v = .ok r v') : ∃ w',
      newScan u table w = .ok w.scans.size w' ∧ Bounded v' w w' ∧
        Level tx u (scans ++ [v.scans.size]) (scans' ++ [w.scans.size]) usable v' w' := by
  have moves : Moves tx none v v' := (moving_newScan tx table v).of_ok ended
  obtain ⟨ref, known, rfl⟩ := newScan_ok ended
  have ended' := newScan_eq ((mirrors.kin.ref table).trans known) u
  have moves' : Moves u none w _ := (moving_newScan u table w).of_ok ended'
  obtain ⟨-, key⟩ := mirrors.keyed _ _ known
  have old := h.moves mirrors.kin moves moves' fun k listed => by
    obtain ⟨r, r', mine, mine', -⟩ := h.abreast k listed
    simp [mine, mine']
  exact ⟨_, ended', fun _ => Nat.le_max_left _ _,
    old.snoc (by rw [key, known]) (reads_push v _) (reads_push w _)⟩

/-! Steps of scans -/

theorem getElem?_ne (once : scans.Nodup) {j : Nat} (ne : j ≠ k) (mine : scans[k]? = some r) :
    some r ≠ scans[j]? := by
  intro same
  have below := (List.getElem?_eq_some_iff.mp mine).1
  exact ne ((List.getElem?_inj below once).mp (mine.trans same)).symm

theorem Level.iterate {step : ScanStep} (h : Level tx u scans scans' usable v w)
    (mirrors : Mirrors tx u v v' w) (once : scans.Nodup) (once' : scans'.Nodup)
    (may : (Op.iterate k step).usable? usable = some usable') (mine : scans[k]? = some r)
    (mine' : scans'[k]? = some r') (ended : performScan r step v = .ok out v') : ∃ w',
      performScan r' step w = .ok out w' ∧ Bounded v' w w' ∧ Level tx u scans scans' usable' v' w' := by
  obtain ⟨ref, known, reads, reads'⟩ := h.reads k r r' mine mine'
  have live : step = .hasNext ∨ step = .next → Abreast tx v w r r' := by
    intro uses
    have listed : k ∈ usable := by
      rcases uses with rfl | rfl <;> simp only [Op.usable?] at may <;> split at may <;>
        first | assumption | cases may
    obtain ⟨a, b, same, same', abreast⟩ := h.abreast k listed
    cases same.symm.trans mine
    cases same'.symm.trans mine'
    exact abreast
  obtain ⟨w', ended', abreast⟩ := performScan_mirrors mirrors known reads reads' live ended
  have moves := (moving_performScan reads step).of_ok ended
  have moves' := (moving_performScan reads' step).of_ok ended'
  have others : Level tx u scans scans' (usable.filter (· ≠ k)) v' w' := by
    refine (h.mono fun j listed => (List.mem_filter.mp listed).1).moves mirrors.kin moves moves'
      fun j listed => ?_
    have ne : j ≠ k := of_decide_eq_true (List.mem_filter.mp listed).2
    exact ⟨getElem?_ne once ne mine, getElem?_ne once' ne mine'⟩
  have bounded : Bounded v' w w' := fun k => by
    rw [moves'.still (by simp)]
    exact Nat.le_max_left _ _
  refine ⟨w', ended', bounded, ?_⟩
  have all : step ≠ .close → ∀ j ∈ usable', j ∈ k :: usable.filter (· ≠ k) := by
    intro open_ j listed
    by_cases here : j = k
    · exact here ▸ List.mem_cons_self ..
    · have before : j ∈ usable := by
        cases step with
        | close => exact absurd rfl open_
        | start | restart =>
          cases may
          exact (List.mem_cons.mp listed).resolve_left here
        | hasNext | next =>
          simp only [Op.usable?] at may
          split at may
          · cases may
            exact listed
          · cases may
      exact List.mem_cons_of_mem _ (List.mem_filter.mpr ⟨before, decide_eq_true here⟩)
  by_cases closes : step = .close
  · subst closes
    cases may
    exact others
  · exact (others.cons mine mine' (abreast closes)).mono (all closes)

/-! Steps -/

/-- Each step is taken alike on both sides. -/
theorem perform_mirrors (h : Mirrors tx u v v' w) (level : Level tx u scans scans' usable v w)
    (once : scans.Nodup) (once' : scans'.Nodup) (may : o.usable? usable = some usable')
    (found : perform? tx scans o = some y) (ended : y v = .ok out v') : ∃ y' w',
      perform? u scans' o = some y' ∧ y' w = .ok out w' ∧ Bounded v' w w' ∧
        Level tx u (scansAfter v scans o) (scansAfter w scans' o) usable' (v'.changed out.change)
          (w'.changed out.change) := by
  cases o with
  | insert table row =>
    cases found
    cases may
    obtain ⟨w', ended', bounded⟩ := insertRow_mirrors h ended
    have moves := (moving_insertRow h.keyed tx table row).of_ok ended
    have moves' := (moving_insertRow (h.kin.keyed h.keyed) u table row).of_ok ended'
    have idle := level.idle.moves h.kin moves moves' (by simp)
    exact ⟨_, w', rfl, ended', bounded, idle.changed _⟩
  | delete record? =>
    cases found
    cases may
    obtain ⟨w', ended', bounded⟩ := deleteRow_mirrors h ended
    have moves : Moves tx none v _ := (moving_deleteRow tx record? v).of_ok ended
    have moves' : Moves u none w _ := (moving_deleteRow u record? w).of_ok ended'
    have idle := level.idle.moves h.kin moves moves' (by simp)
    exact ⟨_, w', rfl, ended', bounded, idle.changed _⟩
  | scan table =>
    cases found
    cases may
    obtain ⟨r, x, made, rest⟩ := bind_eq_ok_iff.mp ended
    cases rest
    obtain ⟨w', made', bounded, level'⟩ := level.newScan h made
    refine ⟨_, w', rfl, ?_, bounded, level'⟩
    simp only [bind_eq, made']
    rfl
  | iterate k step =>
    obtain ⟨r, mine, rfl⟩ := Option.map_eq_some_iff.mp found
    obtain ⟨r', mine'⟩ := level.there mine
    obtain ⟨w', ended', bounded, level'⟩ := level.iterate h once once' may mine mine' ended
    refine ⟨performScan r' step, w', ?_, ended', bounded, ?_⟩
    · rw [perform?, mine']
      rfl
    · rw [performScan_quiet ended]
      exact level'

end Plain
end HeapStore
