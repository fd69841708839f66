import HeapStore.Proofs.Recovery
import HeapStore.Proofs.Tracing

/-! Commits are durable. What a transaction has made of the pages that it changed is on disk once it
is committed, wherever it was kept until then. -/
namespace HeapStore.Session
open Store

variable {S : Session} {es : List Event} {settings : Settings} {disk : Disk} {tx : TxId} {id : PageId}

/-- A commit succeeds and changes what is on none of the pages. It writes no page that another
transaction has dirty. Each page that its transaction has ever changed is then on disk as it is read,
and as the last of these changes has left it. -/
theorem commit_durable (ran : (start (Store.new settings disk)).run es = some S)
    (distinct : S.store.catalog.Distinct) (running : S.running tx = true) :
    ∃ S', S.step (.commit tx) = some S' ∧ S'.replies = S.replies ++ [.ok .done] ∧
      (∀ id, S'.store.content id = S.store.content id) ∧
      (∀ id, S.store.owner id ≠ some tx →
        S'.store.owner id = S.store.owner id ∧ S'.store.saved id = S.store.saved id) ∧
      (∀ id, (tx, id) ∈ (start (Store.new settings disk)).changes es →
        S'.store.saved id = S'.store.content id) ∧
      ∀ first rest M id, es = first ++ rest → (start (Store.new settings disk)).run first = some M →
        (tx, id) ∈ (start (Store.new settings disk)).changes first → (tx, id) ∉ M.changes rest →
        Event.discard id ∉ rest → S'.store.saved id = M.store.content id := by
  have fresh : Orderly settings (start (Store.new settings disk)) :=
    orderly_run (run_nil _) fun i never => absurd never (Nat.not_lt_zero i)
  have orderly := orderly_run ran distinct
  obtain ⟨s, settled, completed⟩ := settle_returns (commit_completes orderly.coherent tx)
  have content : ∀ id, s.content id = S.store.content id := by
    intro id
    by_cases mine : S.store.owner id = some tx
    · exact (completed.landed id mine).2.1
    · exact (completed.others id mine).2.1
  have durable : ∀ id, S.store.owner id = some tx ∨ S.store.owner id = none →
      s.saved id = S.store.content id := by
    rintro id (mine | clean)
    · exact (completed.landed id mine).2.2
    · rw [(completed.others id (by simp [clean])).2.2, orderly.coherent.content_of_clean clean]
  refine ⟨_, step_eq_some_iff.mpr ⟨_, _, s, action?_commit_eq_some_iff.mpr ⟨running, rfl⟩, settled, rfl⟩,
    rfl, content, fun id other => ?_, fun id changed => ?_, ?_⟩
  · obtain ⟨owner, -, saved⟩ := completed.others id other
    exact ⟨owner, saved⟩
  · obtain ⟨held, -⟩ := fresh.held_of_changes ran distinct running changed
    exact (durable id (orderly.guarded.owner_of_held held)).trans (content id).symm
  · rintro first rest M id rfl ran' changed still kept
    rw [run_append, ran'] at ran
    have distinct' := ((isolated_run ran').extends_run ran).distinct distinct
    have before := orderly_run ran' distinct'
    have old := fresh.started_of_changes ran' distinct' changed
    have running' := before.running_run ran distinct running old
    obtain ⟨held, has⟩ := fresh.held_of_changes ran' distinct' running' changed
    have later := before.held_run ran distinct running old held
    have here := before.has_run ran distinct has
    have ⟨ref, known, _⟩ := has
    have total := before.total_run ran distinct running old held known still kept
    rw [total_of_has here, total_of_has has] at total
    exact (durable id (orderly.guarded.owner_of_held later)).trans total

/-- The page that was written through is denied to another transaction, and the cached one is changed
once more. -/
def throughDenied : List Event :=
  [.begin, .op 2 (.insert 2 ⟨⟨[⟨.integer, some "n"⟩]⟩, [.integer 9], none⟩),
    .op 1 (.delete (some ⟨⟨1, 0⟩, 0⟩))]

theorem commit_durable_through :
    let fresh := start (Store.new { pageSize := 16, poolPages := 1 })
    ∃ M S S', fresh.run throughChange = some M ∧ M.run throughDenied = some S ∧
      S.step (.commit 1) = some S' ∧ S.store.owner ⟨2, 0⟩ = none ∧ S.store.owner ⟨1, 0⟩ = some 1 ∧
      S'.store.saved ⟨1, 0⟩ = S'.store.content ⟨1, 0⟩ ∧
      S'.store.saved ⟨2, 0⟩ = M.store.content ⟨2, 0⟩ := by
  intro fresh
  have facts : (fresh.run throughChange).any (fun M =>
      (1, ⟨2, 0⟩) ∈ fresh.changes throughChange ∧
      (1, ⟨1, 0⟩) ∈ fresh.changes (throughChange ++ throughDenied) ∧
      (1, ⟨2, 0⟩) ∉ M.changes throughDenied ∧ (M.run throughDenied).any (fun S =>
        S.store.catalog.Distinct ∧ S.running 1 = true ∧ S.store.owner ⟨2, 0⟩ = none ∧
        S.store.owner ⟨1, 0⟩ = some 1) = true) = true := by
    decide +kernel
  obtain ⟨M, ran, facts⟩ := (Option.any_eq_true _ _).mp facts
  obtain ⟨through, cached, still, facts⟩ := of_decide_eq_true facts
  obtain ⟨S, ran', facts⟩ := (Option.any_eq_true _ _).mp facts
  obtain ⟨distinct, running, clean, dirty⟩ := of_decide_eq_true facts
  have whole : fresh.run (throughChange ++ throughDenied) = some S := by
    rw [run_append, ran]
    exact ran'
  obtain ⟨S', stepped, -, -, -, durable, last⟩ := commit_durable whole distinct running
  exact ⟨M, S, S', ran, ran', stepped, clean, dirty, durable ⟨1, 0⟩ cached,
    last throughChange throughDenied M ⟨2, 0⟩ rfl ran through still (by simp [throughDenied])⟩

end HeapStore.Session
