import HeapStore.Proofs.Calling
import HeapStore.Proofs.Encoding

/-! Writing through page handles. A handle is one of an image, which may have left the pool by the time it is
written to. If its page was changed before, the image stays. If not, another one may have taken its place. -/
namespace HeapStore

namespace Store
open HeapStore.Action

variable {s s₁ s₂ t u : Store} {p : PageId} {r : PageRef} {tx : TxId} {h : Handle} {off : Nat}
  {new bytes : Bytes} {past since : List (Call × Reply)} {settings : Settings} {disk : Disk}

theorem follow_retains (pooled : s.Pooled) (ran : s.follow since = some t) : s.pool.Retains t.pool := by
  have kept := follow_induction (P := fun _ t => t.Pooled ∧ s.pool.Retains t.pool) [] ?_
    ⟨pooled, .refl s.pool⟩ ran
  · exact kept.2
  · rintro past u c reply v ⟨pooled, retains⟩ settled distinct
    have moves := call_moves pooled settled distinct
    exact ⟨moves.pooled, retains.trans moves.retains⟩

/-- A page that is changed stays the same image, as long as nothing is written for the sake of it and nothing
is taken back. -/
theorem follow_pins (pooled : s.Pooled) (ran : s.follow since = some t)
    (keeps : ∀ told ∈ since, told.1.Keeps) (pins : s.pool.Pins p r) : t.pool.Pins p r := by
  induction since generalizing s with
  | nil =>
    cases ran
    exact pins
  | cons told since ih =>
    obtain ⟨c, reply⟩ := told
    obtain ⟨u, settled, distinct, later⟩ := follow_cons_iff.mp ran
    have moves := call_moves pooled settled distinct
    apply ih moves.pooled later
    · exact fun told there => keeps told (List.mem_cons_of_mem _ there)
    · exact moves.pins (keeps (c, reply) List.mem_cons_self) p r pins

/-- Bytes that have room are written through an exclusive handle. -/
theorem writeMarked_eq (exclusive : h.mode = .exclusive)
    (patched : (s.pool.page h.ref).bytes.patch? off new = some bytes) :
    writeMarked h off new tx s = .ok () { s with
      pool := s.pool.update h.ref fun _ => ⟨(s.pool.page h.ref).id, bytes, some tx⟩ } := by
  have written : (s.pool.page h.ref).overwrite? off new = some { s.pool.page h.ref with bytes } := by
    rw [Page.overwrite?, patched]
    rfl
  have ends : (writeMarked h off new tx).Ends s fun answer t => answer = .ok () ∧ t = { s with
      pool := s.pool.update h.ref fun _ => ⟨(s.pool.page h.ref).id, bytes, some tx⟩ } := by
    rw [ends_writeMarked, exclusive, written]
    exact ⟨rfl, rfl⟩
  obtain ⟨t, ended, rfl⟩ := ends.exists_ok
  exact ended

/-- A commit writes what its transaction has changed, and nothing else. -/
theorem commit_saves (pooled : s.Pooled) (tx : TxId) : ∃ t, complete tx true s = .ok () t ∧ t.Pooled ∧
    t.catalog = s.catalog ∧ ∀ id, t.content id = s.content id ∧
      t.saved id = if s.owner id = some tx then s.content id else s.saved id := by
  obtain ⟨t, ended, u, lands, rfl⟩ := (complete_lands pooled tx true).exists_ok
  refine ⟨_, ended, lands.pooled.withLocks _, lands.catalog, fun id => ?_⟩
  obtain ⟨locks, q, b, ⟨rfl, rfl⟩, landed⟩ := lands.landed
  by_cases mine : s.owner id = some tx
  · obtain ⟨-, content, saved⟩ := landed.landed id mine
    rw [if_pos mine]
    exact ⟨content, saved⟩
  · obtain ⟨-, content, saved⟩ := landed.others id mine
    rw [if_neg mine]
    exact ⟨content, saved⟩

theorem Pooled.readPage_eq (pooled : s.Pooled) (has : s.catalog.Has p) : readPage p s = .ok (s.saved p) s := by
  obtain ⟨locks, coherent⟩ := pooled.coherent
  exact readPage_eq_ok_iff.mpr (coherent.onDisk_eq has)

/-- Bytes that are written through the handle of the cached image are what is on disk after a commit. -/
theorem handle_write_saved (pooled : s.Pooled) (cached : s.pool.resident? p = some h.ref)
    (size : bytes.size = (s.pool.page h.ref).bytes.size)
    (same : u = { s with
      pool := s.pool.update h.ref fun _ => ⟨(s.pool.page h.ref).id, bytes, some tx⟩ }) :
    ∃ t, complete tx true u = .ok () t ∧ readPage p t = .ok bytes t := by
  have image : u.pool.image? p = some ⟨(s.pool.page h.ref).id, bytes, some tx⟩ := by
    rw [same, pooled.sound.image?_update, if_pos cached]
  have marked : u.Pooled := by
    rw [same]
    exact pooled.marking (p := ⟨(s.pool.page h.ref).id, bytes, none⟩) rfl size tx
  have has : s.catalog.Has p := by
    obtain ⟨locks, coherent⟩ := pooled.coherent
    exact coherent.has p _ (image?_of_resident cached)
  have owner : u.owner p = some tx := by
    rw [owner, image]
    rfl
  have content : u.content p = bytes := by
    rw [content, image]
  obtain ⟨t, ended, pooled', catalog, saves⟩ := commit_saves marked tx
  have there : t.catalog.Has p := by
    rw [catalog, same]
    exact has
  refine ⟨t, ended, ?_⟩
  rw [pooled'.readPage_eq there, (saves p).2, if_pos owner, content]

/-- Bytes that are written through the handle of an image that is in no frame are in no page. -/
theorem handle_write_lost (pooled : s.Pooled) (gone : ∀ id, s.pool.resident? id ≠ some h.ref)
    (size : bytes.size = (s.pool.page h.ref).bytes.size)
    (same : u = { s with
      pool := s.pool.update h.ref fun _ => ⟨(s.pool.page h.ref).id, bytes, some tx⟩ }) :
    ∃ t t', complete tx true u = .ok () t ∧ complete tx true s = .ok () t' ∧
      ∀ id, t.saved id = t'.saved id ∧ t.content id = t'.content id := by
  have image : ∀ id, u.pool.image? id = s.pool.image? id := by
    intro id
    rw [same, pooled.sound.image?_update, if_neg (gone id)]
  have marked : u.Pooled := by
    rw [same]
    exact pooled.marking (p := ⟨(s.pool.page h.ref).id, bytes, none⟩) rfl size tx
  have catalog : u.catalog = s.catalog := by rw [same]
  have disk : u.disk = s.disk := by rw [same]
  have owner : ∀ id, u.owner id = s.owner id := fun id => by rw [owner, image, owner]
  have saved : ∀ id, u.saved id = s.saved id := fun id => by rw [saved, catalog, disk, saved]
  have content : ∀ id, u.content id = s.content id := fun id => content_congr catalog disk (image id)
  obtain ⟨t, ended, -, -, saves⟩ := commit_saves marked tx
  obtain ⟨t', ended', -, -, saves'⟩ := commit_saves pooled tx
  refine ⟨t, t', ended, ended', fun id => ⟨?_, ?_⟩⟩
  · rw [(saves id).2, (saves' id).2, owner, content, saved]
  · rw [(saves id).1, (saves' id).1, content]

/-- The image that a handle is of is cached at first, and stays so if its page has been changed. What is written
to it later is kept exactly if it is cached by then. -/
theorem handle_writes_kept_while_cached (ran : (Store.new settings disk).follow past = some s)
    (got : getPage tx p .exclusive s = .ok h s₁) (ran' : s₁.follow since = some s₂) :
    s₁.pool.resident? p = some h.ref ∧
    (s₁.owner p ≠ none → (∀ told ∈ since, told.1.Keeps) → s₂.pool.resident? p = some h.ref) ∧
    ∀ off new bytes, (s₂.pool.page h.ref).bytes.patch? off new = some bytes →
      ∃ s₃ t, writeMarked h off new tx s₂ = .ok () s₃ ∧ complete tx true s₃ = .ok () t ∧
        bytes.slice? off new.size = some new ∧
        (s₂.pool.resident? p = some h.ref →
          (s₂.pool.page h.ref).bytes = s₂.content p ∧ readPage p t = .ok bytes t) ∧
        (s₂.pool.resident? p ≠ some h.ref → ∃ t', complete tx true s₂ = .ok () t' ∧
          ∀ id, t.saved id = t'.saved id ∧ t.content id = t'.content id) := by
  have pooled : s.Pooled := (follow_pooled (pooled_new settings disk) ran).1
  obtain ⟨exclusive, looked, -, -, cached⟩ := (getPage_obtains pooled tx p .exclusive).of_ok got
  have cached := cached rfl
  have pooled' : s₂.Pooled := (follow_pooled looked.pooled ran').1
  refine ⟨cached, fun owned keeps => ?_, fun off new bytes patched => ?_⟩
  · have dirty : (s₁.pool.page h.ref).isDirty = true := by
      rw [owner, image?_of_resident cached] at owned
      exact Option.isSome_iff_ne_none.mpr owned
    exact (follow_pins looked.pooled ran' keeps ⟨cached, dirty⟩).resident
  · have size := Bytes.size_patch patched
    have told : writeMarked h off new tx s₂ = .ok () _ := writeMarked_eq (exclusive h rfl) patched
    by_cases still : s₂.pool.resident? p = some h.ref
    · obtain ⟨t, ended, read⟩ := handle_write_saved pooled' still size rfl
      refine ⟨_, t, told, ended, Bytes.slice?_patch patched, fun _ => ⟨?_, read⟩, fun gone => absurd still gone⟩
      exact (content_of_resident still).symm
    · have gone : ∀ id, s₂.pool.resident? id ≠ some h.ref := by
        intro id there
        have named := (follow_retains looked.pooled ran' h.ref (looked.pooled.sound.lt_of_resident? cached)).2
        rw [looked.pooled.sound.id_of_resident? cached, pooled'.sound.id_of_resident? there] at named
        exact still (named ▸ there)
      obtain ⟨t, t', ended, ended', same⟩ := handle_write_lost pooled' gone size rfl
      exact ⟨_, t, told, ended, Bytes.slice?_patch patched, fun there => absurd there still,
        fun _ => ⟨t', ended', same⟩⟩

/-- A page is changed before the handle is got, so another page can not take its frame meanwhile. -/
theorem handle_writes_kept_in_full_pool :
    let schema : Schema := ⟨[⟨.integer, some "n"⟩]⟩
    let disk : Disk := ⟨[("odd", ⟨[], 32⟩)]⟩
    let full : Failure := .ofCause (.poolExhausted 1)
    ∃ s h s₁ s₂ s₃ t, (Store.new { pageSize := 16, poolPages := 1 } disk).follow
        [(.serve (.addTable (.loadWithId 1 "odd" "odd" schema "n" 16)), .ok .done),
          (.serve (.insert 1 1 ⟨schema, [.integer 7], none⟩), .ok .done)] = some s ∧
      getPage 1 ⟨1, 0⟩ .exclusive s = .ok h s₁ ∧
      s₁.follow [(.serve (.getPage 1 ⟨1, 1⟩ .shared), .error full)] = some s₂ ∧
      writeMarked h 4 ⟨#[9]⟩ 1 s₂ = .ok () s₃ ∧ complete 1 true s₃ = .ok () t ∧
      readPage ⟨1, 0⟩ t = .ok ⟨#[1, 0, 0, 0, 9, 0, 0, 0, 0, 0, 0, 0, 0, 0, 0, 0]⟩ t := by
  intro schema disk full
  let bytes : Bytes := ⟨#[1, 0, 0, 0, 9, 0, 0, 0, 0, 0, 0, 0, 0, 0, 0, 0]⟩
  have facts : ((Store.new { pageSize := 16, poolPages := 1 } disk).follow
      [(.serve (.addTable (.loadWithId 1 "odd" "odd" schema "n" 16)), .ok .done),
        (.serve (.insert 1 1 ⟨schema, [.integer 7], none⟩), .ok .done)]).any (fun s =>
          ((getPage 1 ⟨1, 0⟩ .exclusive).told? s).any (fun got => got.1 = .ok ⟨0, .exclusive⟩ ∧
            got.2.owner ⟨1, 0⟩ ≠ none ∧
            (got.2.follow [(.serve (.getPage 1 ⟨1, 1⟩ .shared), .error full)]).any (fun s₂ =>
              (s₂.pool.page 0).bytes.patch? 4 ⟨#[9]⟩ = some bytes) = true) = true) = true := by
    decide +kernel
  obtain ⟨s, ran, facts⟩ := exists_of_any facts
  obtain ⟨⟨answer, s₁⟩, got, rfl, owned, facts⟩ := exists_of_any facts
  obtain ⟨s₂, ran', patched⟩ := exists_of_any facts
  have got := told?_eq_ok_iff.mp got
  obtain ⟨-, stays, writes⟩ := handle_writes_kept_while_cached ran got ran'
  obtain ⟨s₃, t, written, ended, -, kept, -⟩ := writes 4 ⟨#[9]⟩ bytes patched
  have still := stays owned fun told there => by
    rw [List.mem_singleton.mp there]
    trivial
  exact ⟨s, _, s₁, s₂, s₃, t, ran, got, ran', written, ended, (kept still).2⟩

/-- Between getting a handle and writing through it another page is looked at, which takes the only frame. -/
theorem handle_write_is_lost :
    let schema : Schema := ⟨[⟨.integer, some "n"⟩]⟩
    let disk : Disk := ⟨[("odd", ⟨[], 32⟩)]⟩
    ∃ s h s₁ s₂ s₃ t t', (Store.new { pageSize := 16, poolPages := 1 } disk).follow
        [(.serve (.addTable (.loadWithId 1 "odd" "odd" schema "n" 16)), .ok .done)] = some s ∧
      getPage 1 ⟨1, 0⟩ .exclusive s = .ok h s₁ ∧
      s₁.follow [(.serve (.getPage 1 ⟨1, 1⟩ .shared), .ok .done)] = some s₂ ∧
      writeMarked h 0 ⟨#[1, 0, 0, 0, 7]⟩ 1 s₂ = .ok () s₃ ∧ complete 1 true s₃ = .ok () t ∧
      readPage ⟨1, 0⟩ t = .ok (.zeros 16) t' := by
  intro schema disk
  have facts : ((Store.new { pageSize := 16, poolPages := 1 } disk).follow
      [(.serve (.addTable (.loadWithId 1 "odd" "odd" schema "n" 16)), .ok .done)]).any (fun s =>
        ((getPage 1 ⟨1, 0⟩ .exclusive).told? s).any (fun got => got.1 = .ok ⟨0, .exclusive⟩ ∧
          (got.2.follow [(.serve (.getPage 1 ⟨1, 1⟩ .shared), .ok .done)]).any (fun s₂ =>
            ((writeMarked ⟨0, .exclusive⟩ 0 ⟨#[1, 0, 0, 0, 7]⟩ 1).told? s₂).any (fun written =>
              written.1 = .ok () ∧ ((complete 1 true).told? written.2).any (fun ended =>
                ended.1 = .ok () ∧ ((readPage ⟨1, 0⟩).told? ended.2).any (fun read =>
                  read.1 = .ok (.zeros 16)) = true) = true) = true) = true) = true) = true := by
    decide +kernel
  obtain ⟨s, ran, facts⟩ := exists_of_any facts
  obtain ⟨⟨answer, s₁⟩, got, rfl, facts⟩ := exists_of_any facts
  obtain ⟨s₂, ran', facts⟩ := exists_of_any facts
  obtain ⟨⟨answer, s₃⟩, written, rfl, facts⟩ := exists_of_any facts
  obtain ⟨⟨answer, t⟩, ended, rfl, facts⟩ := exists_of_any facts
  obtain ⟨⟨answer, t'⟩, read, rfl⟩ := exists_of_any facts
  exact ⟨s, _, s₁, s₂, s₃, t, t', ran, told?_eq_ok_iff.mp got, ran', told?_eq_ok_iff.mp written,
    told?_eq_ok_iff.mp ended, told?_eq_ok_iff.mp read⟩

end Store
end HeapStore
