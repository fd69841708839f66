import HeapStore.Proofs.Coding

/-! Calls to a writer, and the calls to a reader that go with them. A call is refused if it is wider than what is
left of the buffer, and then it is as if it had not been made. What the other calls wrote is read back in their
order, and behind it the buffer is as it was. -/
namespace HeapStore

/-- What can be asked of a writer. -/
inductive WriteCall where
  | u8 (n : UInt8)
  | u32 (n : UInt32)
  | i32 (n : Int32)
  | bytes (b : Bytes)
  | pad (n : Nat)

/-- What can be asked of a reader. -/
inductive ReadCall where
  | u8
  | u32
  | i32
  | bytes (n : Nat)

/-- What a reader answers. -/
inductive Datum where
  | u8 (n : UInt8)
  | u32 (n : UInt32)
  | i32 (n : Int32)
  | bytes (b : Bytes)
  deriving DecidableEq

def ReadCall.perform? (r : Reader) : ReadCall → Option (Datum × Reader)
  | u8 => r.u8?.map fun (n, r) => (.u8 n, r)
  | u32 => r.u32?.map fun (n, r) => (.u32 n, r)
  | i32 => r.i32?.map fun (n, r) => (.i32 n, r)
  | bytes n => (r.take? n).map fun (b, r) => (.bytes b, r)

/-- The answers to calls that are made one after the other. -/
def Reader.ask (r : Reader) : List ReadCall → Option (List Datum × Reader)
  | [] => some ([], r)
  | c :: cs => do
    let (datum, r) ← c.perform? r
    let (data, r) ← ask r cs
    return (datum :: data, r)

namespace WriteCall

variable {w w' : Writer} {b : Bytes}

def width : WriteCall → Nat
  | u8 _ => 1
  | u32 _ => 4
  | i32 _ => 4
  | bytes b => b.size
  | pad n => n

def perform? (w : Writer) : WriteCall → Option Writer
  | u8 n => w.u8? n
  | u32 n => w.u32? n
  | i32 n => w.i32? n
  | bytes b => w.put? b
  | pad n => w.pad? n

/-- The call that reads what was written. Padding is read as bytes. -/
def read : WriteCall → ReadCall
  | u8 _ => .u8
  | u32 _ => .u32
  | i32 _ => .i32
  | bytes b => .bytes b.size
  | pad n => .bytes n

/-- What was written. -/
def datum : WriteCall → Datum
  | u8 n => .u8 n
  | u32 n => .u32 n
  | i32 n => .i32 n
  | bytes b => .bytes b
  | pad n => .bytes (.zeros n)

/-- The bytes that calls take. -/
def span (cs : List WriteCall) : Nat := (cs.map width).foldr (· + ·) 0

/-- Each call writes some bytes, and as many as its width says. -/
theorem exists_put? (c : WriteCall) : ∃ new : Bytes, new.size = c.width ∧ ∀ w, c.perform? w = w.put? new := by
  cases c with
  | u8 n => exact ⟨⟨#[n]⟩, rfl, fun _ => rfl⟩
  | u32 n => exact ⟨.ofUInt32 n, rfl, fun _ => rfl⟩
  | i32 n => exact ⟨.ofUInt32 n.toUInt32, rfl, fun _ => rfl⟩
  | bytes b => exact ⟨b, rfl, fun _ => rfl⟩
  | pad n => exact ⟨.zeros n, Bytes.size_zeros n, fun w => w.pad?_eq_put? n⟩

/-- A call is refused exactly if there are too few bytes for it. -/
theorem perform?_eq_none_iff (c : WriteCall) (w : Writer) :
    c.perform? w = none ↔ w.buffer.size < w.position + c.width := by
  obtain ⟨new, size, same⟩ := c.exists_put?
  rw [same, ← size]
  constructor
  · intro refused
    refine Nat.lt_of_not_le fun room => ?_
    obtain ⟨w', put⟩ := Writer.put?_of_le room
    rw [refused] at put
    cases put
  · intro narrow
    refine Option.eq_none_iff_forall_ne_some.mpr fun w' put => ?_
    exact Nat.not_le_of_lt narrow (Writer.room_of_put? put)

theorem perform?_advances {c : WriteCall} (done : c.perform? w = some w') :
    w.Advances w' ∧ w'.position = w.position + c.width ∧ w'.position ≤ w'.buffer.size := by
  obtain ⟨new, size, same⟩ := c.exists_put?
  rw [same] at done
  obtain ⟨advances, moved, -⟩ := Writer.put?_advances done
  exact ⟨advances, size ▸ moved, Writer.put?_le done⟩

/-- What a call wrote is read back, whatever is written behind it. -/
theorem perform?_read {c : WriteCall} (done : c.perform? w = some w') (left : w.Left w' b) :
    c.read.perform? ⟨b, w.position⟩ = some (c.datum, ⟨b, w'.position⟩) := by
  cases c with
  | u8 n =>
    simp only [read, ReadCall.perform?, left.u8? done, Option.map_some, datum]
  | u32 n =>
    simp only [read, ReadCall.perform?, left.u32? done, Option.map_some, datum]
  | i32 n =>
    simp only [read, ReadCall.perform?, Reader.i32?, left.u32? done, Option.map_some, datum,
      Int32.toInt32_toUInt32]
  | bytes b =>
    simp only [read, ReadCall.perform?, left.take? done, Option.map_some, datum]
  | pad n =>
    have put : w.put? (.zeros n) = some w' := (w.pad?_eq_put? n).symm.trans done
    have taken := left.take? put
    rw [Bytes.size_zeros] at taken
    simp only [read, ReadCall.perform?, taken, Option.map_some, datum]

end WriteCall

namespace Writer

variable {w w' : Writer} {c : WriteCall} {cs : List WriteCall} {b : Bytes}

/-- The writer after the calls. One that is refused leaves it as it was. -/
def after (w : Writer) (cs : List WriteCall) : Writer := cs.foldl (fun w c => (c.perform? w).getD w) w

/-- Those of the calls that are not refused. -/
def taken (w : Writer) : List WriteCall → List WriteCall
  | [] => []
  | c :: cs =>
    match c.perform? w with
    | some w' => c :: taken w' cs
    | none => taken w cs

theorem after_append (w : Writer) (cs ds : List WriteCall) : w.after (cs ++ ds) = (w.after cs).after ds :=
  List.foldl_append

theorem after_refused (refused : c.perform? w = none) (cs : List WriteCall) :
    w.after (c :: cs) = w.after cs ∧ w.taken (c :: cs) = w.taken cs := by
  simp [after, taken, refused]

theorem after_done (done : c.perform? w = some w') (cs : List WriteCall) :
    w.after (c :: cs) = w'.after cs ∧ w.taken (c :: cs) = c :: w'.taken cs := by
  simp [after, taken, done]

/-- However many calls were refused, the writer has moved over what the others wrote and no further. -/
theorem after_advances (w : Writer) (cs : List WriteCall) :
    w.Advances (w.after cs) ∧ (w.after cs).position = w.position + WriteCall.span (w.taken cs) := by
  induction cs generalizing w with
  | nil => exact ⟨.refl w, rfl⟩
  | cons c cs ih =>
    cases done : c.perform? w with
    | none =>
      obtain ⟨same, same'⟩ := after_refused done cs
      rw [same, same']
      exact ih w
    | some w' =>
      obtain ⟨same, same'⟩ := after_done done cs
      obtain ⟨first, moved, -⟩ := WriteCall.perform?_advances done
      obtain ⟨rest, moved'⟩ := ih w'
      rw [same, same']
      refine ⟨first.trans rest, ?_⟩
      rw [moved', moved, Nat.add_assoc]
      rfl

theorem after_le (inside : w.position ≤ w.buffer.size) (cs : List WriteCall) :
    (w.after cs).position ≤ (w.after cs).buffer.size := by
  induction cs generalizing w with
  | nil => exact inside
  | cons c cs ih =>
    cases done : c.perform? w with
    | none =>
      rw [(after_refused done cs).1]
      exact ih inside
    | some w' =>
      rw [(after_done done cs).1]
      exact ih (WriteCall.perform?_advances done).2.2

/-- What the calls wrote that were not refused is read back in their order. -/
theorem ask_taken (left : w.Left (w.after cs) b) :
    Reader.ask ⟨b, w.position⟩ ((w.taken cs).map WriteCall.read) =
      some ((w.taken cs).map WriteCall.datum, ⟨b, (w.after cs).position⟩) := by
  induction cs generalizing w with
  | nil => rfl
  | cons c cs ih =>
    cases done : c.perform? w with
    | none =>
      obtain ⟨same, same'⟩ := after_refused done cs
      rw [same] at left ⊢
      rw [same']
      exact ih left
    | some w' =>
      obtain ⟨same, same'⟩ := after_done done cs
      rw [same] at left ⊢
      rw [same']
      have first := WriteCall.perform?_read done (left.first (after_advances w' cs).1)
      have rest := ih (left.last (WriteCall.perform?_advances done).1)
      simp only [List.map_cons, Reader.ask, first, rest, Option.bind_eq_bind, Option.bind_some]
      rfl

/-- No call is left out if none is refused when its turn comes. -/
theorem taken_eq_self (served : ∀ before c behind, cs = before ++ c :: behind →
    c.perform? (w.after before) ≠ none) : w.taken cs = cs := by
  induction cs generalizing w with
  | nil => rfl
  | cons c cs ih =>
    have first : c.perform? w ≠ none := served [] c cs rfl
    obtain ⟨w', done⟩ := Option.ne_none_iff_exists'.mp first
    rw [(after_done done cs).2]
    refine congrArg (c :: ·) (ih fun before d behind parts => ?_)
    rw [← (after_done done before).1]
    exact served (c :: before) d behind (congrArg (c :: ·) parts)

/-- After any calls, the next one is refused exactly if it is wider than what is left behind the position, and
then the writer stays as it is. What was not refused, which is all of the calls if none was, is read back from
the front of the buffer, and takes as many bytes as the writer has moved; those behind are the old ones. -/
theorem calls_read_back (buffer : Bytes) (cs : List WriteCall) :
    let w := Writer.after ⟨buffer, 0⟩ cs
    let done := Writer.taken ⟨buffer, 0⟩ cs
    (∀ c : WriteCall, (c.perform? w = none ↔ w.buffer.size - w.position < c.width) ∧
      (c.perform? w = none → Writer.after ⟨buffer, 0⟩ (cs ++ [c]) = w)) ∧
    ((∀ before c behind, cs = before ++ c :: behind →
      c.perform? (Writer.after ⟨buffer, 0⟩ before) ≠ none) → done = cs) ∧
    w.position = WriteCall.span done ∧ w.buffer.size = buffer.size ∧
    (∀ i, w.position ≤ i → w.buffer.byte? i = buffer.byte? i) ∧
    Reader.ask ⟨w.buffer, 0⟩ (done.map WriteCall.read) = some (done.map WriteCall.datum, ⟨w.buffer, w.position⟩) := by
  intro w done
  have inside : w.position ≤ w.buffer.size := after_le (Nat.zero_le _) cs
  obtain ⟨advances, moved⟩ := after_advances ⟨buffer, 0⟩ cs
  refine ⟨fun c => ⟨?_, fun refused => ?_⟩, taken_eq_self, moved.trans (Nat.zero_add _), advances.size,
    fun i behind => advances.kept i (Or.inr behind), ask_taken ⟨rfl, fun _ _ _ => rfl⟩⟩
  · rw [c.perform?_eq_none_iff]
    omega
  · rw [after_append]
    exact (after_refused refused []).1

/-- A word does not go into the last two bytes, but padding still does. -/
theorem calls_read_back_until_full :
    let cs : List WriteCall := [.u8 7, .u32 4294967294, .bytes ⟨#[97, 98]⟩, .i32 (-5), .pad 1]
    let w := Writer.after ⟨.replicate 9 0xaa, 0⟩ cs
    Writer.taken ⟨.replicate 9 0xaa, 0⟩ cs = [.u8 7, .u32 4294967294, .bytes ⟨#[97, 98]⟩, .pad 1] ∧
      w.position = 8 ∧ w.buffer.byte? 8 = some 0xaa ∧
      Reader.ask ⟨w.buffer, 0⟩ [.u8, .u32, .bytes 2, .bytes 1] =
        some ([.u8 7, .u32 4294967294, .bytes ⟨#[97, 98]⟩, .bytes ⟨#[0]⟩], ⟨w.buffer, 8⟩) ∧
      (WriteCall.u8 1).perform? w ≠ none ∧ (WriteCall.pad 2).perform? w = none := by
  intro cs w
  have done : Writer.taken ⟨.replicate 9 0xaa, 0⟩ cs = [.u8 7, .u32 4294967294, .bytes ⟨#[97, 98]⟩, .pad 1] := by
    rfl
  obtain ⟨next, -, moved, size, kept, told⟩ := calls_read_back (.replicate 9 0xaa) cs
  rw [done] at moved told
  have position : w.position = 8 := moved
  have left : w.buffer.size - w.position = 1 := by
    rw [position, size, Bytes.size_replicate]
  refine ⟨done, position, ?_, ?_, ?_, ?_⟩
  · rw [kept 8 (Nat.le_of_eq position), Bytes.byte?_replicate]
    rfl
  · rw [← position]
    exact told
  · rw [Ne, (next _).1, left]
    decide
  · rw [(next _).1, left]
    decide

end Writer
end HeapStore
