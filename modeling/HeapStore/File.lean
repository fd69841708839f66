import HeapStore.Bytes

/-! Files, most of whose bytes may never have been written. A file keeps the pieces that were
written to it, and every other byte below its length is zero. `byte?_span`, `byte_write` and
`byte_setLength` say that it behaves as the row of its bytes, `byte_of_extent_le` where that ends. -/
namespace HeapStore

/-- Bytes together with the place of the first of them. -/
structure Piece where
  start : Nat
  bytes : Bytes
  deriving DecidableEq

namespace Piece

def stop (p : Piece) : Nat := p.start + p.bytes.size

def byte? (p : Piece) (i : Nat) : Option UInt8 :=
  if p.start ≤ i then p.bytes.byte? (i - p.start) else none

/-- Whether the piece has nothing outside of the places from `lo` to before `hi`. -/
def within (p : Piece) (lo hi : Nat) : Bool := lo ≤ p.start && p.stop ≤ hi

/-- Whether it has all of them. -/
def covers (p : Piece) (lo hi : Nat) : Bool := p.start ≤ lo && hi ≤ p.stop

/-- Whether it has none of them. -/
def misses (p : Piece) (lo hi : Nat) : Bool := p.stop ≤ lo || hi ≤ p.start

/-- Puts the bytes of the piece into a window, which shows a file from `off` on. -/
def paint (off : Nat) (p : Piece) (window : Bytes) : Bytes :=
  let lo := max p.start off
  let hi := min p.stop (off + window.size)
  if lo < hi then
    window.extract 0 (lo - off) ++ p.bytes.extract (lo - p.start) (hi - p.start) ++
      window.extract (hi - off) window.size
  else window

/-- The part of the piece below `n`. -/
def cut (n : Nat) (p : Piece) : Piece := ⟨p.start, p.bytes.extract 0 (n - p.start)⟩

@[simp] theorem size_paint (off : Nat) (p : Piece) (window : Bytes) :
    (p.paint off window).size = window.size := by
  unfold paint
  dsimp only
  by_cases h : max p.start off < min p.stop (off + window.size)
  · rw [if_pos h]
    simp only [stop] at h
    simp only [stop, ByteArray.size_append, ByteArray.size_extract]
    omega
  · rw [if_neg h]

theorem byte?_eq_none_iff {p : Piece} {i : Nat} : p.byte? i = none ↔ i < p.start ∨ p.stop ≤ i := by
  unfold byte? stop
  split
  · rw [Bytes.byte?_eq_none_iff]
    omega
  · simp
    omega

theorem byte?_paint (off : Nat) (p : Piece) (window : Bytes) {k : Nat} (hk : k < window.size) :
    (p.paint off window).byte? k = (p.byte? (off + k)).or (window.byte? k) := by
  unfold paint
  generalize hlo : max p.start off = lo
  generalize hhi : min p.stop (off + window.size) = hi
  have stop : p.stop = p.start + p.bytes.size := rfl
  dsimp only
  by_cases h : lo < hi
  · have before : (window.extract 0 (lo - off)).size = lo - off := by
      rw [ByteArray.size_extract]
      omega
    have painted : (p.bytes.extract (lo - p.start) (hi - p.start)).size = hi - lo := by
      rw [ByteArray.size_extract]
      omega
    rw [if_pos h, Bytes.byte?_append, ByteArray.size_append, before, painted, Bytes.byte?_append,
      before]
    by_cases left : off + k < lo
    · rw [if_pos (by omega), if_pos (by omega), Bytes.byte?_extract, if_pos (by omega),
        byte?_eq_none_iff.mpr (by omega), Nat.zero_add, Option.none_or]
    · by_cases right : off + k < hi
      · rw [if_pos (by omega), if_neg (by omega), Bytes.byte?_extract, if_pos (by omega),
          show lo - p.start + (k - (lo - off)) = off + k - p.start by omega]
        have found : p.byte? (off + k) ≠ none := by
          rw [Ne, byte?_eq_none_iff]
          omega
        rw [Option.or_of_isSome (Option.isSome_iff_ne_none.mpr found), byte?, if_pos (by omega)]
      · rw [if_neg (by omega), Bytes.byte?_extract, if_pos (by omega),
          byte?_eq_none_iff.mpr (by omega), Option.none_or]
        congr 1
        omega
  · rw [if_neg h, byte?_eq_none_iff.mpr (by omega), Option.none_or]

theorem covers_iff {p : Piece} {lo hi : Nat} :
    p.covers lo hi ↔ p.start ≤ lo ∧ hi ≤ p.start + p.bytes.size := by
  simp only [covers, Bool.and_eq_true, decide_eq_true_eq]
  exact Iff.rfl

theorem byte?_eq_none_of_within {p : Piece} {lo hi i : Nat} (h : p.within lo hi)
    (outside : i < lo ∨ hi ≤ i) : p.byte? i = none := by
  simp only [within, Bool.and_eq_true, decide_eq_true_eq] at h
  exact byte?_eq_none_iff.mpr (by omega)

theorem byte?_eq_none_of_misses {p : Piece} {lo hi i : Nat} (h : p.misses lo hi)
    (inside : lo ≤ i ∧ i < hi) : p.byte? i = none := by
  simp only [misses, Bool.or_eq_true, decide_eq_true_eq] at h
  exact byte?_eq_none_iff.mpr (by omega)

theorem byte?_cut (n : Nat) (p : Piece) (i : Nat) :
    (p.cut n).byte? i = if i < n then p.byte? i else none := by
  simp only [byte?, cut, Bytes.byte?_extract]
  have := Bytes.byte?_eq_none_iff (b := p.bytes) (i := i - p.start)
  grind

end Piece

structure File where
  /-- The latest piece first. -/
  pieces : List Piece := []
  length : Nat := 0
  deriving DecidableEq

namespace File

/-- No file has this many bytes. -/
def limit : Nat := UInt64.size / 2

def ofBytes (b : Bytes) : File := ⟨[⟨0, b⟩], b.size⟩

def byte (f : File) (i : Nat) : UInt8 := (f.pieces.findSome? (·.byte? i)).getD 0

/-- The bytes from `off` to before `stop`, once each piece is put over those before it. Pieces
that do not show there are left out. -/
def window (off stop : Nat) : List Piece → Bytes
  | [] => .zeros (stop - off)
  | p :: ps =>
    if p.covers off stop then p.bytes.extract (off - p.start) (stop - p.start)
    else if p.misses off stop then window off stop ps
    else p.paint off (window off stop ps)

/-- The `n` bytes from `off` on. -/
def span (f : File) (off n : Nat) : Bytes := window off (off + n) f.pieces

/-- A place from which on nothing was ever written. -/
def extent (f : File) : Nat := f.pieces.foldr (fun p n => max p.stop n) 0

/-- The bytes of the file without those at its end that were never written. -/
def content (f : File) : Bytes := f.span 0 (min f.extent f.length)

def toBytes (f : File) : Bytes := f.span 0 f.length

/-- The `n` bytes from `off` on, if the file is that long. -/
def read? (f : File) (off n : Nat) : Option Bytes :=
  if off + n ≤ f.length then some (f.span off n) else none

/-- Writes over the bytes from `off` on. A file that ends before is extended, with zeros in any
gap, unless there is nothing to write. Pieces of which nothing shows any more are dropped. -/
def write (f : File) (off : Nat) (new : Bytes) : File :=
  if new.size = 0 then f
  else {
    pieces := ⟨off, new⟩ :: f.pieces.filter fun p => !p.within off (off + new.size)
    length := max f.length (off + new.size) }

/-- Cuts the file or extends it with zeros. -/
def setLength (f : File) (n : Nat) : File := ⟨f.pieces.map (·.cut n), n⟩

theorem size_window {off stop : Nat} (h : off ≤ stop) (ps : List Piece) :
    (window off stop ps).size = stop - off := by
  induction ps with
  | nil => exact Bytes.size_zeros _
  | cons p ps ih =>
    unfold window
    split
    · rename_i covers
      rw [Piece.covers_iff] at covers
      rw [ByteArray.size_extract]
      omega
    · split
      · exact ih
      · rw [Piece.size_paint, ih]

@[simp] theorem size_span (f : File) (off n : Nat) : (f.span off n).size = n := by
  rw [span, size_window (Nat.le_add_right off n)]
  omega

theorem byte?_window (off : Nat) {stop k : Nat} (hk : off + k < stop) (ps : List Piece) :
    (window off stop ps).byte? k = some ((ps.findSome? (·.byte? (off + k))).getD 0) := by
  induction ps with
  | nil => simp [window, Bytes.zeros, show k < stop - off by omega]
  | cons p ps ih =>
    have size := size_window (show off ≤ stop by omega) ps
    rw [window, List.findSome?_cons]
    split
    · rename_i covers
      rw [Piece.covers_iff] at covers
      have found : p.byte? (off + k) ≠ none := by
        rw [Ne, Piece.byte?_eq_none_iff, Piece.stop]
        omega
      obtain ⟨b, hb⟩ := Option.ne_none_iff_exists'.mp found
      rw [Bytes.byte?_extract, if_pos (by omega), hb, Option.getD_some, ← hb, Piece.byte?,
        if_pos (by omega)]
      congr 1
      omega
    · split
      · rename_i misses
        rw [ih, Piece.byte?_eq_none_of_misses misses (by omega)]
      · rw [Piece.byte?_paint _ _ _ (by omega), ih]
        cases p.byte? (off + k) <;> rfl

theorem byte?_span (f : File) (off : Nat) {n k : Nat} (hk : k < n) :
    (f.span off n).byte? k = some (f.byte (off + k)) :=
  byte?_window off (by omega) f.pieces

theorem byte_of_extent_le (f : File) {i : Nat} (h : f.extent ≤ i) : f.byte i = 0 := by
  obtain ⟨pieces, length⟩ := f
  simp only [byte, extent] at h ⊢
  induction pieces with
  | nil => rfl
  | cons p ps ih =>
    rw [List.foldr_cons] at h
    have none : p.byte? i = none := Piece.byte?_eq_none_iff.mpr (.inr (by omega))
    rw [List.findSome?_cons, none]
    exact ih (by omega)

theorem byte_write (f : File) (off : Nat) (new : Bytes) (i : Nat) :
    (f.write off new).byte i =
      if off ≤ i ∧ i < off + new.size then (new.byte? (i - off)).getD 0 else f.byte i := by
  unfold write
  split
  · rw [if_neg (by omega)]
  · simp only [byte, List.findSome?_cons]
    by_cases h : off ≤ i ∧ i < off + new.size
    · have found : Piece.byte? ⟨off, new⟩ i ≠ none := by
        rw [Ne, Piece.byte?_eq_none_iff, Piece.stop]
        dsimp only
        omega
      obtain ⟨b, hb⟩ := Option.ne_none_iff_exists'.mp found
      rw [if_pos h, hb]
      rw [Piece.byte?, if_pos h.1] at hb
      rw [hb]
    · rw [if_neg h, show Piece.byte? ⟨off, new⟩ i = none from
        Piece.byte?_eq_none_iff.mpr (by simp only [Piece.stop]; omega)]
      dsimp only
      congr 1
      induction f.pieces with
      | nil => rfl
      | cons p ps ih =>
        by_cases inside : p.within off (off + new.size)
        · rw [List.filter_cons_of_neg (by simpa using inside), ih, List.findSome?_cons,
            p.byte?_eq_none_of_within inside (by omega)]
        · rw [List.filter_cons_of_pos (by simpa using inside), List.findSome?_cons,
            List.findSome?_cons, ih]

theorem byte_setLength (f : File) (n i : Nat) :
    (f.setLength n).byte i = if i < n then f.byte i else 0 := by
  simp only [byte, setLength]
  induction f.pieces with
  | nil => simp
  | cons p ps ih =>
    rw [List.map_cons, List.findSome?_cons, List.findSome?_cons, Piece.byte?_cut]
    by_cases h : i < n
    · simp only [h, if_true] at ih ⊢
      cases p.byte? i with
      | none => exact ih
      | some b => rfl
    · simpa [h] using ih

end File
end HeapStore
