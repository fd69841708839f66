import HeapStore.Bytes

/-! The clock rule for choosing a frame to empty. Which frames may be chosen at all is up to the
caller. -/
namespace HeapStore

/-- A row of frames with a reference bit each, and the frame that is looked at next. -/
structure Clock where
  size : Nat
  /-- The frames whose bit is set. -/
  marked : List Nat := []
  hand : Nat := 0
  deriving DecidableEq

namespace Clock

/-- The bits are made at once, a byte each. -/
def new? (frames : Nat) : Option Clock :=
  if frames < Bytes.limit then some { size := frames } else none

def bit (c : Clock) (frame : Nat) : Bool := frame ∈ c.marked

/-- The page in the frame was used. -/
def touch (c : Clock) (frame : Nat) : Clock := { c with marked := c.marked.insert frame }

/-- The frame was emptied. -/
def clear (c : Clock) (frame : Nat) : Clock := { c with marked := c.marked.filter (· ≠ frame) }

@[simp] theorem bit_touch (c : Clock) (frame f : Nat) :
    (c.touch frame).bit f = (f = frame || c.bit f) := by
  simp [bit, touch, List.mem_insert_iff]

@[simp] theorem bit_clear (c : Clock) (frame f : Nat) :
    (c.clear frame).bit f = (c.bit f && f ≠ frame) := by
  simp [bit, clear]

/-- As `touch`, for a frame number from outside. -/
def touch? (c : Clock) (frame : Nat) : Option Clock :=
  if frame < c.size then some (c.touch frame) else none

/-- As `clear`, for a frame number from outside. -/
def clear? (c : Clock) (frame : Nat) : Option Clock :=
  if frame < c.size then some (c.clear frame) else none

def advance (c : Clock) : Clock := { c with hand := (c.hand + 1) % c.size }

/-- Moves the hand over at most `steps` frames. An evictable frame with a clear bit is the victim;
one with a set bit loses it and is passed over this time. -/
def sweep (evictable : Nat → Bool) : (steps : Nat) → Clock → Option Nat × Clock
  | 0, c => (none, c)
  | steps + 1, c =>
    if evictable c.hand then
      if c.bit c.hand then sweep evictable steps (c.clear c.hand).advance
      else (some c.hand, c.advance)
    else sweep evictable steps c.advance

/-- Two rounds are enough, as the first may do no more than clear bits. -/
def victim (c : Clock) (evictable : Nat → Bool) : Option Nat × Clock :=
  sweep evictable (2 * c.size) c

end Clock
end HeapStore
