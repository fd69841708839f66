import HeapStore.Clock
import HeapStore.Page
import HeapStore.PageMap

/-! The page pool: a fixed number of frames, each empty or holding a page image. An image lives on
after it left its frame, because whoever got it from the pool may still read and write it; a page
that is loaded again gets an image of its own. Images are never removed from `images`, so a
`PageRef` stays valid. -/
namespace HeapStore

/-- Position of an image in `Pool.images`. -/
abbrev PageRef := Nat

structure Pool where
  capacity : Nat
  images : Array Page := #[]
  /-- What the frames hold, up to the last one that was ever in use. -/
  frames : Array (Option PageRef) := #[]
  /-- The frame of each cached page. -/
  frameOf : PageMap Nat := {}
  clock : Clock
  deriving DecidableEq

namespace Pool

def new (capacity : Nat) : Pool where
  capacity
  clock := { size := capacity }

/-- Pages for which an index of the cached pages can be made. It is made at once, with a power of
two of entries, of which one in eight stays free. An entry takes more than sixteen bytes. -/
def maxCapacity : Nat := UInt64.size / 64 / 8 * 7

def page (p : Pool) (r : PageRef) : Page := p.images.getD r default

def update (p : Pool) (r : PageRef) (f : Page → Page) : Pool :=
  { p with images := p.images.modify r f }

/-- Adds an image that is in no frame yet. -/
def addImage (p : Pool) (page : Page) : PageRef × Pool :=
  (p.images.size, { p with images := p.images.push page })

def inFrame? (p : Pool) (frame : Nat) : Option PageRef := p.frames.getD frame none

def isCached (p : Pool) (id : PageId) : Bool := p.frameOf.contains id

def cachedPages (p : Pool) : Nat := p.frameOf.size

/-- The frame and the image of a cached page. -/
def cached? (p : Pool) (id : PageId) : Option (Nat × PageRef) :=
  p.frameOf[id]?.bind fun frame => (p.inFrame? frame).map (frame, ·)

/-- Only clean pages may be evicted. -/
def evictable (p : Pool) (frame : Nat) : Bool :=
  match p.inFrame? frame with
  | some r => !(p.page r).isDirty
  | none => false

def touch (p : Pool) (frame : Nat) : Pool := { p with clock := p.clock.touch frame }

/-- Puts an image into a frame, as the one that its page is cached in. -/
def install (p : Pool) (frame : Nat) (r : PageRef) : Pool :=
  { p with
    frames := p.frames.setIfInBounds frame (some r)
    frameOf := p.frameOf.insert (p.page r).id frame
    clock := p.clock.touch frame }

/-- Takes the image out of a frame. -/
def vacate (p : Pool) (frame : Nat) : Pool :=
  { p with
    frames := p.frames.setIfInBounds frame none
    frameOf := match p.inFrame? frame with
      | some r => p.frameOf.erase (p.page r).id
      | none => p.frameOf
    clock := p.clock.clear frame }

/-- The first empty frame, or else one that the clock picks among the clean ones and that is emptied.
There is none if every frame holds a dirty page. -/
def findFrame (p : Pool) : Option Nat × Pool :=
  match p.frames.findIdx? Option.isNone with
  | some frame => (some frame, p)
  | none =>
    if p.frames.size < p.capacity then
      (some p.frames.size, { p with frames := p.frames.push none })
    else match p.clock.victim p.evictable with
    | (some frame, clock) => (some frame, { p with clock }.vacate frame)
    | (none, clock) => (none, { p with clock })

/-- Drops a page from the pool, dirty or not. -/
def remove (p : Pool) (id : PageId) : Pool :=
  match p.frameOf[id]? with
  | some frame =>
    { p with
      frames := p.frames.setIfInBounds frame none
      frameOf := p.frameOf.erase id
      clock := p.clock.clear frame }
  | none => p

/-- The cached images in the order of their frames. -/
def residents (p : Pool) : List PageRef := p.frames.toList.filterMap id

def dirty (p : Pool) : List PageRef := p.residents.filter fun r => (p.page r).isDirty

def dirtiedBy (p : Pool) (tx : TxId) : List PageRef :=
  p.residents.filter fun r => (p.page r).dirtiedBy = some tx

end Pool
end HeapStore
