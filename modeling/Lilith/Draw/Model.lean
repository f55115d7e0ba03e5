import Lilith.Rbtree.Clone

/-! Banded regions: a map from points of the plane to values, kept as a tree of horizontal bands,
each with a tree of disjoint regions. The region trees of all bands share one memory. Coordinates
are only compared, so they are integers; allocating a node always succeeds. -/
namespace Lilith.Draw
open Rbtree

structure Point where
  x : ℤ
  y : ℤ
  deriving DecidableEq, Repr

/-- The points from the top left corner on, up to but without the bottom right one. -/
structure Rect where
  tl : Point
  br : Point
  deriving DecidableEq, Repr

def Rect.isEmpty (self : Rect) : Bool := self.br.x ≤ self.tl.x ∨ self.br.y ≤ self.tl.y

structure Region (V : Type) where
  xStart : ℤ
  xEnd : ℤ
  value : V
  deriving DecidableEq, Repr

/-- A band, with the head pointer of its tree of regions. -/
structure Band where
  yStart : ℤ
  yEnd : ℤ
  regions : Ptr
  deriving DecidableEq, Repr

structure BandedRegion (V : Type) where
  bands : RbTree Band Unit
  /-- the memory of the regions of all bands -/
  mem : Heap (Region V) Unit
  deriving DecidableEq, Repr

variable {V : Type}

/-- A region with no points, in memory where other nodes may live. -/
def BandedRegion.new (heap : Heap Band Unit) (mem : Heap (Region V) Unit) : BandedRegion V :=
  ⟨.new heap,mem⟩

def Region.cmp (a b : Region V) : Ordering := compare a.xStart b.xStart

def Band.cmp (a b : Band) : Ordering := compare a.yStart b.yStart

def Band.new (yStart yEnd : ℤ) : Band := ⟨yStart,yEnd,none⟩

/-- The regions of a band. -/
abbrev Regions (V : Type) := RbTree (Region V) Unit

namespace Regions

def insertRegion (self : Regions V) (region : Region V) : Except Fault (Regions V) :=
  self.insertNew region Region.cmp

/-- Insert a region if there is a value for it. -/
def insertSome (self : Regions V) (xStart xEnd : ℤ) (value : Option V) : Except Fault (Regions V) :=
  match value with
  | none => .ok self
  | some value => insertRegion self ⟨xStart,xEnd,value⟩

/-- The part of a round of `Band::update` for what is before the overlap. -/
def updateFront (self : Regions V) (xStart : ℤ) (updateFn : Option V → Option V) (region : Region V) :
    Except Fault (ℤ × Regions V) :=
  if xStart < region.xStart then do
    return (region.xStart,← insertSome self xStart region.xStart (updateFn none))
  else if xStart > region.xStart then do
    return (xStart,← insertRegion self ⟨region.xStart,xStart,region.value⟩)
  else .ok (xStart,self)

/-- A round of the loop of `Band::update` that found `node`. The result starts at the `x` where the
next round starts. -/
def updateRound (self : Regions V) (xStart xEnd : ℤ) (updateFn : Option V → Option V) (node : ℕ) :
    Except Fault (ℤ × Regions V) := do
  let (region,self) ← self.removeValue (some node)
  let (xStart,self) ← updateFront self xStart updateFn region
  let self ← insertSome self xStart (min xEnd region.xEnd) (updateFn (some region.value))
  if xEnd < region.xEnd then
    return (region.xEnd,← insertRegion self ⟨xEnd,region.xEnd,region.value⟩)
  else return (region.xEnd,self)

def updateLoop (xEnd : ℤ) (updateFn : Option V → Option V) :
    ℕ → Regions V → ℤ → Except Fault (ℤ × Regions V)
  | 0, _, _ => .error .diverge
  | fuel+1, self, xStart => do
    match ← self.lowerBoundRaw fun region _ => decide (xStart < region.xEnd) with
    | none => return (xStart,self)
    | some node => do
      if xEnd ≤ (← self.heap.deref (some node)).value.xStart then return (xStart,self)
      else do
        let (xStart,self) ← updateRound self xStart xEnd updateFn node
        updateLoop xEnd updateFn fuel self xStart

/-- `Band::update`, on the regions of the band. -/
def update (self : Regions V) (xStart xEnd : ℤ) (updateFn : Option V → Option V) :
    Except Fault (Regions V) := do
  let (xStart,self) ← updateLoop xEnd updateFn self.heap.bound self xStart
  if xStart < xEnd then insertSome self xStart xEnd (updateFn none) else return self

end Regions

namespace BandedRegion

def insertBand (self : BandedRegion V) (band : Band) : Except Fault (BandedRegion V) := do
  return { self with bands := ← self.bands.insertNew band Band.cmp }

/-- `Band::clone` -/
def cloneBand (self : BandedRegion V) (band : Band) : Except Fault (Band × BandedRegion V) := do
  let regions ← RbTree.clone ⟨self.mem,band.regions⟩
  return ({ band with regions := regions.head },{ self with mem := regions.heap })

/-- `Band::update` of a band that is not in the tree. -/
def updateBand (self : BandedRegion V) (band : Band) (rect : Rect) (updateFn : Option V → Option V) :
    Except Fault (Band × BandedRegion V) := do
  let regions ← Regions.update ⟨self.mem,band.regions⟩ rect.tl.x rect.br.x updateFn
  return ({ band with regions := regions.head },{ self with mem := regions.heap })

/-- Update a band and insert it, unless it has no regions then. -/
def insertUpdated (self : BandedRegion V) (band : Band) (rect : Rect)
    (updateFn : Option V → Option V) : Except Fault (BandedRegion V) := do
  let (band,self) ← self.updateBand band rect updateFn
  if band.regions.isNone then return self else self.insertBand band

/-- The part of a round of `update` for what is before the overlap. -/
def updateFront (self : BandedRegion V) (yStart : ℤ) (rect : Rect) (updateFn : Option V → Option V)
    (band : Band) : Except Fault (ℤ × BandedRegion V) :=
  if yStart < band.yStart then do
    return (band.yStart,← self.insertUpdated (.new yStart band.yStart) rect updateFn)
  else if yStart > band.yStart then do
    let (newBand,self) ← self.cloneBand band
    return (yStart,← self.insertBand { newBand with yEnd := yStart })
  else .ok (yStart,self)

/-- A round of the loop of `update` that found `node`. -/
def updateRound (self : BandedRegion V) (yStart : ℤ) (rect : Rect) (updateFn : Option V → Option V)
    (node : ℕ) : Except Fault (ℤ × BandedRegion V) := do
  let yEnd := rect.br.y
  let (band,bands) ← self.bands.removeValue (some node)
  let (yStart,self) ← { self with bands := bands }.updateFront yStart rect updateFn band
  let (newBand,self) ← self.cloneBand band
  let self ← self.insertUpdated { newBand with yStart := yStart, yEnd := min yEnd band.yEnd } rect
    updateFn
  if yEnd < band.yEnd then do
    let (newBand,self) ← self.cloneBand band
    return (band.yEnd,← self.insertBand { newBand with yStart := yEnd })
  else return (band.yEnd,self)

def updateLoop (rect : Rect) (updateFn : Option V → Option V) :
    ℕ → BandedRegion V → ℤ → Except Fault (ℤ × BandedRegion V)
  | 0, _, _ => .error .diverge
  | fuel+1, self, yStart => do
    match ← self.bands.lowerBoundRaw fun band _ => decide (yStart < band.yEnd) with
    | none => return (yStart,self)
    | some node => do
      if rect.br.y ≤ (← self.bands.heap.deref (some node)).value.yStart then return (yStart,self)
      else do
        let (yStart,self) ← self.updateRound yStart rect updateFn node
        updateLoop rect updateFn fuel self yStart

def update (self : BandedRegion V) (rect : Rect) (updateFn : Option V → Option V) :
    Except Fault (BandedRegion V) := do
  let (yStart,self) ← updateLoop rect updateFn self.bands.heap.bound self rect.tl.y
  if yStart < rect.br.y then do
    let (newBand,self) ← self.updateBand (.new yStart rect.br.y) rect updateFn
    self.insertBand newBand
  else return self

def insert (self : BandedRegion V) (rect : Rect) (value : V) : Except Fault (BandedRegion V) :=
  self.update rect fun _ => some value

def remove (self : BandedRegion V) (rect : Rect) : Except Fault (BandedRegion V) :=
  self.update rect fun _ => none

end BandedRegion
end Lilith.Draw
