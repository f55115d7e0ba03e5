import Lilith.Draw.Correct
import Lilith.Draw.Surface

/-! Taking rectangles out of a banded region (`BandedRegionDrainingIterator`), and changing its values
in place (`update_values`). -/
namespace Lilith.Draw
open Rbtree

variable {V : Type}

/-- The first span of a tree that overlaps a range: `first_band_in_range` and
`first_region_in_range`. -/
def firstInRange {T : Type} (self : RbTree T Unit) (lo hi : T → ℤ) (start end_ : ℤ) : Except Fault Ptr :=
  if start ≥ end_ then .ok none
  else do
    match ← self.lowerBoundRaw fun x _ => decide (start < hi x) with
    | none => return none
    | some node => do
      if lo (← self.heap.deref (some node)).value < end_ then return some node else return none

def BandedRegion.firstBandInRange (self : BandedRegion V) (yStart yEnd : ℤ) : Except Fault Ptr :=
  firstInRange self.bands Band.yStart Band.yEnd yStart yEnd

namespace Regions

def firstRegionInRange (self : Regions V) (xStart xEnd : ℤ) : Except Fault Ptr :=
  firstInRange self Region.xStart Region.xEnd xStart xEnd

/-- The loop of `for_all_in_range`. The function given to it returns whether to go on. -/
def forAllLoop {S : Type} (self : Regions V) (xEnd : ℤ) (fn : S → ℤ → ℤ → Option V → Bool × S) :
    ℕ → ℤ → S → Except Fault S
  | 0, _, _ => .error .diverge
  | fuel+1, xStart, s => do
    match ← self.firstRegionInRange xStart xEnd with
    | none => return if xStart < xEnd then (fn s xStart xEnd none).2 else s
    | some node => do
      let region := (← self.heap.deref (some node)).value
      let (goOn,s) := if region.xStart > xStart then fn s xStart region.xStart none else (true,s)
      if goOn then
        let (goOn,s) := fn s region.xStart region.xEnd (some region.value)
        if goOn then forAllLoop self xEnd fn fuel (min xEnd region.xEnd) s else return s
      else return s

def forAllInRange {S : Type} (self : Regions V) (xStart xEnd : ℤ) (fn : S → ℤ → ℤ → Option V → Bool × S) (s : S) :
    Except Fault S :=
  self.forAllLoop xEnd fn self.heap.bound xStart s

def allInRange (self : Regions V) (xStart xEnd : ℤ) (fn : ℤ → ℤ → Option V → Bool) : Except Fault Bool :=
  self.forAllInRange xStart xEnd (fun returnValue x0 x1 value =>
    if fn x0 x1 value then (true,returnValue) else (false,false)) true

end Regions

namespace BandedRegion

/-- The regions of a band. -/
def regionsOf (self : BandedRegion V) (band : Band) : Regions V := ⟨self.mem,band.regions⟩

/-- The loop of `find_next_rect`. The result is the new cursor and the nodes of the band and of the
region that were found, with the rectangle. -/
def findNextLoop (self : BandedRegion V) (boundary : Rect) :
    ℕ → Point → Except Fault (Point × Option (ℕ × ℕ × Rect))
  | 0, _ => .error .diverge
  | fuel+1, cursor => do
    match ← self.firstBandInRange cursor.y boundary.br.y with
    | none => return (⟨cursor.x,boundary.br.y⟩,none)
    | some bandNode => do
      let band := (← self.bands.heap.deref (some bandNode)).value
      match ← (self.regionsOf band).firstRegionInRange cursor.x boundary.br.x with
      | none => findNextLoop self boundary fuel ⟨boundary.tl.x,band.yEnd⟩
      | some regionNode => do
        let region := (← self.mem.deref (some regionNode)).value
        match (Rect.new region.xStart band.yStart region.xEnd band.yEnd).intersect ⟨cursor,boundary.br⟩ with
        | none => .error (.panic "called `Option::unwrap()` on a `None` value")
        | some rect => return (cursor,some (bandNode,regionNode,rect))

def findNextRect (self : BandedRegion V) (boundary : Rect) (cursor : Point) :
    Except Fault (Point × Option (ℕ × ℕ × Rect)) :=
  self.findNextLoop boundary self.bands.heap.bound cursor

/-- The loop of `rect_grow_x`. -/
def growXLoop [DecidableEq V] (self : BandedRegion V) (boundary : Rect) : ℕ → ℕ → Rect → Except Fault Rect
  | 0, _, _ => .error .diverge
  | fuel+1, regionNode, rect =>
    if rect.br.x < boundary.br.x then do
      match ← self.mem.successor (some regionNode) with
      | none => return rect
      | some succ => do
        let region := (← self.mem.deref (some regionNode)).value
        let next := (← self.mem.deref (some succ)).value
        if next.xStart ≠ region.xEnd ∨ next.value ≠ region.value then return rect
        else growXLoop self boundary fuel succ ⟨rect.tl,⟨min boundary.br.x next.xEnd,rect.br.y⟩⟩
    else .ok rect

def rectGrowX [DecidableEq V] (self : BandedRegion V) (boundary : Rect) (regionNode : ℕ) (rect : Rect) :
    Except Fault Rect :=
  self.growXLoop boundary self.mem.bound regionNode rect

/-- The condition under which `rect_grow_y` does not grow into the next band. -/
def stopsGrowY [DecidableEq V] (self : BandedRegion V) (boundary : Rect) (rect : Rect) (rectValue : V)
    (isDraining : Bool) (band next : Band) : Except Fault Bool := do
  let all := (self.regionsOf next).allInRange rect.tl.x rect.br.x fun _ _ value => value = some rectValue
  if next.yStart ≠ band.yEnd then return true
  else if isDraining then return !(← all)
  else if (← (self.regionsOf band).firstRegionInRange rect.br.x boundary.br.x).isSome then return true
  else if (← (self.regionsOf next).firstRegionInRange boundary.tl.x rect.tl.x).isSome then return true
  else return !(← all)

/-- The loop of `rect_grow_y`, with the start of the last band. -/
def growYLoop [DecidableEq V] (self : BandedRegion V) (boundary : Rect) (rectValue : V) (isDraining : Bool) :
    ℕ → ℕ → Rect → Except Fault (ℤ × Rect)
  | 0, _, _ => .error .diverge
  | fuel+1, bandNode, rect => do
    let band := (← self.bands.heap.deref (some bandNode)).value
    if rect.br.y < boundary.br.y then
      match ← self.bands.heap.successor (some bandNode) with
      | none => return (band.yStart,rect)
      | some succ => do
        let next := (← self.bands.heap.deref (some succ)).value
        if ← self.stopsGrowY boundary rect rectValue isDraining band next then return (band.yStart,rect)
        else growYLoop self boundary rectValue isDraining fuel succ ⟨rect.tl,⟨rect.br.x,min boundary.br.y next.yEnd⟩⟩
    else return (band.yStart,rect)

def rectGrowY [DecidableEq V] (self : BandedRegion V) (boundary : Rect) (bandNode : ℕ) (rect : Rect) (rectValue : V)
    (isDraining : Bool) : Except Fault (ℤ × Rect) :=
  self.growYLoop boundary rectValue isDraining self.bands.heap.bound bandNode rect

/-- `next` of the draining iterator: the rectangle and its value, with the new cursor and region. -/
def drainNext [DecidableEq V] (self : BandedRegion V) (boundary : Rect) (cursor : Point) :
    Except Fault (Option (Rect × V) × Point × BandedRegion V) := do
  match ← self.findNextRect boundary cursor with
  | (cursor,none) => return (none,cursor,self)
  | (cursor,some (bandNode,regionNode,rect)) => do
    let value := (← self.mem.deref (some regionNode)).value.value
    let rect ← self.rectGrowX boundary regionNode rect
    let (_,rect) ← self.rectGrowY boundary bandNode rect value true
    return (some (rect,value),cursor,← self.remove rect)

def drainLoop [DecidableEq V] (boundary : Rect) :
    ℕ → BandedRegion V → Point → Except Fault (List (Rect × V) × BandedRegion V)
  | 0, _, _ => .error .diverge
  | fuel+1, self, cursor => do
    match ← self.drainNext boundary cursor with
    | (none,_,self) => return ([],self)
    | (some item,cursor,self) => do
      let (items,self) ← drainLoop boundary fuel self cursor
      return (item :: items,self)

/-- `drain(boundary)` to its end: all rectangles it yields, and what is left. It yields at most one
rectangle for each point of the boundary. -/
def drain [DecidableEq V] (self : BandedRegion V) (boundary : Rect) : Except Fault (List (Rect × V) × BandedRegion V) :=
  drainLoop boundary (boundary.width.toNat * boundary.height.toNat + 1) self boundary.tl

/-- The first `n` calls of `next`: what they return, with the cursor and the region behind them. -/
def drainSteps [DecidableEq V] (boundary : Rect) :
    ℕ → BandedRegion V → Point → Except Fault (List (Option (Rect × V)) × Point × BandedRegion V)
  | 0, self, cursor => .ok ([],cursor,self)
  | n+1, self, cursor => do
    let (item,cursor,self) ← self.drainNext boundary cursor
    let (items,cursor,self) ← drainSteps boundary n self cursor
    return (item :: items,cursor,self)

/-- `drain(boundary)` that is dropped after `n` steps: what the steps return, the rectangles that the drop
consumes, and what is left. -/
def drainDropped [DecidableEq V] (self : BandedRegion V) (boundary : Rect) (n : ℕ) :
    Except Fault (List (Option (Rect × V)) × List (Rect × V) × BandedRegion V) := do
  let (items,cursor,self) ← drainSteps boundary n self boundary.tl
  let (rest,self) ← drainLoop boundary (boundary.width.toNat * boundary.height.toNat + 1) self cursor
  return (items,rest,self)

/-- The inner loop of `update_values`, over the regions of a band. -/
def updateRegionsLoop (fn : Rect → V → V) (band : Band) :
    ℕ → Heap (Region V) Unit → Ptr → Except Fault (Heap (Region V) Unit)
  | _, mem, none => .ok mem
  | 0, _, some _ => .error .diverge
  | fuel+1, mem, some node => do
    let n ← mem.deref (some node)
    let rect := Rect.new n.value.xStart band.yStart n.value.xEnd band.yEnd
    let mem := mem.set node { n with value := { n.value with value := fn rect n.value.value } }
    updateRegionsLoop fn band fuel mem (← mem.successor (some node))

def updateBandsLoop (fn : Rect → V → V) : ℕ → BandedRegion V → Ptr → Except Fault (BandedRegion V)
  | _, self, none => .ok self
  | 0, _, some _ => .error .diverge
  | fuel+1, self, some node => do
    let band := (← self.bands.heap.deref (some node)).value
    let first ← (self.regionsOf band).lowestNodeRaw
    let mem ← updateRegionsLoop fn band self.mem.bound self.mem first
    updateBandsLoop fn fuel { self with mem := mem } (← self.bands.heap.successor (some node))

/-- `update_values`, with a function of the rectangle and the value of a region. -/
def updateValues (self : BandedRegion V) (fn : Rect → V → V) : Except Fault (BandedRegion V) := do
  updateBandsLoop fn self.bands.heap.bound self (← self.bands.lowestNodeRaw)

end BandedRegion
end Lilith.Draw
