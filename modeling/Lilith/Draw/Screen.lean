import Lilith.IdVec
import Lilith.Draw.Drain

/-! Windows on a screen (`window.rs`). The damage tracker is a banded region that says for every point
which window is on top there and whether the point has to be painted. -/
namespace Lilith.Draw

def USIZE_MAX : ℕ := 2^64 - 1

/-- The most entries of a vector of `usize`. -/
def VEC_MAX : ℕ := (2^63 - 1) / 8

structure Window where
  surface : Surface
  zIndex : ℕ
  deriving DecidableEq, Repr

def Window.rect (self : Window) : Rect := self.surface.rect

/-- `Region` of `window.rs` -/
structure WindowRegion where
  zIndex : ℕ
  dirty : Bool
  deriving DecidableEq, Repr

structure Screen where
  windows : IdSparseVec Window
  visible : List ℕ
  damageTracker : BandedRegion WindowRegion
  deriving DecidableEq, Repr

/-- `unwrap` -/
def unwrap {α : Type} : Option α → Except Fault α
  | some a => .ok a
  | none => .error (.panic "called `Option::unwrap()` on a `None` value")

/-- Indexing of a vector. -/
def index {α : Type} (v : List α) (i : ℕ) : Except Fault α :=
  match v[i]? with
  | some a => .ok a
  | none => .error (.panic "index out of bounds")

/-- `insert` of a vector of `usize`. -/
def vecInsert (v : List ℕ) (i x : ℕ) : Except Fault (List ℕ) :=
  if v.length < i then .error (.panic "insertion index out of bounds")
  else if VEC_MAX ≤ v.length then .error (.panic "capacity overflow")
  else .ok (v.insertIdx i x)

namespace Screen

def new (rect : Rect) : Except Fault Screen := do
  let damageTracker ← (BandedRegion.new ⟨[]⟩ ⟨[]⟩).update rect fun _ => some ⟨USIZE_MAX,true⟩
  return ⟨.new,[],damageTracker⟩

/-- One round of the loop of `reset_damage_tracker`. -/
def resetWindow (self : Screen) (tracker : BandedRegion WindowRegion) (id : ℕ) :
    Except Fault (BandedRegion WindowRegion) := do
  let window ← unwrap (self.windows.get id)
  tracker.update window.rect fun _ => some ⟨window.zIndex,false⟩

def resetDamageTracker (self : Screen) (rect : Rect) : Except Fault Screen := do
  let tracker ← (BandedRegion.new ⟨[]⟩ ⟨[]⟩).update rect fun _ => some ⟨USIZE_MAX,false⟩
  return { self with damageTracker := ← self.visible.reverse.foldlM self.resetWindow tracker }

/-- One round of the loop of `update`. -/
def paint (self : Screen) (frameBuffer : Surface) (m : Images) (item : Rect × WindowRegion) : Except Fault Images := do
  let (rect,region) := item
  if !region.dirty then return m
  else if region.zIndex = USIZE_MAX then return frameBuffer.fillRect rect .WHITE m
  else do
    let window ← unwrap (self.windows.get (← index self.visible region.zIndex))
    return frameBuffer.blit rect window.surface rect.tl m

/-- `update`. Painting does not use the tracker, so the rectangles are taken out of it first. -/
def update (self : Screen) (frameBuffer : Surface) (m : Images) : Except Fault (Screen × Images) := do
  let (items,tracker) ← self.damageTracker.drain frameBuffer.rect
  let m ← items.foldlM (self.paint frameBuffer) m
  return (← { self with damageTracker := tracker }.resetDamageTracker frameBuffer.rect,m)

def markDirtyBeyond (self : Screen) (zIndex : ℕ) (rect : Rect) : Except Fault Screen := do
  let tracker ← self.damageTracker.update rect fun region =>
    region.map fun r => ⟨r.zIndex,r.dirty || decide (r.zIndex ≥ zIndex)⟩
  return { self with damageTracker := tracker }

def markDirty (self : Screen) (windowId : ℕ) (rect : Rect) : Except Fault Screen := do
  let window ← unwrap (self.windows.get windowId)
  match rect.intersect window.rect with
  | none => return self
  | some rect => do
    let tracker ← self.damageTracker.update rect fun region =>
      if (region.filter fun r => r.zIndex < window.zIndex).isSome then region
      else some ⟨window.zIndex,true⟩
    return { self with damageTracker := tracker }

def zIndexUpdate (self : Screen) (updateFn : ℕ → ℕ) : Except Fault Screen := do
  let windows := self.windows.iterMut fun window => { window with zIndex := updateFn window.zIndex }
  let tracker ← self.damageTracker.updateValues fun _ region => { region with zIndex := updateFn region.zIndex }
  return { self with windows := windows, damageTracker := tracker }

/-- The new place of a window when one is inserted at `zIndex`. -/
def shift (zIndex z : ℕ) : ℕ := if z ≥ zIndex ∧ z ≠ USIZE_MAX then z + 1 else z

/-- `new_window`, with the identifier of the window. -/
def newWindow (self : Screen) (rect : Rect) (zIndex : ℕ) (m : Images) : Except Fault (ℕ × Screen × Images) := do
  let zIndex := min zIndex self.visible.length
  let (surface,m) ← Surface.new rect .WHITE m
  let self ← self.zIndexUpdate (shift zIndex)
  let (windowId,windows) ← self.windows.insert ⟨surface,zIndex⟩
  let visible ← vecInsert self.visible zIndex windowId
  let self ← Screen.markDirty { self with windows := windows, visible := visible } windowId rect
  return (windowId,self,m)

end Screen
end Lilith.Draw
