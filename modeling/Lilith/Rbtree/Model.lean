import Lilith.Theory.ColoredTree
import Lilith.Fault

/-! The red-black tree of the kernel, on a heap of nodes with raw pointers. A tree is a head
pointer; every operation reads and writes nodes through pointers and faults on a null or
dangling one. Loops carry a step bound taken from the size of the heap and fault when it runs
out, so a result `.ok` means that every loop ended and no pointer was misused. -/
namespace Lilith.Rbtree
open Theory (Color Direction)

/-- A raw node pointer; `none` is null. -/
abbrev Ptr := Option ℕ

/-- An augmentation: a value computed for each node from its own value and the augment values
of its children. It may fault, for example by an overflow. -/
class Augment (T V : Type) where
  augment : T → Option V → Option V → Except Fault V

instance (T : Type) : Augment T Unit := ⟨fun _ _ _ => .ok ()⟩

structure RbNode (T V : Type) where
  color : Color
  parent : Ptr
  left : Ptr
  right : Ptr
  value : T
  augment : Option V
  deriving DecidableEq, Repr

/-- Node memory. A cell holds a node or, when it is free, nothing. -/
structure Heap (T V : Type) where
  cells : List (Option (RbNode T V))
  deriving DecidableEq, Repr

/-- The head pointer together with the memory its nodes live in. -/
structure RbTree (T V : Type) where
  heap : Heap T V
  head : Ptr
  deriving DecidableEq, Repr

/-- The state of a running tree operation. `stops` is a ghost record: the heap and the node at
each moment `markDirty` stopped early at an already dirty node. -/
structure State (T V : Type) extends RbTree T V where
  stops : List (Heap T V × ℕ) := []

variable {T V : Type}

namespace RbNode

/-- A node that is not linked to anything yet. -/
def new (value : T) : RbNode T V := ⟨.red,none,none,none,value,none⟩

def child (n : RbNode T V) : Direction → Ptr
  | .left => n.left
  | .right => n.right

def withChild (n : RbNode T V) (dir : Direction) (p : Ptr) : RbNode T V :=
  match dir with
  | .left => { n with left := p }
  | .right => { n with right := p }

/-- The method `augment`: the augment value must be there. -/
def expectAugment (n : RbNode T V) : Except Fault V :=
  match n.augment with
  | some v => .ok v
  | none => .error (.panic "no augment value -- can't happen")

end RbNode

namespace Heap

def get? (h : Heap T V) (a : ℕ) : Option (RbNode T V) := (h.cells[a]?).join

def set (h : Heap T V) (a : ℕ) (n : RbNode T V) : Heap T V := ⟨h.cells.set a (some n)⟩

/-- Drop the node of a cell. -/
def free (h : Heap T V) (a : ℕ) : Heap T V := ⟨h.cells.set a none⟩

/-- A fresh cell with the given node. -/
def alloc (h : Heap T V) (n : RbNode T V) : ℕ × Heap T V := (h.cells.length,⟨h.cells ++ [some n]⟩)

def deref (h : Heap T V) : Ptr → Except Fault (RbNode T V)
  | none => .error .nullDeref
  | some a => match h.get? a with
    | none => .error .dangling
    | some n => .ok n

/-- More steps than any walk that visits each node at most twice. -/
def bound (h : Heap T V) : ℕ := 2*h.cells.length+2

end Heap

/-- Computations on a tree and its heap. -/
abbrev M (T V : Type) := StateT (State T V) (Except Fault)

def deref (p : Ptr) : M T V (RbNode T V) := fun s => (s.heap.deref p).map (·,s)

/-- Change the node a pointer points to. -/
def write (p : Ptr) (f : RbNode T V → RbNode T V) : M T V Unit := fun s =>
  match p with
  | none => .error .nullDeref
  | some a => match s.heap.get? a with
    | none => .error .dangling
    | some n => .ok ((),{ s with heap := s.heap.set a (f n) })

def setHead (p : Ptr) : M T V Unit := modify fun s => { s with head := p }

def recordStop (a : ℕ) : M T V Unit := modify fun s => { s with stops := (s.heap,a)::s.stops }

def markDirtyLoop : ℕ → Ptr → M T V Unit
  | 0, _ => throw .diverge
  | _+1, none => pure ()
  | fuel+1, some a => do
    let n ← deref (some a)
    if n.augment.isNone then recordStop a
    else do
      write (some a) ({ · with augment := none })
      markDirtyLoop fuel n.parent

def markDirty (node : Ptr) : M T V Unit := do markDirtyLoop (← get).heap.bound node

def setChild (self : Ptr) (dir : Direction) (value : Ptr) : M T V Unit := do
  write self (·.withChild dir value)
  markDirty self
  if value.isSome then write value ({ · with parent := self })

def childDir (self child : Ptr) : M T V Direction := do
  let n ← deref self
  if n.left = child then pure .left
  else if n.right = child then pure .right
  else throw (.panic "assertion failed: self.left == child || self.right == child")

def grandparent (self : Ptr) : M T V Ptr := do
  let n ← deref self
  if n.parent.isSome then return (← deref n.parent).parent else return none

def uncle (self : Ptr) : M T V Ptr := do
  let gp ← grandparent self
  if gp.isSome then do
    let g ← deref gp
    let n ← deref self
    if g.left = n.parent then return g.right else return g.left
  else return none

def color (node : Ptr) : M T V Color := do
  if node.isNone then return .black else return (← deref node).color

def isDirty (node : Ptr) : M T V Bool := do
  if node.isNone then return false else return (← deref node).augment.isNone

def setColor (node : Ptr) (c : Color) : M T V Unit := write node ({ · with color := c })

def swapColors (a b : Ptr) : M T V Unit := do
  let x ← deref a
  let y ← deref b
  setColor a y.color
  setColor b x.color

/-- The place `place` stores the new node at: the head pointer, or a child pointer of a node. -/
inductive Link where
  | head
  | child (node : Ptr) (dir : Direction)

def Link.read : Link → M T V Ptr
  | .head => return (← get).head
  | .child node dir => return (← deref node).child dir

def Link.write : Link → Ptr → M T V Unit
  | .head, p => setHead p
  | .child node dir, p => Rbtree.write node (·.withChild dir p)

def placeLoop (node : Ptr) (cmp : T → T → Ordering) : ℕ → Ptr → Link → M T V (Ptr × Link)
  | 0, _, _ => throw .diverge
  | fuel+1, parent, link => do
    let next ← link.read
    if next.isNone then return (parent,link)
    else do
      let n ← deref node
      let p ← deref next
      if (cmp n.value p.value).isLE then placeLoop node cmp fuel next (.child next .left)
      else placeLoop node cmp fuel next (.child next .right)

def place (node : Ptr) (cmp : T → T → Ordering) : M T V Unit := do
  write node fun n => { n with color := .red, left := none, right := none, augment := none }
  let (parent,link) ← placeLoop node cmp (← get).heap.bound none .head
  write node ({ · with parent := parent })
  link.write node

def recolorLoop : ℕ → Ptr → M T V Ptr
  | 0, _ => throw .diverge
  | fuel+1, node => do
    let parent := (← deref node).parent
    let gp ← grandparent node
    let un ← uncle node
    let parentColor ← color parent
    let uncleColor ← color un
    if parentColor = .red ∧ uncleColor = .red then do
      setColor gp .red
      setColor parent .black
      setColor un .black
      recolorLoop fuel gp
    else return node

def recolor (node : Ptr) : M T V Ptr := do recolorLoop (← get).heap.bound node

def replaceNode (node replacement : Ptr) : M T V Unit := do
  let parent := (← deref node).parent
  if parent.isNone then do
    setHead replacement
    if replacement.isSome then write replacement ({ · with parent := none })
  else do
    let dir ← childDir parent node
    setChild parent dir replacement

/-- The first half of `rotate`: bring the node to the same side of its parent as the parent is
of the grandparent. The result is the node that is now the upper one of the two. -/
def rotateInner (node parent grandparent : Ptr) (side : Direction) : M T V Ptr := do
  let nodeSide ← childDir parent node
  if side ≠ nodeSide then do
    let childOuter := (← deref node).child side
    setChild grandparent side node
    setChild node side parent
    setChild parent side.not childOuter
    return node
  else return parent

/-- The second half of `rotate`: the parent becomes the root of the subtree. -/
def rotateOuter (parent grandparent : Ptr) (side : Direction) : M T V Unit := do
  let sibling := (← deref parent).child side.not
  replaceNode grandparent parent
  setChild parent side.not grandparent
  setChild grandparent side sibling
  setColor parent .black
  setColor grandparent .red

def rotate (node : Ptr) : M T V Unit := do
  let parent := (← deref node).parent
  let gp ← grandparent node
  if gp.isNone then setColor parent .black
  else do
    let side ← childDir gp parent
    let upper ← rotateInner node parent gp side
    rotateOuter upper gp side

/-- The lowest node of the tree under `n`. -/
def Heap.leftmost (h : Heap T V) : ℕ → Ptr → Except Fault Ptr
  | 0, _ => .error .diverge
  | fuel+1, n => do
    let node ← h.deref n
    if node.left.isNone then .ok n else h.leftmost fuel node.left

def Heap.successorChild (h : Heap T V) (node : Ptr) : Except Fault Ptr := do
  h.leftmost h.bound (← h.deref node).right

def successorChild (node : Ptr) : M T V Ptr := fun s => (s.heap.successorChild node).map (·,s)

/-- Removes the node from its place and gives the parent and the child of the place where the
red-black invariants are broken, with the colour that was removed there. -/
def unplace (node : Ptr) : M T V (Ptr × Ptr × Color) := do
  let n ← deref node
  if n.left.isNone then do
    replaceNode node n.right
    let n ← deref node
    return (n.parent,n.right,n.color)
  else if n.right.isNone then do
    replaceNode node n.left
    let n ← deref node
    return (n.parent,n.left,n.color)
  else do
    let succ ← successorChild node
    let sn ← deref succ
    let fixupParent := if sn.parent = node then succ else sn.parent
    let replacement := sn.right
    replaceNode succ sn.right
    replaceNode node succ
    setChild succ .left (← deref node).left
    setChild succ .right (← deref node).right
    swapColors node succ
    return (fixupParent,replacement,(← deref node).color)

/-- The first case of `remove_fixup`: a red sibling is rotated up, and the sibling after that is
its old child. -/
def fixupRedSibling (parent sibling : Ptr) (deficitSide : Direction) : M T V Ptr := do
  if (← color sibling) = .red then do
    let siblingChild := (← deref sibling).child deficitSide
    replaceNode parent sibling
    setChild sibling deficitSide parent
    setChild parent deficitSide.not siblingChild
    swapColors sibling parent
    return siblingChild
  else return sibling

/-- The inner child of the sibling is rotated up when the outer one is black; the result is the
sibling after that. -/
def fixupInner (parent sibling : Ptr) (deficitSide : Direction) : M T V Ptr := do
  let s ← deref sibling
  let innerChild := s.child deficitSide
  let outerChild := s.child deficitSide.not
  if (← color outerChild) = .black then do
    let grandChild := (← deref innerChild).child deficitSide.not
    setChild parent deficitSide.not innerChild
    setChild innerChild deficitSide.not sibling
    setChild sibling deficitSide grandChild
    swapColors sibling innerChild
    return innerChild
  else return sibling

/-- The last case: the sibling is rotated to the top and the colours are re-assigned. -/
def fixupOuter (parent sibling : Ptr) (deficitSide : Direction) : M T V Unit := do
  let s ← deref sibling
  let innerChild := s.child deficitSide
  let outerChild := s.child deficitSide.not
  replaceNode parent sibling
  setChild sibling deficitSide parent
  setChild parent deficitSide.not innerChild
  setColor sibling (← deref parent).color
  setColor parent .black
  setColor outerChild .black

def removeFixupLoop : ℕ → Ptr → Direction → M T V Unit
  | 0, _, _ => throw .diverge
  | fuel+1, parent, deficitSide => do
    let sibling ← fixupRedSibling parent ((← deref parent).child deficitSide.not) deficitSide
    let s ← deref sibling
    let leftColor ← color s.left
    let rightColor ← color s.right
    if leftColor = .black ∧ rightColor = .black then do
      setColor sibling .red
      if (← color parent) = .red then setColor parent .black
      else do
        let p ← deref parent
        if p.parent.isNone then return ()
        else do
          let dir ← childDir p.parent parent
          removeFixupLoop fuel p.parent dir
    else do
      let sibling ← fixupInner parent sibling deficitSide
      fixupOuter parent sibling deficitSide

def removeFixup (parent : Ptr) (deficitSide : Direction) : M T V Unit := do
  removeFixupLoop (← get).heap.bound parent deficitSide

/-- The augment field a node is computed from: absent for a null child. -/
def childAugment (p : Ptr) : M T V (Option V) := do
  if p.isNone then return none else return (← deref p).augment

section Augmented
variable [Augment T V]

def calculateAugment (node : Ptr) : M T V Unit := do
  let n ← deref node
  let left ← childAugment n.left
  let right ← childAugment n.right
  let v ← (Augment.augment n.value left right : Except Fault V)
  write node ({ · with augment := some v })

def updateAugmentsLoop : ℕ → Ptr → M T V Unit
  | 0, _ => throw .diverge
  | fuel+1, node => do
    let n ← deref node
    if ← isDirty n.left then updateAugmentsLoop fuel n.left
    else if ← isDirty n.right then updateAugmentsLoop fuel n.right
    else do
      calculateAugment node
      let n ← deref node
      if n.parent.isNone then return () else updateAugmentsLoop fuel n.parent

def updateAugments : M T V Unit := do
  let s ← get
  if ← isDirty s.head then updateAugmentsLoop s.heap.bound s.head

/-- `insert_raw` up to the recomputation of the augment values. -/
def insertLink (node : Ptr) (cmp : T → T → Ordering) : M T V Unit := do
  place node cmp
  markDirty (← deref node).parent
  let wNode ← recolor node
  if (← color (← deref wNode).parent) = .red then rotate wNode

def insertRaw (node : Ptr) (cmp : T → T → Ordering) : M T V Unit := do
  insertLink node cmp
  updateAugments

/-- `remove_raw` up to the recomputation of the augment values. -/
def removeLink (node : Ptr) : M T V Unit := do
  let (fixupParent,fixupChild,removedColor) ← unplace node
  if removedColor = .red then return ()
  else if fixupChild.isSome then do
    if (← deref fixupChild).color = .red then setColor fixupChild .black
    else throw (.panic "assertion `left == right` failed: (*fixup_child).color, Red")
  else if fixupParent.isNone then return ()
  else do
    let deficitSide : Direction := if (← deref fixupParent).left.isNone then .left else .right
    removeFixup fixupParent deficitSide

def removeRaw (node : Ptr) : M T V Unit := do
  removeLink node
  updateAugments

end Augmented

namespace Heap

def findLoop (h : Heap T V) (eval : T → V → Ordering) : ℕ → Ptr → Except Fault Ptr
  | 0, _ => .error .diverge
  | _+1, none => .ok none
  | fuel+1, some a => do
    let n ← h.deref (some a)
    match eval n.value (← n.expectAugment) with
    | .gt => h.findLoop eval fuel n.left
    | .eq => return some a
    | .lt => h.findLoop eval fuel n.right

def lowerBoundLoop (h : Heap T V) (eval : T → V → Bool) : ℕ → Ptr → Ptr → Except Fault Ptr
  | 0, _, _ => .error .diverge
  | _+1, candidate, none => .ok candidate
  | fuel+1, candidate, some a => do
    let n ← h.deref (some a)
    if eval n.value (← n.expectAugment) then h.lowerBoundLoop eval fuel (some a) n.left
    else h.lowerBoundLoop eval fuel candidate n.right

/-- Walk up from a node to the first ancestor that it is to the left of. -/
def ascend (h : Heap T V) : ℕ → Ptr → Except Fault Ptr
  | 0, _ => .error .diverge
  | fuel+1, child => do
    let n := (← h.deref child).parent
    if n.isNone then return none
    else if (← h.deref n).left = child then return n
    else h.ascend fuel n

/-- The method `successor` of a node. -/
def successor (h : Heap T V) (self : Ptr) : Except Fault Ptr := do
  if (← h.deref self).right.isNone then h.ascend h.bound self else h.successorChild self

/-- A copy of the nodes under `self`, in fresh cells. -/
def cloneNode : ℕ → ℕ → Heap T V → Except Fault (ℕ × Heap T V)
  | 0, _, _ => .error .diverge
  | fuel+1, self, h => do
    let n ← h.deref (some self)
    let (node,h) := h.alloc (.new n.value)
    let cloneChild (child : Ptr) (h : Heap T V) : Except Fault (Ptr × Heap T V) :=
      match child with
      | none => .ok (none,h)
      | some c => do
        let (m,h) ← cloneNode fuel c h
        return (some m,h.set m { ← h.deref (some m) with parent := some node })
    let (left,h) ← cloneChild n.left h
    let (right,h) ← cloneChild n.right h
    let new ← h.deref (some node)
    return (node,h.set node { new with color := n.color, left := left, right := right, augment := n.augment })

end Heap

/-- Run an operation on a tree, without the ghost record. -/
def RbTree.run {α : Type} (m : M T V α) (tree : RbTree T V) : Except Fault (α × RbTree T V) :=
  (m { tree with }).map fun r => (r.1,r.2.toRbTree)

namespace RbTree
variable [Augment T V]

def new (heap : Heap T V) : RbTree T V := ⟨heap,none⟩

def insertRaw (self : RbTree T V) (node : Ptr) (cmp : T → T → Ordering) : Except Fault (RbTree T V) :=
  (self.run (Rbtree.insertRaw node cmp)).map (·.2)

def removeRaw (self : RbTree T V) (node : Ptr) : Except Fault (RbTree T V) :=
  (self.run (Rbtree.removeRaw node)).map (·.2)

/-- `remove` and `into_value`: the node is taken out and dropped, the result is its value. -/
def removeValue (self : RbTree T V) (node : Ptr) : Except Fault (T × RbTree T V) := do
  let tree ← self.removeRaw node
  let value := (← tree.heap.deref node).value
  return (value,{ tree with heap := node.elim tree.heap tree.heap.free })

/-- `OwnedRbNode::new` and `insert`: a value is inserted in a new node. -/
def insertNew (self : RbTree T V) (value : T) (cmp : T → T → Ordering) : Except Fault (RbTree T V) :=
  let (node,heap) := self.heap.alloc (.new value)
  RbTree.insertRaw ⟨heap,self.head⟩ (some node) cmp

end RbTree

namespace RbTree

def isEmpty (self : RbTree T V) : Bool := self.head.isNone

def findRaw (self : RbTree T V) (eval : T → V → Ordering) : Except Fault Ptr :=
  self.heap.findLoop eval self.heap.bound self.head

def lowerBoundRaw (self : RbTree T V) (eval : T → V → Bool) : Except Fault Ptr :=
  self.heap.lowerBoundLoop eval self.heap.bound none self.head

def lowestNodeRaw (self : RbTree T V) : Except Fault Ptr :=
  if self.head.isNone then .ok none else self.heap.leftmost self.heap.bound self.head

def clone (self : RbTree T V) : Except Fault (RbTree T V) :=
  match self.head with
  | none => .ok ⟨self.heap,none⟩
  | some a => do
    let (node,heap) ← self.heap.cloneNode self.heap.bound a
    return ⟨heap,some node⟩

end RbTree
end Lilith.Rbtree
