import Lilith.Rbtree.SpanTree

/-! The boot allocator: the physical address space as a tree of typed spans, whose nodes come from
a fixed array of slots. A slot is a union: while it is free its first word links it to the next
free slot, and otherwise it holds a tree node. Reading the link of a slot that holds a node, or
the node of a free slot, faults. -/
namespace Lilith.Boot
open Rbtree

inductive SpanType where
  | reserved
  | inUse
  | reclaimable
  | free
  deriving DecidableEq, Repr

def SpanType.isUsable : SpanType → Bool
  | .reserved | .inUse => false
  | .reclaimable | .free => true

structure Span where
  start : ℕ
  end_ : ℕ
  spanType : SpanType
  deriving DecidableEq, Repr

/-- The size of the largest free span of a subtree. -/
structure MaxFree where
  size : ℕ
  deriving DecidableEq, Repr

instance : Augment Span MaxFree where
  augment node left right := do
    let a ← if node.spanType = .free then checkedSub node.end_ node.start else pure 0
    return ⟨max (max a ((left.map (·.size)).getD 0)) ((right.map (·.size)).getD 0)⟩

structure BootAlloc where
  tree : RbTree Span MaxFree
  /-- the first words of the slots -/
  links : List Ptr
  freeNode : Ptr
  deriving DecidableEq, Repr

def byStart (a b : Span) : Ordering := compare a.start b.start

namespace BootAlloc

/-- The link of a free slot. -/
def readLink (self : BootAlloc) (slot : ℕ) : Except Fault Ptr :=
  match self.tree.heap.get? slot, self.links[slot]? with
  | none, some next => .ok next
  | _, _ => .error .dangling

/-- Make a slot a free one. -/
def writeLink (self : BootAlloc) (slot : ℕ) (next : Ptr) : BootAlloc :=
  { self with
    tree := { self.tree with heap := self.tree.heap.free slot }
    links := self.links.set slot next }

/-- Put a new node into a slot. -/
def writeNode (self : BootAlloc) (slot : ℕ) (span : Span) : BootAlloc :=
  { self with tree := { self.tree with heap := self.tree.heap.set slot (.new span) } }

/-- The place the next slot is linked from while the free list is built. -/
inductive Place where
  | freeNode
  | slot (slot : ℕ)

def store (self : BootAlloc) : Place → Ptr → BootAlloc
  | .freeNode, p => { self with freeNode := p }
  | .slot slot, p => self.writeLink slot p

def newLoop : List ℕ → Place → BootAlloc → BootAlloc
  | [], p, self => self.store p none
  | span::spans, p, self => newLoop spans (.slot span) (self.store p (some span))

/-- An empty allocator over `n` uninitialised slots. -/
def new (n : ℕ) : BootAlloc :=
  newLoop (List.range n) .freeNode ⟨.new ⟨List.replicate n none⟩,List.replicate n none,none⟩

/-- Link a node that holds its span into the tree. -/
def insertTree (self : BootAlloc) (node : ℕ) : Except Fault BootAlloc := do
  let tree ← self.tree.insertRaw (some node) byStart
  return { self with tree := tree }

def remove (self : BootAlloc) (node : ℕ) : Except Fault (Span × BootAlloc) := do
  let result := (← self.tree.heap.deref (some node)).value
  let tree ← self.tree.removeRaw (some node)
  let self := { self with tree := tree }
  return (result,{ self.writeLink node self.freeNode with freeNode := some node })

/-- The loop of `compact`: join the span of `node` with its successor as long as they have the same
type and touch, then go on with the successor. -/
def compactLoop : ℕ → BootAlloc → ℕ → Except Fault BootAlloc
  | 0, _, _ => .error .diverge
  | fuel+1, self, node => do
    match ← self.tree.heap.successor (some node) with
    | none => return self
    | some succ => do
      let n := (← self.tree.heap.deref (some node)).value
      let s := (← self.tree.heap.deref (some succ)).value
      if n.spanType = s.spanType ∧ n.end_ = s.start then do
        -- the slot of `node` is reused and not put on the free list
        let tree ← self.tree.removeRaw (some node)
        let (_,self) ← { self with tree := tree }.remove succ
        let self ← (self.writeNode node ⟨n.start,s.end_,n.spanType⟩).insertTree node
        compactLoop fuel self node
      else compactLoop fuel self succ

def compact (self : BootAlloc) : Except Fault BootAlloc := do
  match ← self.tree.lowestNodeRaw with
  | none => return self
  | some node => compactLoop self.tree.heap.bound self node

/-- `insert`, once there is a free slot. -/
def insertSlot (self : BootAlloc) (span : Span) : Except Fault BootAlloc :=
  match self.freeNode with
  | none => .error .nullDeref
  | some node => do
    let next ← self.readLink node
    ({ self with freeNode := next }.writeNode node span).insertTree node

/-- The panic of `insert` when even compacting leaves no free slot. -/
def ranOut : Fault := .panic "BootAlloc ran out of spans!"

def insert (self : BootAlloc) (span : Span) : Except Fault BootAlloc := do
  if self.freeNode.isNone then do
    let self ← self.compact
    if self.freeNode.isNone then throw ranOut else self.insertSlot span
  else self.insertSlot span

/-- The part of a round of `update` for what is before the overlap: the gap in front of the old
span, or the piece of the old span in front of the range. -/
def updateFront (self : BootAlloc) (addr : ℕ)
    (updateFn : Option SpanType → Except Fault SpanType) (oldSpan : Span) :
    Except Fault (ℕ × BootAlloc) :=
  if addr < oldSpan.start then do
    let self ← self.insert ⟨addr,oldSpan.start,← updateFn none⟩
    return (oldSpan.start,self)
  else if oldSpan.start < addr then do
    let self ← self.insert ⟨oldSpan.start,addr,oldSpan.spanType⟩
    return (addr,self)
  else .ok (addr,self)

/-- A round of the loop of `update` that found `node`: its span is cut up, and the part inside the
range gets a new type. The result is the address the next round starts at. -/
def updateRound (self : BootAlloc) (addr end_ : ℕ)
    (updateFn : Option SpanType → Except Fault SpanType) (node : ℕ) :
    Except Fault (ℕ × BootAlloc) := do
  let (oldSpan,self) ← self.remove node
  let (addr,self) ← self.updateFront addr updateFn oldSpan
  let nEnd := min oldSpan.end_ end_
  let self ← self.insert ⟨addr,nEnd,← updateFn (some oldSpan.spanType)⟩
  if end_ < oldSpan.end_ then
    return (nEnd,← self.insert ⟨end_,oldSpan.end_,oldSpan.spanType⟩)
  else return (nEnd,self)

/-- The loop of `update`. Every round moves `addr` up, so `end_ - addr` rounds are enough. -/
def updateLoop (end_ : ℕ) (updateFn : Option SpanType → Except Fault SpanType) :
    ℕ → BootAlloc → ℕ → Except Fault (ℕ × BootAlloc)
  | 0, _, _ => .error .diverge
  | fuel+1, self, addr => do
    if addr = end_ then return (addr,self)
    else match ← self.tree.lowerBoundRaw fun n _ => decide (n.end_ > addr) with
      | none => return (addr,self)
      | some node => do
        if end_ ≤ (← self.tree.heap.deref (some node)).value.start then return (addr,self)
        else do
          let (addr,self) ← self.updateRound addr end_ updateFn node
          updateLoop end_ updateFn fuel self addr

/-- The update function may fault: the one of `alloc` holds an assertion. -/
def update (self : BootAlloc) (addr len : ℕ)
    (updateFn : Option SpanType → Except Fault SpanType) : Except Fault BootAlloc := do
  let end_ ← checkedAdd addr len
  let (addr,self) ← updateLoop end_ updateFn (len+1) self addr
  if addr ≠ end_ then self.insert ⟨addr,end_,← updateFn none⟩ else return self

def markReserved (self : BootAlloc) (start len : ℕ) : Except Fault BootAlloc :=
  self.update start len fun _ => .ok .reserved

/-- The update function of `mark_used` and `mark_reclaimable`: reserved memory stays reserved. -/
def unlessReserved (new : SpanType) : Option SpanType → SpanType
  | some .reserved => .reserved
  | _ => new

def markUsed (self : BootAlloc) (start len : ℕ) : Except Fault BootAlloc :=
  self.update start len fun s => .ok (unlessReserved .inUse s)

def markReclaimable (self : BootAlloc) (start len : ℕ) : Except Fault BootAlloc :=
  self.update start len fun s => .ok (unlessReserved .reclaimable s)

end BootAlloc

/-- The size and the alignment of an allocation. -/
structure Layout where
  size : ℕ
  align : ℕ
  deriving DecidableEq, Repr

/-- The least multiple of `n` from `a` on. -/
def roundUp (n a : ℕ) : ℕ := (a+n-1)/n*n

/-- The greatest multiple of `n` up to `a`. -/
def roundDown (n a : ℕ) : ℕ := a/n*n

/-- `align_to(align).unwrap().pad_to_align()`: the rounded size must fit a signed word. -/
def Layout.padTo (self : Layout) (align : ℕ) : Except Fault Layout :=
  let align := max self.align align
  if self.size + align ≤ 2^63 then .ok ⟨roundUp align self.size,align⟩
  else .error (.panic "called `Result::unwrap()` on an `Err` value: LayoutError")

/-- `u64::next_multiple_of` -/
def nextMultipleOf (a n : ℕ) : Except Fault ℕ :=
  if roundUp n a < 2^64 then .ok (roundUp n a) else .error .overflow

/-- Where the layout fits into a span, if it does. -/
def fitIn (layout : Layout) (span : Span) : Except Fault (Option ℕ) := do
  if span.spanType = .free then do
    let start ← nextMultipleOf span.start layout.align
    return if layout.size ≤ span.end_ - start then some start else none
  else return none

def allocWorker (h : Heap Span MaxFree) (layout : Layout) : ℕ → ℕ → Except Fault (Option ℕ)
  | 0, _ => .error .diverge
  | fuel+1, node => do
    let n ← h.deref (some node)
    let inChild (child : Ptr) : Except Fault (Option ℕ) :=
      match child with
      | none => .ok none
      | some c => do
        if layout.size ≤ (← (← h.deref (some c)).expectAugment).size then allocWorker h layout fuel c
        else return none
    match ← inChild n.left with
    | some result => return some result
    | none => match ← fitIn layout n.value with
      | some start => return some start
      | none => inChild n.right

def BootAlloc.alloc (self : BootAlloc) (layout : Layout) : Except Fault (Option ℕ × BootAlloc) := do
  let layout ← layout.padTo 4096
  match self.tree.head with
  | none => return (none,self)
  | some head => match ← allocWorker self.tree.heap layout self.tree.heap.bound head with
    | none => return (none,self)
    | some start => do
      let self ← self.update start layout.size fun t =>
        if t = some .free then .ok .inUse
        else .error (.panic "assertion failed: t == Some(SpanType::Free)")
      return (some start,self)

/-- A range of physical addresses. -/
structure PhysRange where
  start : ℕ
  end_ : ℕ
  deriving DecidableEq, Repr

/-- `PhysAddr::align_up` and `PhysAddr::align_down` to 4096 bytes, which are not part of the
kernel. They may panic on addresses that are not physical ones. -/
structure PageAlign where
  alignUp : ℕ → Except Fault ℕ
  alignDown : ℕ → Except Fault ℕ

section Claim
variable (align : PageAlign)

namespace BootAlloc

/-- Insert a free span, unless it is empty. -/
def insertFree (self : BootAlloc) (start end_ : ℕ) : Except Fault BootAlloc :=
  if start < end_ then self.insert ⟨start,end_,.free⟩ else .ok self

/-- Mark the frames from `start` to `end_`, all of the free span `span` of `node`, as in use. -/
def claim (self : BootAlloc) (node : ℕ) (span : Span) (start end_ : ℕ) : Except Fault BootAlloc := do
  let (_,self) ← self.remove node
  let self ← self.insert ⟨start,end_,.inUse⟩
  let self ← self.insertFree span.start start
  self.insertFree end_ span.end_

/-- A round of the loop of `claim_free_ranges`: the ranges it gives to `buddy_add_range` and the
allocator after it. -/
def claimRound (self : BootAlloc) (node : ℕ) (span : Span) :
    Except Fault (List PhysRange × BootAlloc) := do
  if span.spanType = .free then do
    let start ← align.alignUp span.start
    let end_ ← align.alignDown span.end_
    if start < end_ then return ([⟨start,end_⟩],← self.claim node span start end_)
    else return ([],self)
  else return ([],self)

/-- The loop of `claim_free_ranges`. -/
def claimLoop : ℕ → BootAlloc → ℕ → Except Fault (List PhysRange × BootAlloc)
  | 0, _, _ => .error .diverge
  | fuel+1, self, addr => do
    match ← self.tree.lowerBoundRaw fun s _ => decide (s.start ≥ addr) with
    | none => return ([],self)
    | some node => do
      let span := (← self.tree.heap.deref (some node)).value
      let (claimed,self) ← self.claimRound align node span
      let (rest,self) ← claimLoop fuel self span.end_
      return (claimed ++ rest,self)

/-- `claim_free_ranges`, with the ranges it gives to `buddy_add_range`. -/
def claimFreeRanges (self : BootAlloc) : Except Fault (List PhysRange × BootAlloc) := do
  let self ← self.compact
  claimLoop align self.tree.heap.bound self 0

end BootAlloc

/-- The first loop of `ReclaimableRangeIter::next`: go to a usable span. -/
def skipUnusable (h : Heap Span MaxFree) : ℕ → Ptr → Except Fault Ptr
  | 0, _ => .error .diverge
  | _+1, none => .ok none
  | fuel+1, some node => do
    if (← h.deref (some node)).value.spanType.isUsable then return some node
    else skipUnusable h fuel (← h.successor (some node))

/-- The second loop: extend a range that ends at `endAddr` by the usable spans that follow. -/
def extendRange (h : Heap Span MaxFree) : ℕ → ℕ → Ptr → Except Fault (ℕ × Ptr)
  | 0, _, _ => .error .diverge
  | _+1, endAddr, none => .ok (endAddr,none)
  | fuel+1, endAddr, some succ => do
    let s := (← h.deref (some succ)).value
    if s.start ≠ endAddr ∨ ¬ s.spanType.isUsable then return (endAddr,some succ)
    else extendRange h fuel s.end_ (← h.successor (some succ))

/-- `ReclaimableRangeIter::next`: the next range and the node to go on from. -/
def nextLoop (h : Heap Span MaxFree) : ℕ → Ptr → Except Fault (Option (PhysRange × Ptr))
  | 0, _ => .error .diverge
  | fuel+1, node => do
    match ← skipUnusable h h.bound node with
    | none => return none
    | some node => do
      let first := (← h.deref (some node)).value
      let (endAddr,succ) ← extendRange h h.bound first.end_ (← h.successor (some node))
      let s ← align.alignUp first.start
      let e ← align.alignDown endAddr
      if s < e then return some (⟨s,e⟩,succ) else nextLoop h fuel succ

/-- The ranges of the iterator from a node on. -/
def reclaimLoop (h : Heap Span MaxFree) : ℕ → Ptr → Except Fault (List PhysRange)
  | 0, _ => .error .diverge
  | fuel+1, node => do
    match ← nextLoop align h h.bound node with
    | none => return []
    | some (range,succ) => return range::(← reclaimLoop h fuel succ)

/-- `Reclaimer::drop`: the ranges it gives to `buddy_add_range`. -/
def BootAlloc.reclaim (self : BootAlloc) : Except Fault (List PhysRange) := do
  reclaimLoop align self.tree.heap self.tree.heap.bound (← self.tree.lowestNodeRaw)

/-- All ranges given to `buddy_add_range`, first by `claim_free_ranges` and then when the
`Reclaimer` is dropped. -/
def BootAlloc.handOver (self : BootAlloc) : Except Fault (List PhysRange) := do
  let (claimed,self) ← self.claimFreeRanges align
  let reclaimed ← self.reclaim align
  return claimed ++ reclaimed

end Claim
end Lilith.Boot
