import Lilith.Rbtree.SpanTree

/-! The span allocator: a tree of address ranges with values, each node augmented by the extent of
its subtree and the largest gap in it. Addresses are 64-bit unsigned integers, the only address
type the kernel uses it with; a subtraction below zero and an addition beyond 64 bits fault. -/
namespace Lilith.VirtualAlloc
open Rbtree

structure Range where
  start : ℕ
  end_ : ℕ
  deriving DecidableEq, Repr

structure Span (V : Type) where
  start : ℕ
  end_ : ℕ
  value : V
  deriving DecidableEq, Repr

structure MaxGap where
  minAddr : ℕ
  maxAddr : ℕ
  maxGap : ℕ
  deriving DecidableEq, Repr

inductive SpanError where
  | memory (e : MemoryError)
  | exhausted
  | invalidAddress
  | overlapped
  deriving DecidableEq, Repr

variable {V : Type}

/-- The part of `augment` for the left child: the gap and the lower end so far. -/
def augmentLeft (node : Span V) : Option MaxGap → Except Fault (ℕ × ℕ)
  | none => .ok (0,node.start)
  | some left => do
    let gap ← checkedSub node.start left.maxAddr
    assert (left.maxAddr ≤ node.start) "assertion failed: left.max_addr <= node.start"
    return (max (max 0 left.maxGap) gap,min node.start left.minAddr)

/-- The part of `augment` for the right child, given the gap so far: the gap and the upper end. -/
def augmentRight (node : Span V) (maxGap : ℕ) : Option MaxGap → Except Fault (ℕ × ℕ)
  | none => .ok (maxGap,node.end_)
  | some right => do
    let gap ← checkedSub right.minAddr node.end_
    assert (node.end_ ≤ right.minAddr) "assertion failed: node.end <= right.min_addr"
    return (max (max maxGap right.maxGap) gap,max node.end_ right.maxAddr)

instance : Augment (Span V) MaxGap where
  augment node left right := do
    let (gap,minAddr) ← augmentLeft node left
    let (maxGap,maxAddr) ← augmentRight node gap right
    return ⟨minAddr,maxAddr,maxGap⟩

structure SpanAlloc (V : Type) where
  spans : RbTree (Span V) MaxGap
  range : Range

/-- An allocator with no spans, in memory where other nodes may live. -/
def new (heap : Heap (Span V) MaxGap) (range : Range) : SpanAlloc V := ⟨.new heap,range⟩

def nodeCmp (x y : Span V) : Ordering := compare x.start y.start

def byContaining (addr : ℕ) (span : Span V) (_ : MaxGap) : Ordering :=
  if addr < span.start then .gt else if span.end_ ≤ addr then .lt else .eq

/-- What one round of `find_gap` decides. -/
inductive Search where
  | found (gap : Range)
  | left
  | right
  | exhausted

/-- The second half of a round: the gaps around the node and the right subtree. -/
def findGapHere (size : ℕ) (node : Span V) (leftEnd : ℕ) (right : Option MaxGap) (treeMax : ℕ) :
    Except Fault Search := do
  let rightStart := (right.map (·.minAddr)).getD treeMax
  if size ≤ (← checkedSub node.start leftEnd) then return .found ⟨leftEnd,node.start⟩
  else if size ≤ (← checkedSub rightStart node.end_) then return .found ⟨node.end_,rightStart⟩
  else match right with
    | none => return .exhausted
    | some right => do
      if size ≤ right.maxGap then return .right
      else if size ≤ (← checkedSub treeMax right.maxAddr) then return .found ⟨right.maxAddr,treeMax⟩
      else return .exhausted

def findGapStep (size : ℕ) (node : Span V) (left right : Option MaxGap) (treeMin treeMax : ℕ) :
    Except Fault Search :=
  match left with
  | none => findGapHere size node treeMin right treeMax
  | some left => do
    if size ≤ (← checkedSub left.minAddr treeMin) then return .found ⟨treeMin,left.minAddr⟩
    else if size ≤ left.maxGap then return .left
    else findGapHere size node left.maxAddr right treeMax

/-- The augment value of a child, if there is a child. -/
def childGap (h : Heap (Span V) MaxGap) (child : Ptr) : Except Fault (Option MaxGap) :=
  match child with
  | none => .ok none
  | some a => do return some (← (← h.deref (some a)).expectAugment)

def findGapLoop (h : Heap (Span V) MaxGap) (size : ℕ) :
    ℕ → Ptr → ℕ → ℕ → Except Fault (Option Range)
  | 0, _, _, _ => .error .diverge
  | fuel+1, node, treeMin, treeMax => do
    let n ← h.deref node
    let left ← childGap h n.left
    let right ← childGap h n.right
    match ← findGapStep size n.value left right treeMin treeMax with
    | .found gap => return some gap
    | .left => findGapLoop h size fuel n.left treeMin n.value.start
    | .right => findGapLoop h size fuel n.right n.value.end_ treeMax
    | .exhausted => return none

namespace SpanAlloc

def findGap (self : SpanAlloc V) (size : ℕ) : Except Fault (Option Range) :=
  if self.spans.head.isNone then .ok (some self.range)
  else findGapLoop self.spans.heap size self.spans.heap.bound self.spans.head self.range.start
    self.range.end_

/-- `OwnedRbNode::new_direct` and the insertion of the node. `mem` is the error of the node
allocation, if it fails. -/
def insertSpan (self : SpanAlloc V) (span : Span V) (mem : Option MemoryError) :
    Except Fault (Except SpanError Unit × SpanAlloc V) :=
  match mem with
  | some e => .ok (.error (.memory e),self)
  | none => do
    let spans ← self.spans.insertNew span nodeCmp
    return (.ok (),{ self with spans := spans })

def insert (self : SpanAlloc V) (range : Range) (value : V) (mem : Option MemoryError) :
    Except Fault (Except SpanError Unit × SpanAlloc V) := do
  -- both comparisons are of `self.range` with itself
  if self.range.start < self.range.start ∨ self.range.end_ > self.range.end_ then
    return (.error .invalidAddress,self)
  else do
    let found ← self.spans.findRaw fun span _ =>
      if span.end_ ≤ range.start then .lt else if range.end_ ≤ span.start then .gt else .eq
    if found.isSome then return (.error .overlapped,self)
    else self.insertSpan ⟨range.start,range.end_,value⟩ mem

def alloc (self : SpanAlloc V) (size : ℕ) (value : V) (mem : Option MemoryError) :
    Except Fault (Except SpanError Range × SpanAlloc V) := do
  match ← self.findGap size with
  | none => return (.error .exhausted,self)
  | some gap => do
    let range : Range := ⟨gap.start,← checkedAdd gap.start size⟩
    let (result,self) ← self.insertSpan ⟨range.start,range.end_,value⟩ mem
    return (result.map fun _ => range,self)

def spanContaining (self : SpanAlloc V) (addr : ℕ) : Except Fault (Option V) := do
  match ← self.spans.findRaw (byContaining addr) with
  | none => return none
  | some a => return some (← self.spans.heap.deref (some a)).value.value

def free (self : SpanAlloc V) (addr : ℕ) : Except Fault ((Range × V) × SpanAlloc V) := do
  match ← self.spans.findRaw (byContaining addr) with
  | none => throw (.panic "free with pointer not virtual_alloc'd")
  | some a => do
    let (span,spans) ← self.spans.removeValue (some a)
    return ((⟨span.start,span.end_⟩,span.value),{ self with spans := spans })

end SpanAlloc

/-- A user address space, as far as its mappings go: the page table is not part of the model. -/
structure UserAddressSpace where
  mappings : SpanAlloc Unit

namespace UserAddressSpace

def new (heap : Heap (Span Unit) MaxGap) : UserAddressSpace := ⟨VirtualAlloc.new heap ⟨0,2^48⟩⟩

def addMapping (self : UserAddressSpace) (range : Range) (mem : Option MemoryError) :
    Except Fault UserAddressSpace := do
  let (result,mappings) ← self.mappings.insert range () mem
  match result with
  | .ok () => return ⟨mappings⟩
  | .error _ => throw (.panic "called `Result::unwrap()` on an `Err` value")

end UserAddressSpace
end Lilith.VirtualAlloc
