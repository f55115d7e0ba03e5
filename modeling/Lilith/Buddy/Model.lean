import Lilith.Fault

/-! The buddy allocator (`buddy.rs`) and the `FrameInfo` of page frames (`frame_info.rs`). Frames are numbered,
and a reference to a `FrameInfo` is the number of its frame; the frames whose `FrameInfo` is not mapped
have none, and touching it is a fault. A `FrameInfo` holds a union: reading a list node of a kind that was
not the last one written there is a fault, too. -/
namespace Lilith.Buddy

def FRAME_SIZE : ℕ := 4096
def FRAME_SHIFT : ℕ := 12
def FRAME_INFO_ADDR : ℕ := 0xFFFF900000000000
/-- the size of a `FrameInfo` -/
def FRAME_INFO_SIZE : ℕ := 64
def FRAME_INFO_SHIFT : ℕ := 6
def MAX_ORDER : ℕ := 10
def BUDDY_MAX : ℕ := FRAME_SIZE <<< MAX_ORDER

inductive FrameType where
  | reserved
  | buddy
  | buddyTail
  | buddyAllocated
  | slab
  deriving DecidableEq, Repr

/-- A pointer to a list node, which is in the array of heads or in the `FrameInfo` of a frame. -/
inductive ListPtr where
  | null
  | head (i : ℕ)
  | frame (n : ℕ)
  deriving DecidableEq, Repr

structure BuddyList where
  next : ListPtr
  prev : ListPtr
  order : ℕ
  deriving DecidableEq, Repr

structure SlabList where
  next : ListPtr
  prev : ListPtr
  /-- the address of the first free object, or zero -/
  freeList : ℕ
  freeCount : ℕ
  cacheIndex : ℕ
  deriving DecidableEq, Repr

inductive FrameInfoData where
  | none
  | buddyList (bl : BuddyList)
  | slabList (sl : SlabList)
  deriving DecidableEq, Repr

structure FrameInfo where
  ty : FrameType
  u : FrameInfoData
  deriving DecidableEq, Repr

structure BuddyAllocator where
  heads : ℕ → BuddyList
  /-- the `FrameInfo` of each frame, where it is mapped -/
  frames : ℕ → Option FrameInfo

/-- `frame_info_addr`, of a frame number -/
def frameInfoAddr (n : ℕ) : ℕ := FRAME_INFO_ADDR + n * FRAME_INFO_SIZE

/-- `from_frame_info_addr`, as a frame number -/
def fromFrameInfoAddr (virt : ℕ) : ℕ := (virt - FRAME_INFO_ADDR) / FRAME_INFO_SIZE

/-- The number of zero bits below the lowest bit of a 64-bit number that is set. -/
def trailingZeros (n : ℕ) : ℕ := ((List.range 64).find? n.testBit).getD 64

namespace BuddyAllocator

/-- `init`, after `new_page` has marked the frames in `mapped` as reserved -/
def init (mapped : ℕ → Bool) : BuddyAllocator where
  heads i := ⟨.head i,.head i,i⟩
  frames n := if mapped n then some ⟨.reserved,.none⟩ else none

/-- `frame_info` and a read of it -/
def frameInfo (self : BuddyAllocator) (n : ℕ) : Except Fault FrameInfo :=
  match self.frames n with
  | some fi => .ok fi
  | none => .error .dangling

/-- Overwrite a `FrameInfo`. -/
def setFrame (self : BuddyAllocator) (n : ℕ) (fi : FrameInfo) : BuddyAllocator :=
  { self with frames := fun m => if m = n then some fi else self.frames m }

def setTy (self : BuddyAllocator) (n : ℕ) (ty : FrameType) : Except Fault BuddyAllocator := do
  return self.setFrame n { ← self.frameInfo n with ty := ty }

/-- Read a list node. -/
def read (self : BuddyAllocator) : ListPtr → Except Fault BuddyList
  | .null => .error .nullDeref
  | .head i => if i ≤ MAX_ORDER then .ok (self.heads i) else .error .dangling
  | .frame n => do
    match (← self.frameInfo n).u with
    | .buddyList bl => return bl
    | _ => throw .dangling

/-- Overwrite a list node. -/
def write (self : BuddyAllocator) (p : ListPtr) (bl : BuddyList) : Except Fault BuddyAllocator :=
  match p with
  | .null => .error .nullDeref
  | .head i =>
    if i ≤ MAX_ORDER then .ok { self with heads := fun j => if j = i then bl else self.heads j }
    else .error .dangling
  | .frame n => do
    return self.setFrame n { ← self.frameInfo n with u := .buddyList bl }

def setNext (self : BuddyAllocator) (p next : ListPtr) : Except Fault BuddyAllocator := do
  self.write p { ← self.read p with next := next }

def setPrev (self : BuddyAllocator) (p prev : ListPtr) : Except Fault BuddyAllocator := do
  self.write p { ← self.read p with prev := prev }

/-- `BuddyList::insert` -/
def insert (self : BuddyAllocator) (list item : ListPtr) : Except Fault BuddyAllocator := do
  let l ← self.read list
  let self ← self.write item ⟨list,l.prev,l.order⟩
  let self ← self.setNext (← self.read list).prev item
  self.setPrev list item

/-- `BuddyList::pop_front` -/
def popFront (self : BuddyAllocator) (list : ListPtr) : Except Fault (Option ListPtr × BuddyAllocator) := do
  let item := (← self.read list).next
  if item ≠ list then
    let self ← self.setNext list (← self.read item).next
    let self ← self.setPrev (← self.read list).next list
    let self ← self.setPrev item .null
    let self ← self.setNext item .null
    return (some item,self)
  else return (none,self)

/-- `BuddyList::unlink` -/
def unlink (self : BuddyAllocator) (item : ListPtr) : Except Fault BuddyAllocator := do
  let self ← self.setPrev (← self.read item).next (← self.read item).prev
  let self ← self.setNext (← self.read item).prev (← self.read item).next
  let self ← self.setPrev item .null
  self.setNext item .null

/-- `BuddyList::frame_info` -/
def frameOf : ListPtr → Except Fault ℕ
  | .frame n => .ok n
  | _ => .error .dangling

/-- The element `heads[order]`. -/
def head (order : ℕ) : Except Fault ListPtr :=
  if order ≤ MAX_ORDER then .ok (.head order) else .error (.panic "index out of bounds")

/-- The inner loop of `buddy_add_range`: mark `count` frames from `n` on. -/
def setTails (self : BuddyAllocator) : ℕ → ℕ → Except Fault BuddyAllocator
  | _, 0 => .ok self
  | n, count+1 => do setTails (← self.setTy n .buddyTail) (n+1) count

/-- The order of the first block of a range. -/
def rangeOrder (addr end_ : ℕ) : ℕ :=
  min (trailingZeros ((addr >>> FRAME_SHIFT) ||| (1 <<< MAX_ORDER))) (Nat.log2 (end_ - addr) - FRAME_SHIFT)

def addRangeLoop : ℕ → BuddyAllocator → ℕ → ℕ → Except Fault BuddyAllocator
  | 0, _, _, _ => .error .diverge
  | fuel+1, self, addr, end_ =>
    if addr < end_ then do
      let order := rangeOrder addr end_
      let fi := addr / FRAME_SIZE
      let self ← self.insert (← head order) (.frame fi)
      let self ← self.setTy fi .buddy
      let self ← self.setTails (fi+1) (end_ / FRAME_SIZE - (fi+1))
      addRangeLoop fuel self (addr + 1 <<< (order + FRAME_SHIFT)) end_
    else .ok self

/-- `buddy_add_range`, of physical addresses -/
def addRange (self : BuddyAllocator) (addr end_ : ℕ) : Except Fault BuddyAllocator := do
  assert (addr % FRAME_SIZE = 0 ∧ end_ % FRAME_SIZE = 0)
    "assertion failed: addr.is_aligned(FRAME_SIZE as u64) && end.is_aligned(FRAME_SIZE as u64)"
  addRangeLoop (end_ - addr + 1) self addr end_

def getBuddy (fi order : ℕ) : ℕ :=
  fromFrameInfoAddr (frameInfoAddr fi ^^^ (1 <<< (order + FRAME_INFO_SHIFT)))

/-- `sort_buddies`. The bit is cleared by setting it and flipping it then. -/
def sortBuddies (fi order : ℕ) : ℕ × ℕ :=
  let bit := 1 <<< (order + FRAME_INFO_SHIFT)
  (fromFrameInfoAddr ((frameInfoAddr fi ||| bit) ^^^ bit),fromFrameInfoAddr (frameInfoAddr fi ||| bit))

/-- The loop of `alloc_min`, over the orders from `o` on. -/
def allocMinLoop (self : BuddyAllocator) : ℕ → ℕ → Except Fault (Except MemoryError (ℕ × ℕ) × BuddyAllocator)
  | 0, _ => .ok (.error .outOfMemory,self)
  | count+1, o => do
    match ← self.popFront (← head o) with
    | (some bl,self) => return (.ok (← frameOf bl,o),self)
    | (none,self) => allocMinLoop self count (o+1)

def allocMin (self : BuddyAllocator) (order : ℕ) : Except Fault (Except MemoryError (ℕ × ℕ) × BuddyAllocator) :=
  self.allocMinLoop (MAX_ORDER + 1 - order) order

/-- `(*fi.u.get()).buddy_list.order = order` -/
def setOrder (self : BuddyAllocator) (fi order : ℕ) : Except Fault BuddyAllocator := do
  self.write (.frame fi) { ← self.read (.frame fi) with order := order }

def split (self : BuddyAllocator) (fi : ℕ) : ℕ → ℕ → Except Fault BuddyAllocator
  | 0, _ => self.setOrder fi 0
  | order+1, targetOrder =>
    if order + 1 > targetOrder then do
      let otherFi := fi + 1 <<< order
      let self ← self.insert (← head order) (.frame otherFi)
      let self ← self.setTy otherFi .buddy
      split self fi order targetOrder
    else self.setOrder fi (order+1)

/-- `alloc`, with the physical address of the block -/
def alloc (self : BuddyAllocator) (order : ℕ) : Except Fault (Except MemoryError ℕ × BuddyAllocator) := do
  assert (order ≤ MAX_ORDER) "assertion failed: order <= MAX_ORDER"
  match ← self.allocMin order with
  | (.error e,self) => return (.error e,self)
  | (.ok (fi,o),self) => do
    let self ← self.split fi o order
    let self ← self.setTy fi .buddyAllocated
    return (.ok (fi * FRAME_SIZE),self)

/-- The panic of `merge`. -/
def tailFound : Fault := .panic "buddy tail found in merge -- shouldn't happen"

/-- One round of the loop of `merge`: the merged block, or `none` where the loop ends. -/
def mergeStep (self : BuddyAllocator) (fi order : ℕ) : Except Fault (Option (ℕ × BuddyAllocator)) := do
  let buddy := getBuddy fi order
  match (← self.frameInfo buddy).ty with
  | .reserved | .buddyAllocated | .slab => return none
  | .buddy => do
    if (← self.read (.frame buddy)).order ≠ order then return none
    else do
      let self ← self.unlink (.frame buddy)
      let (lower,higher) := sortBuddies fi order
      let self ← self.setTy higher .buddyTail
      return some (lower,self)
  | .buddyTail => throw tailFound

def mergeLoop : ℕ → BuddyAllocator → ℕ → ℕ → Except Fault (ℕ × ℕ × BuddyAllocator)
  | 0, self, fi, order => .ok (fi,order,self)
  | count+1, self, fi, order => do
    match ← self.mergeStep fi order with
    | none => return (fi,order,self)
    | some (lower,self) => mergeLoop count self lower (order+1)

def merge (self : BuddyAllocator) (fi order : ℕ) : Except Fault (ℕ × ℕ × BuddyAllocator) :=
  mergeLoop (MAX_ORDER - order) self fi order

def free (self : BuddyAllocator) (addr order : ℕ) : Except Fault BuddyAllocator := do
  let (mergedFi,mergedOrder,self) ← self.merge (addr / FRAME_SIZE) order
  let self ← self.insert (← head mergedOrder) (.frame mergedFi)
  self.setTy mergedFi .buddy

end BuddyAllocator
end Lilith.Buddy
