import Lilith.Buddy.Model
import Lilith.Boot.Model
import Lilith.DirectMap

/-! The slab allocator (`slub.rs`). Its bookkeeping is in the `FrameInfo` of the frames that it takes from the buddy
allocator, and the list of free objects of a slab goes through the objects themselves. -/
namespace Lilith.Slub
open Buddy (ListPtr SlabList FrameInfo FrameType BuddyAllocator FRAME_SIZE)
open Boot (Layout)

structure SlabCache where
  list : SlabList
  objectSize : ℕ
  slabOrder : ℕ
  maxFreeCount : ℕ
  deriving DecidableEq, Repr

/-- The slab allocator with what it works on. -/
structure Heap where
  buddy : BuddyAllocator
  slabs : ℕ → SlabCache
  sizeLookup : List ℕ
  /-- the pointer that is stored at each address of the direct map -/
  words : ℕ → ℕ

def NUM_SIZE_CLASSES : ℕ := 11
def SIZE_CLASSES : List ℕ := [8,16,24,32,48,64,96,128,256,512,1024]
def SLUB_MAX : ℕ := 1024

/-- The number of zero bits above the highest bit of a 64-bit number that is set. -/
def leadingZeros (n : ℕ) : ℕ := if n = 0 then 64 else 63 - Nat.log2 n

/-- The lowest bit of a 64-bit number that is set. -/
def isolateLowestOne (n : ℕ) : ℕ := n &&& (2^64 - n)

def clog2 (n : ℕ) : Except Fault ℕ := do return 64 - leadingZeros (← checkedSub n 1)

/-- An index behind the end of an array. -/
def outOfBounds : Fault := .panic "index out of bounds"

def initSizeLookup : Except Fault (List ℕ) := do
  assert (SLUB_MAX ≠ 0 ∧ SLUB_MAX &&& (SLUB_MAX - 1) = 0) "assertion failed: SLUB_MAX.is_power_of_two()"
  SIZE_CLASSES.zipIdx.foldlM (fun table (value,index) => do
    return (List.range ((← clog2 value) + 1)).foldl (fun table i => table.modify i (min · index)) table)
    (List.replicate ((← clog2 SLUB_MAX) + 1) (2^64 - 1))

/-- The loop of `find_class`, over the classes from `index` on. -/
def findClassLoop (size align : ℕ) : List ℕ → ℕ → Except Fault (ℕ × ℕ)
  | [], _ => .error outOfBounds
  | c :: cs, index =>
    if size ≤ c ∧ align ≤ isolateLowestOne c then .ok (index,c) else findClassLoop size align cs (index+1)

namespace Heap

/-- The allocator before `slub_init`: `SlubAllocator::dummy`, and a table that was not set. -/
def dummy (buddy : BuddyAllocator) (words : ℕ → ℕ) : Heap where
  buddy := buddy
  slabs _ := ⟨⟨.null,.null,0,0,0⟩,0,0,0⟩
  sizeLookup := []
  words := words

def findClass (self : Heap) (layout : Layout) : Except Fault (ℕ × ℕ) := do
  assert (layout.size ≤ SLUB_MAX ∧ layout.align ≤ SLUB_MAX) "assertion failed: size <= SLUB_MAX && align <= SLUB_MAX"
  match self.sizeLookup[← clog2 layout.size]? with
  | some index => findClassLoop layout.size layout.align (SIZE_CLASSES.drop index) index
  | none => .error outOfBounds

/-- `slub_init` -/
def slubInit (self : Heap) : Except Fault Heap := do
  let sizeLookup ← initSizeLookup
  return { self with
    sizeLookup := sizeLookup
    slabs := fun index =>
      match SIZE_CLASSES[index]? with
      | some size =>
        ⟨{ (self.slabs index).list with next := .head index, prev := .head index, cacheIndex := index },size,0,
          (FRAME_SIZE <<< 0) / size⟩
      | none => self.slabs index }

/-- The element `slabs[index]`. -/
def slab (self : Heap) (index : ℕ) : Except Fault SlabCache :=
  if index < NUM_SIZE_CLASSES then .ok (self.slabs index) else .error outOfBounds

/-- Read a list node. -/
def read (self : Heap) : ListPtr → Except Fault SlabList
  | .null => .error .nullDeref
  | .head i => if i < NUM_SIZE_CLASSES then .ok (self.slabs i).list else .error .dangling
  | .frame n => do
    match (← self.buddy.frameInfo n).u with
    | .slabList sl => return sl
    | _ => throw .dangling

/-- Overwrite a list node. -/
def write (self : Heap) (p : ListPtr) (sl : SlabList) : Except Fault Heap :=
  match p with
  | .null => .error .nullDeref
  | .head i =>
    if i < NUM_SIZE_CLASSES then
      .ok { self with slabs := fun j => if j = i then { self.slabs i with list := sl } else self.slabs j }
    else .error .dangling
  | .frame n => do
    return { self with buddy := self.buddy.setFrame n { ← self.buddy.frameInfo n with u := .slabList sl } }

def setNext (self : Heap) (p next : ListPtr) : Except Fault Heap := do
  self.write p { ← self.read p with next := next }

def setPrev (self : Heap) (p prev : ListPtr) : Except Fault Heap := do
  self.write p { ← self.read p with prev := prev }

/-- `SlabList::insert` -/
def insert (self : Heap) (list item : ListPtr) : Except Fault Heap := do
  let self ← self.setNext item list
  let self ← self.setPrev item (← self.read list).prev
  let self ← self.setNext (← self.read list).prev item
  self.setPrev list item

/-- `SlabList::unlink` -/
def unlink (self : Heap) (item : ListPtr) : Except Fault Heap := do
  let self ← self.setPrev (← self.read item).next (← self.read item).prev
  let self ← self.setNext (← self.read item).prev (← self.read item).next
  let self ← self.setPrev item .null
  self.setNext item .null

/-- The variables of the loop of `init_slab`: `pp` is the address of a word, or of `list_start`. -/
structure Cursor where
  listStart : ℕ
  words : ℕ → ℕ
  pp : Option ℕ

/-- `*pp = p` -/
def Cursor.store (self : Cursor) (p : ℕ) : Cursor :=
  match self.pp with
  | none => { self with listStart := p }
  | some a => { self with words := Function.update self.words a p }

/-- A round of the loop of `init_slab`. -/
def Cursor.link (self : Cursor) (p : ℕ) : Cursor := { self.store p with pp := some p }

def initSlab (self : Heap) (cache : SlabCache) (addr : ℕ) : Except Fault Heap := do
  let ptr ← physToVirt addr
  let cursor := (List.range cache.maxFreeCount).foldl (fun cursor i => Cursor.link cursor (ptr + cache.objectSize * i))
    ⟨0,self.words,none⟩
  let cursor := cursor.store 0
  { self with words := cursor.words }.write (.frame (addr / FRAME_SIZE))
    ⟨.null,.null,cursor.listStart,cache.maxFreeCount,cache.list.cacheIndex⟩

/-- `grab_slab` of the cache `index`, with the frame of the slab -/
def grabSlab (self : Heap) (index : ℕ) : Except Fault (Except MemoryError ℕ × Heap) := do
  let cache ← self.slab index
  if cache.list.next ≠ .head index then return (.ok (← BuddyAllocator.frameOf cache.list.next),self)
  else do
    match ← self.buddy.alloc cache.slabOrder with
    | (.error e,buddy) => return (.error e,{ self with buddy := buddy })
    | (.ok addr,buddy) => do
      let fi := addr / FRAME_SIZE
      let self ← { self with buddy := buddy }.initSlab cache addr
      let self ← self.insert (.head index) (.frame fi)
      return (.ok fi,{ self with buddy := ← self.buddy.setTy fi .slab })

/-- `put_slab` of the cache `index` -/
def putSlab (self : Heap) (index fi : ℕ) : Except Fault Heap := do
  let cache ← self.slab index
  let sl ← self.read (.frame fi)
  if sl.freeCount = 1 then self.insert (.head index) (.frame fi)
  else if sl.freeCount = cache.maxFreeCount then do
    let self ← self.unlink (.frame fi)
    return { self with buddy := ← self.buddy.free (fi * FRAME_SIZE) cache.slabOrder }
  else return self

/-- `*(p as *mut *mut ())` -/
def load (self : Heap) (p : ℕ) : Except Fault ℕ := if p = 0 then .error .nullDeref else .ok (self.words p)

/-- `SlubAllocator::alloc` -/
def alloc (self : Heap) (layout : Layout) : Except Fault (Except MemoryError ℕ × Heap) := do
  let (index,_) ← self.findClass layout
  match ← self.grabSlab index with
  | (.error e,self) => return (.error e,self)
  | (.ok fi,self) => do
    let sl ← self.read (.frame fi)
    let p := sl.freeList
    let freeList ← self.load p
    let freeCount ← checkedSub sl.freeCount 1
    let self ← self.write (.frame fi) { sl with freeList := freeList, freeCount := freeCount }
    if freeCount = 0 then return (.ok p,← self.unlink (.frame fi))
    else return (.ok p,self)

/-- `SlubAllocator::free` -/
def free (self : Heap) (object : ℕ) : Except Fault Heap := do
  match virtToPhys object with
  | none => .error (.panic "address passed to free not in direct map")
  | some phys => do
    let fi := phys / FRAME_SIZE
    assert ((← self.buddy.frameInfo fi).ty = .slab) "assertion failed: left == right"
    let sl ← self.read (.frame fi)
    let self := { self with words := Function.update self.words object sl.freeList }
    let freeCount ← if sl.freeCount + 1 < 2^16 then .ok (sl.freeCount + 1) else .error .overflow
    let self ← self.write (.frame fi) { sl with freeList := object, freeCount := freeCount }
    self.putSlab sl.cacheIndex fi

end Heap
end Lilith.Slub
