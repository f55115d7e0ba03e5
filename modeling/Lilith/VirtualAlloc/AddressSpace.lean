import Lilith.Boot.Model
import Lilith.Buddy.Model
import Lilith.VirtualAlloc.Runs

/-! The virtual allocator (`virtual_alloc.rs`) and the page table of the kernel (`address_space.rs`). The buddy allocator
and the `x86_64` crate are the environment: for every page to be mapped it says which frame there is for it, if any, and
whether there are frames for the page tables that `map_to` adds. -/
namespace Lilith.VirtualAlloc
open Boot (Layout nextMultipleOf)
open Buddy (FRAME_SIZE)

def PHYSICAL_MEMORY_MAX_SIZE : ℕ := 4 * 1024 * 1024 * 1024 * 1024
def VIRTUAL_ALLOCATOR_START : ℕ := 0xFFFFA00000000000
def VIRTUAL_ALLOCATOR_END : ℕ := 0xFFFFB00000000000

/-- What the environment does when a page is mapped. -/
structure PageEnv where
  /-- the frame that `alloc_frame` returns -/
  frame : Option ℕ
  /-- `map_to` gets the frames that it needs for page tables -/
  tables : Bool
  deriving DecidableEq, Repr

inductive MapToError where
  | frameAllocationFailed
  | pageAlreadyMapped
  deriving DecidableEq, Repr

/-- The pages of the kernel with their frames, and the frames that were taken from the buddy allocator for pages. -/
structure KernelAddressSpace where
  pages : ℕ → Option ℕ
  frames : Finset ℕ

namespace KernelAddressSpace

/-- `map_to` of the `x86_64` crate. The page is the one that contains the address. -/
def mapTo (self : KernelAddressSpace) (addr phys : ℕ) (tables : Bool) : Except MapToError KernelAddressSpace :=
  if (self.pages (addr / FRAME_SIZE)).isSome then .error .pageAlreadyMapped
  else if tables then .ok { self with pages := Function.update self.pages (addr / FRAME_SIZE) (some phys) }
  else .error .frameAllocationFailed

def mapNewPage (self : KernelAddressSpace) (env : PageEnv) (addr : ℕ) :
    Except Fault (Except MemoryError Unit × KernelAddressSpace) :=
  match env.frame with
  | none => .ok (.error .outOfMemory,self)
  | some phys =>
    match { self with frames := insert phys self.frames }.mapTo addr phys env.tables with
    | .ok self => .ok (.ok (),self)
    | .error .frameAllocationFailed => .error (.panic "called `Result::unwrap()` on an `Err` value: FrameAllocationFailed")
    | .error .pageAlreadyMapped => .error (.panic "called `Result::unwrap()` on an `Err` value: PageAlreadyMapped")

/-- `kernel_free` of a frame in the direct map. The frame at 0 has the address of `ZST_SENTINEL`. -/
def kernelFree (self : KernelAddressSpace) (phys : ℕ) : Except Fault KernelAddressSpace :=
  if phys = 0 then .ok self
  else if phys ∈ self.frames then .ok { self with frames := self.frames.erase phys }
  else .error (.panic "invalid address passed to direct_free")

def unmapPage (self : KernelAddressSpace) (addr : ℕ) : Except Fault KernelAddressSpace :=
  match self.pages (addr / FRAME_SIZE) with
  | none => .error (.panic "called `Result::unwrap()` on an `Err` value: PageNotMapped")
  | some phys => do
    assert (phys < PHYSICAL_MEMORY_MAX_SIZE) "assertion failed: phys.as_u64() < PHYSICAL_MEMORY_MAX_SIZE as u64"
    { self with pages := Function.update self.pages (addr / FRAME_SIZE) none }.kernelFree phys

end KernelAddressSpace

/-- The number of addresses in `range.step_by(FRAME_SIZE)`. -/
def Range.steps (range : Range) : ℕ := (range.end_ - range.start + (FRAME_SIZE - 1)) / FRAME_SIZE

/-- The loop of `try_map_pages`, at the `i`-th address of the range. -/
def tryMapLoop (env : ℕ → PageEnv) (start : ℕ) :
    ℕ → ℕ → KernelAddressSpace → Except Fault (Except (Range × MemoryError) Unit × KernelAddressSpace)
  | 0, _, kernelAs => .ok (.ok (),kernelAs)
  | n+1, i, kernelAs => do
    let addr := start + i * FRAME_SIZE
    let (result,kernelAs) ← kernelAs.mapNewPage (env i) addr
    match result with
    | .error e => return (.error (⟨start,addr⟩,e),kernelAs)
    | .ok () => tryMapLoop env start n (i+1) kernelAs

def tryMapPages (env : ℕ → PageEnv) (range : Range) (kernelAs : KernelAddressSpace) :
    Except Fault (Except (Range × MemoryError) Unit × KernelAddressSpace) :=
  tryMapLoop env range.start range.steps 0 kernelAs

/-- The loop of `unmap_pages`, at the `i`-th address of the range. -/
def unmapLoop (start : ℕ) : ℕ → ℕ → KernelAddressSpace → Except Fault KernelAddressSpace
  | 0, _, kernelAs => .ok kernelAs
  | n+1, i, kernelAs => do unmapLoop start n (i+1) (← kernelAs.unmapPage (start + i * FRAME_SIZE))

def unmapPages (range : Range) (kernelAs : KernelAddressSpace) : Except Fault KernelAddressSpace :=
  unmapLoop range.start range.steps 0 kernelAs

structure VirtualAllocation where
  guardBottom : ℕ
  guardTop : ℕ
  deriving DecidableEq, Repr

structure AllocSettings where
  guardBottom : ℕ
  guardTop : ℕ
  deriving DecidableEq, Repr

/-- The allocator, with the address space of the kernel that it locks. -/
structure VirtualAllocator where
  spans : SpanAlloc VirtualAllocation
  kernelAs : KernelAddressSpace

def errMap : SpanError → Except Fault MemoryError
  | .memory e => .ok e
  | .exhausted => .ok .outOfVirtual
  | .overlapped | .invalidAddress => .error (.panic "internal error: entered unreachable code")

namespace VirtualAllocator

def new (heap : Rbtree.Heap (Span VirtualAllocation) MaxGap) (kernelAs : KernelAddressSpace) : VirtualAllocator :=
  ⟨VirtualAlloc.new heap ⟨VIRTUAL_ALLOCATOR_START,VIRTUAL_ALLOCATOR_END⟩,kernelAs⟩

/-- The first part of `alloc`, which reserves a span: the range to be mapped. `mem` is the error of the node allocation,
if it fails. -/
def reserve (self : VirtualAllocator) (layout : Layout) (settings : AllocSettings) (mem : Option MemoryError) :
    Except Fault (Except MemoryError Range × VirtualAllocator) := do
  let guardBottom ← nextMultipleOf settings.guardBottom FRAME_SIZE
  let guardTop ← nextMultipleOf settings.guardTop FRAME_SIZE
  let layout ← layout.padTo FRAME_SIZE
  assert (layout.align ≤ 4096) "assertion failed: layout.align() <= 4096"
  let totalSize ← checkedAdd (← checkedAdd layout.size guardBottom) guardTop
  let (result,spans) ← self.spans.alloc totalSize ⟨guardBottom,guardTop⟩ mem
  match result with
  | .error e => return (.error (← errMap e),{ self with spans := spans })
  | .ok totalRange => do
    let start ← checkedAdd totalRange.start settings.guardBottom
    let end_ ← checkedSub totalRange.end_ settings.guardTop
    return (.ok ⟨start,end_⟩,{ self with spans := spans })

/-- `alloc`. The range to be mapped is cut off by the guards of the settings, not by the rounded ones. -/
def alloc (self : VirtualAllocator) (layout : Layout) (settings : AllocSettings) (mem : Option MemoryError)
    (env : ℕ → PageEnv) : Except Fault (Except MemoryError ℕ × VirtualAllocator) := do
  let (result,self) ← self.reserve layout settings mem
  match result with
  | .error e => return (.error e,self)
  | .ok range => do
    let (result,kernelAs) ← tryMapPages env range self.kernelAs
    match result with
    | .ok () => return (.ok range.start,{ self with kernelAs := kernelAs })
    | .error (doneRange,err) => do
      let kernelAs ← unmapPages doneRange kernelAs
      let (_,spans) ← self.spans.free range.start
      return (.error err,⟨spans,kernelAs⟩)

def free (self : VirtualAllocator) (addr : ℕ) : Except Fault VirtualAllocator := do
  let ((totalRange,allocation),spans) ← self.spans.free addr
  let start ← checkedAdd totalRange.start allocation.guardBottom
  let end_ ← checkedSub totalRange.end_ allocation.guardTop
  assert (addr = start) "assertion `left == right` failed"
  return ⟨spans,← unmapPages ⟨start,end_⟩ self.kernelAs⟩

end VirtualAllocator
end Lilith.VirtualAlloc
