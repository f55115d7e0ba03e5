import Lilith.Direct.Correct
import Lilith.VirtualAlloc.AddressSpace
import Lilith.VirtualAlloc.Mappings

/-! The memory of user processes (`address_space.rs`, `user.rs`). A page gets its frame at the first access to it, whether it is
the process that accesses it or the kernel that loads the program. The page tables of the `x86_64` crate are modelled by what
they map in the user half. -/
namespace Lilith.User
open Boot (Layout)
open Buddy (FRAME_SIZE)
open Direct (Usage FRAME_LAYOUT)
open VirtualAlloc (Range MapToError)

def USER_STACK_BOTTOM : ℕ := 0x00007FFF00000000
def USER_STACK_SIZE : ℕ := 1048576

/-- The end of the addresses that a page table maps for the user. -/
def USER_END : ℕ := 2^47

def isUserAddress (virt : ℕ) : Bool := virt >>> 48 = 0

structure ProcMemory where
  addressSpace : VirtualAlloc.UserAddressSpace
  pageTable : ℕ
  /-- the frames of the pages in the user half -/
  pages : ℕ → Option ℕ

/-- The allocator with its live objects, the bytes of the physical memory, and the processes. -/
structure State where
  usage : Usage
  memory : ℕ → UInt8
  procs : ℕ → Option ProcMemory

/-- A frame as an object of the direct map. -/
def frameObject (phys : ℕ) : ℕ × Layout := (PHYSICAL_MEMORY_OFFSET + phys,FRAME_LAYOUT)

namespace State

/-- `alloc_frame().ok()` -/
def allocFrame (self : State) : Except Fault (Option ℕ × State) := do
  let (res,heap) ← Direct.allocFrame self.usage.heap
  match res with
  | .ok phys => return (some phys,{ self with usage := ⟨heap,self.usage.added,frameObject phys :: self.usage.live⟩ })
  | .error _ => return (none,{ self with usage := ⟨heap,self.usage.added,self.usage.live⟩ })

def zeroFrame (self : State) (addr : ℕ) : Except Fault State := do
  let _ ← physToVirt addr
  return { self with memory := fun a => if addr ≤ a ∧ a < addr + FRAME_SIZE then 0 else self.memory a }

/-- `Proc::new` and `UserAddressSpace::new`: whether there is a frame for the page table. -/
def newProc (self : State) (proc : ℕ) : Except Fault (Bool × State) := do
  let (frame,self) ← self.allocFrame
  match frame with
  | none => return (false,self)
  | some frame => do
    let _ ← physToVirt frame
    return (true,{ self with procs := Function.update self.procs proc (some ⟨.new ⟨[]⟩,frame,fun _ => none⟩) })

def addMapping (self : State) (proc : ℕ) (range : Range) (mem : Option MemoryError) : Except Fault State :=
  match self.procs proc with
  | none => .error .dangling
  | some p => do
    let addressSpace ← p.addressSpace.addMapping range mem
    return { self with procs := Function.update self.procs proc (some { p with addressSpace := addressSpace }) }

/-- The page tables that `map_to` adds: whether there are frames for them. -/
def addTables : ℕ → State → Except Fault (Bool × State)
  | 0, self => .ok (true,self)
  | k+1, self => do
    let (frame,self) ← self.allocFrame
    match frame with
    | none => return (false,self)
    | some _ => addTables k self

/-- `map_to` of a page for which it adds `tables` page tables. -/
def mapTo (self : State) (tables proc page frame : ℕ) : Except Fault (Except MapToError State) := do
  let (enough,self) ← self.addTables tables
  if ¬ enough then return .error .frameAllocationFailed
  else
    match self.procs proc with
    | none => .error .dangling
    | some p =>
      if (p.pages page).isSome then return .error .pageAlreadyMapped
      else return .ok { self with
        procs := Function.update self.procs proc (some { p with pages := Function.update p.pages page (some frame) }) }

/-- `page_fault_handler`: whether it returns. -/
def pageFaultHandler (self : State) (tables : ℕ) (currentProc : Option ℕ) (addr : ℕ) : Except Fault (Bool × State) :=
  if isUserAddress addr then
    match currentProc with
    | none => return (false,self)
    | some proc =>
      match self.procs proc with
      | none => .error .dangling
      | some p => do
        let mapping ← p.addressSpace.mappings.spanContaining addr
        if mapping.isSome then do
          let (frame,self) ← self.allocFrame
          match frame with
          | none => .error (.panic "called `Option::unwrap()` on a `None` value")
          | some frame => do
            let self ← self.zeroFrame frame
            match ← self.mapTo tables proc (addr / FRAME_SIZE) frame with
            | .ok self => return (true,self)
            | .error .frameAllocationFailed =>
              .error (.panic "called `Result::unwrap()` on an `Err` value: FrameAllocationFailed")
            | .error .pageAlreadyMapped => .error (.panic "called `Result::unwrap()` on an `Err` value: PageAlreadyMapped")
        else return (false,self)
  else return (false,self)

/-- What the CPU finds in the page table of a process. -/
def translate (self : State) (proc addr : ℕ) : Option ℕ := do
  let p ← self.procs proc
  let frame ← if addr < USER_END then p.pages (addr / FRAME_SIZE) else none
  return frame + addr % FRAME_SIZE

/-- An access to an address of the active process: the physical address, or nothing where the handler does not return. The
access is repeated when it does. -/
def access (self : State) (tables proc addr : ℕ) : Except Fault (Option ℕ × State) :=
  match self.translate proc addr with
  | some phys => return (some phys,self)
  | none =>
    -- in the kernel half nothing is mapped for the user, and `is_user_address` keeps the handler from changing that
    if addr < USER_END then do
      let (handled,self) ← self.pageFaultHandler tables (some proc) addr
      if handled then return (self.translate proc addr,self) else return (none,self)
    else return (none,self)

def write (self : State) (phys : ℕ) (byte : UInt8) : State := { self with memory := Function.update self.memory phys byte }

end State

/-- `VirtAddr::new` of the `x86_64` crate, which extends the sign of an address with 48 bits. -/
def virtAddr (addr : ℕ) : Except Fault ℕ :=
  if addr < USER_END then .ok addr
  else if addr < 2^48 then .ok (addr + (2^64 - 2^48))
  else if 2^64 - 2^47 ≤ addr then .ok addr
  else .error (.panic "address passed to VirtAddr::new must not contain any data in bits 48 to 64")

/-- A program header, as the `xmas_elf` crate gives it: the data is that of the file, if it can be read. -/
structure ProgramHeader where
  load : Bool
  virtualAddr : ℕ
  memSize : ℕ
  data : Option (List UInt8)

section Load
variable (tables : ℕ → ℕ) (proc : ℕ)

/-- `copy_from_slice` to an address. In the process, the mapping of a page adds `tables` of it page tables. The kernel may also
write to its own half, of which the direct map is known here. -/
def copyFromSlice : ℕ → List UInt8 → State → Except Fault State
  | _, [], self => .ok self
  | addr, byte::data, self =>
    if addr < USER_END then do
      match ← self.access (tables (addr / FRAME_SIZE)) proc addr with
      | (some phys,self) => copyFromSlice (addr+1) data (self.write phys byte)
      -- `unhandled_fault` does not return
      | (none,_) => .error .diverge
    else match virtToPhys addr with
      | some phys => copyFromSlice (addr+1) data (self.write phys byte)
      | none => .error .dangling

/-- The body of the loop of `load_elf`. -/
def loadSegment (self : State) (h : ProgramHeader) : Except Fault State :=
  if h.load then do
    let va ← virtAddr h.virtualAddr
    let self ← self.addMapping proc ⟨va,← virtAddr (← checkedAdd va h.memSize)⟩ none
    match h.data with
    | none => .error (.panic "elf parsing error")
    | some data => copyFromSlice tables proc va data self
  else .ok self

def loadElf (self : State) (headers : List ProgramHeader) : Except Fault State := do
  let self ← headers.foldlM (loadSegment tables proc) self
  self.addMapping proc ⟨USER_STACK_BOTTOM,USER_STACK_BOTTOM + USER_STACK_SIZE⟩ none

end Load
end Lilith.User
