import Lilith.Machine.Entry

/-! The threads of the kernel on one processor, down to their stacks. The compiled code of the kernel and the programs in user
mode do what they like with registers and memory, apart from the rules of a calling convention and of page protection. -/
namespace Lilith.Machine
open Theory.X86

/-- What a thread has entered the kernel for: the address of the `TrapFrame` and the context at that moment. A system call
may set the field `rax` of the frame. -/
inductive Trap where
  | interrupt (frame : ℕ) (ctx : Context) (intNum errorCode : ℕ)
  | syscall (frame : ℕ) (ctx : Context) (rax : ℕ)

namespace Trap

def frame : Trap → ℕ
  | .interrupt frame _ _ _ => frame
  | .syscall frame _ _ => frame

def ctx : Trap → Context
  | .interrupt _ ctx _ _ => ctx
  | .syscall _ ctx _ => ctx

/-- The context that a program finds after a system call. -/
def afterSyscall (ctx : Context) (rax : ℕ) : Context :=
  { syscallContext ctx with reg := Function.update (syscallContext ctx).reg .rax rax }

/-- The words from the return address of the handler on. -/
def words (sym : Symbols) : Trap → List ℕ
  | .interrupt _ ctx intNum errorCode => sym.intHandlerReturn::trapFrame ctx intNum errorCode
  | .syscall _ ctx rax => sym.syscallHandlerReturn::trapFrame (afterSyscall ctx rax) SYSCALL_SENTINEL_INT_NUM 0

end Trap

/-- Where the part of a stack below the frames of traps starts. -/
def baseOf (top : ℕ) : List Trap → ℕ
  | [] => top
  | trap::_ => trap.frame - 8

/-- A thread: its kernel stack and the place of its `SwitchFrame`, and what it has not returned from yet, the last one first.
While it does not run, there are also the registers it was left with, and the memory at that moment. -/
structure Thread where
  bottom : ℕ
  top : ℕ
  place : ℕ
  traps : List Trap
  saved : SwitchFrame
  image : ℕ → ℕ

namespace Thread

/-- The stack from here on belongs to the callers of the code that runs. -/
def base (self : Thread) : ℕ := baseOf self.top self.traps

def InPlace (self : Thread) (a : ℕ) : Prop := self.place ≤ a ∧ a < self.place + SWITCH_FRAME_SIZE

def Owns (self : Thread) (a : ℕ) : Prop := (self.saved.rsp ≤ a ∧ a < self.top) ∨ self.InPlace a

def leave (self : Thread) (cpu : Cpu) : Thread := { self with saved := SwitchFrame.ofCaller cpu, image := cpu.mem }

structure Shape (t : Thread) : Prop where
  low : 8 ≤ t.bottom
  le : t.bottom ≤ t.top
  aligned : 16 ∣ t.top
  place : 8 ∣ t.place
  outside : t.place + SWITCH_FRAME_SIZE ≤ t.bottom ∨ t.top ≤ t.place

structure Apart (s t : Thread) : Prop where
  kernelStacks : s.top ≤ t.bottom ∨ t.top ≤ s.bottom
  places : s.place + SWITCH_FRAME_SIZE ≤ t.place ∨ t.place + SWITCH_FRAME_SIZE ≤ s.place
  left : s.place + SWITCH_FRAME_SIZE ≤ t.bottom ∨ t.top ≤ s.place
  right : t.place + SWITCH_FRAME_SIZE ≤ s.bottom ∨ s.top ≤ t.place

end Thread

structure System where
  cpu : Cpu
  current : ℕ
  threads : ℕ → Option Thread

namespace System

/-- The memory that the code of the running thread leaves alone: the stack of its callers, and what other threads own. -/
def Guarded (self : System) (a : ℕ) : Prop :=
  (∃ t, self.threads self.current = some t ∧ t.base ≤ a ∧ a < t.top) ∨
    ∃ id t, id ≠ self.current ∧ self.threads id = some t ∧ t.Owns a

def step (self : System) (cpu : Cpu) (t : Thread) (traps : List Trap) : System :=
  { self with cpu := cpu, threads := Function.update self.threads self.current (some { t with traps := traps }) }

end System

def USER_STACK_BOTTOM : ℕ := 0x7FFF00000000
def USER_STACK_SIZE : ℕ := 1048576
def MIN_STACK : ℕ := 8192

def setKernelRsp (sym : Symbols) (cpu : Cpu) (rsp : ℕ) : Cpu :=
  { cpu with gs := Function.update cpu.gs sym.mach (Function.update (cpu.gs sym.mach) sym.kernelRspOffset rsp) }

/-- The stack pointer of a new thread, below a copy of its closure. -/
def spawnRsp (top size align : ℕ) : ℕ := (top - size) / align * align / 16 * 16

def spawnRegs (sym : Symbols) (fn rsp : ℕ) : SwitchFrame := ⟨fn,0,0,0,0,0,sym.threadEntryStub,rsp⟩

section Steps
variable (sym : Symbols)

inductive Step : System → System → Prop
  /-- compiled code of the kernel, which keeps its stack pointer on its part of the stack -/
  | work {s : System} {t : Thread} {cpu : Cpu} (ht : s.threads s.current = some t) (hk : s.cpu.cs = KERNEL_CODE_SELECTOR)
      (hrip : s.cpu.rip ≠ sym.threadEntryStub) (hcs : cpu.cs = s.cpu.cs) (hbase : cpu.gsBase = s.cpu.gsBase)
      (hkbase : cpu.kernelGsBase = s.cpu.kernelGsBase)
      (htss : cpu.gs sym.mach sym.kernelRspOffset = s.cpu.gs sym.mach sym.kernelRspOffset)
      (hrsp : t.bottom ≤ cpu.reg .rsp ∧ cpu.reg .rsp ≤ t.base) (hmem : ∀ a, s.Guarded a → cpu.mem a = s.cpu.mem a) :
      Step s { s with cpu := cpu }
  /-- a program in user mode, which cannot write to the memory of the kernel -/
  | user {s : System} {cpu : Cpu} (hu : s.cpu.cs = USER_CODE_SELECTOR) (hcs : cpu.cs = s.cpu.cs) (hss : cpu.ss = s.cpu.ss)
      (hkbase : cpu.kernelGsBase = s.cpu.kernelGsBase) (hgs : cpu.gs sym.mach = s.cpu.gs sym.mach)
      (hmem : ∀ a, s.Guarded a → cpu.mem a = s.cpu.mem a) : Step s { s with cpu := cpu }
  /-- an interrupt or an exception, other than a double fault, which has its own stack -/
  | interrupt {s : System} {t : Thread} {cpu : Cpu} {n e : ℕ} (ht : s.threads s.current = some t) (hn : n ≠ 8)
      (hroom : t.bottom + 184 ≤ trapStack sym s.cpu) (hrip : s.cpu.rip ≠ sym.threadEntryStub)
      (hrun : interrupted sym s.cpu n e = some cpu) :
      Step s (s.step cpu t (.interrupt (trapStack sym s.cpu - TRAP_FRAME_SIZE) s.cpu.toContext n (errorCodeOf n e)::t.traps))
  | interruptReturn {s : System} {t : Thread} {cpu : Cpu} {f n e : ℕ} {ctx : Context} {traps : List Trap}
      (ht : s.threads s.current = some t) (htraps : t.traps = .interrupt f ctx n e::traps)
      (hk : s.cpu.cs = KERNEL_CODE_SELECTOR) (hrsp : s.cpu.reg .rsp = f - 8)
      (hrun : interruptReturn sym s.cpu = some cpu) : Step s (s.step cpu t traps)
  | syscall {s : System} {t : Thread} {cpu : Cpu} (ht : s.threads s.current = some t)
      (hu : s.cpu.cs = USER_CODE_SELECTOR) (hroom : t.bottom + 184 ≤ t.top) (hrun : syscalled sym s.cpu = some cpu) :
      Step s (s.step cpu t (.syscall (t.top - TRAP_FRAME_SIZE) s.cpu.toContext (s.cpu.reg .rax)::t.traps))
  /-- `syscall_handler` sets the result of a system call -/
  | setRax {s : System} {t : Thread} {f rax : ℕ} {ctx : Context} {traps : List Trap} (v : ℕ)
      (ht : s.threads s.current = some t) (htraps : t.traps = .syscall f ctx rax::traps)
      (hk : s.cpu.cs = KERNEL_CODE_SELECTOR) :
      Step s (s.step { s.cpu with mem := Function.update s.cpu.mem f v } t (.syscall f ctx v::traps))
  | syscallReturn {s : System} {t : Thread} {cpu : Cpu} {f rax : ℕ} {ctx : Context} {traps : List Trap}
      (ht : s.threads s.current = some t) (htraps : t.traps = .syscall f ctx rax::traps)
      (hk : s.cpu.cs = KERNEL_CODE_SELECTOR) (hrsp : s.cpu.reg .rsp = f - 8)
      (hrun : syscallReturn sym s.cpu = some cpu) : Step s (s.step cpu t traps)
  /-- `sched()` sets the stack of the next thread for entries from user mode, and calls `switch` -/
  | switch {s : System} {t u : Thread} {id : ℕ} {cpu : Cpu} (ht : s.threads s.current = some t)
      (hne : id ≠ s.current) (hu : s.threads id = some u) (hk : s.cpu.cs = KERNEL_CODE_SELECTOR)
      (hrip : s.cpu.rip ≠ sym.threadEntryStub) (hrdi : s.cpu.reg .rdi = t.place) (hrsi : s.cpu.reg .rsi = u.place)
      (h8 : 8 ∣ s.cpu.reg .rsp) (hback : s.cpu.reg .rsp + 8 ≤ t.base)
      (hrun : run 0 switch (setKernelRsp sym s.cpu u.top) = some cpu) :
      Step s ⟨cpu,id,Function.update s.threads s.current (some (t.leave s.cpu))⟩
  /-- a new thread runs for the first time -/
  | start {s : System} {t : Thread} {cpu : Cpu} (ht : s.threads s.current = some t) (hk : s.cpu.cs = KERNEL_CODE_SELECTOR)
      (hrip : s.cpu.rip = sym.threadEntryStub) (h8 : 8 ∣ s.cpu.reg .rsp) (hroom : t.bottom + 8 ≤ s.cpu.reg .rsp)
      (hrun : run 0 (threadEntryStub sym) s.cpu = some cpu) : Step s { s with cpu := cpu }
  /-- `spawn_inner`, with fresh memory for the thread -/
  | spawn {s : System} {t : Thread} {id fn size align : ℕ} (data : ℕ → ℕ) (hk : s.cpu.cs = KERNEL_CODE_SELECTOR)
      (hnew : s.threads id = none) (hshape : t.Shape) (hapart : ∀ i u, s.threads i = some u → t.Apart u)
      (halign : 0 < align) (htraps : t.traps = []) (hroom : t.bottom + MIN_STACK ≤ spawnRsp t.top size align)
      (hsaved : t.saved = spawnRegs sym fn (spawnRsp t.top size align))
      (himage : t.image = fun a => if t.saved.rsp ≤ a ∧ a < t.saved.rsp + size then data (a - t.saved.rsp) else
        writeWords s.cpu.mem t.place t.saved.words a) :
      Step s ⟨{ s.cpu with mem := t.image },s.current,Function.update s.threads id (some t)⟩
  /-- the list of threads grows, and moves to another place -/
  | grow {s : System} {cpu : Cpu} (place : ℕ → ℕ) (hk : s.cpu.cs = KERNEL_CODE_SELECTOR)
      (hcpu : cpu.toContext = s.cpu.toContext ∧ cpu.gsBase = s.cpu.gsBase ∧ cpu.kernelGsBase = s.cpu.kernelGsBase ∧
        cpu.gs = s.cpu.gs)
      (hshape : ∀ id t, s.threads id = some t → ({ t with place := place id } : Thread).Shape)
      (hapart : ∀ i j t u, i ≠ j → s.threads i = some t → s.threads j = some u →
        ({ t with place := place i } : Thread).Apart { u with place := place j })
      (hcopy : ∀ id t, id ≠ s.current → s.threads id = some t → ∀ k < SWITCH_FRAME_SIZE,
        cpu.mem (place id + k) = s.cpu.mem (t.place + k))
      (hmem : ∀ id t, s.threads id = some t → ∀ a, t.bottom ≤ a → a < t.top → cpu.mem a = s.cpu.mem a) :
      Step s ⟨cpu,s.current,fun id => (s.threads id).map fun t => { t with place := place id }⟩
  /-- the memory of a thread that has exited is freed -/
  | cleanUp {s : System} {id : ℕ} (hk : s.cpu.cs = KERNEL_CODE_SELECTOR) (hne : id ≠ s.current) :
      Step s { s with threads := Function.update s.threads id none }
  | launch {s : System} {t : Thread} {cpu : Cpu} {entry : ℕ} (ht : s.threads s.current = some t)
      (hk : s.cpu.cs = KERNEL_CODE_SELECTOR) (hrip : s.cpu.rip ≠ sym.threadEntryStub) (htraps : t.traps = [])
      (h8 : 8 ∣ s.cpu.reg .rsp) (hroom : t.bottom + 40 ≤ s.cpu.reg .rsp)
      (hrun : run 0 (launch USER_DATA_SELECTOR USER_CODE_SELECTOR (USER_STACK_BOTTOM + USER_STACK_SIZE) entry)
        (setKernelRsp sym s.cpu t.top) = some cpu) : Step s { s with cpu := cpu }

inductive Reach : System → Prop
  | init {cpu : Cpu} {t : Thread} (hk : cpu.cs = KERNEL_CODE_SELECTOR) (hbase : cpu.gsBase = sym.mach) (hshape : t.Shape)
      (hrsp : t.bottom ≤ cpu.reg .rsp ∧ cpu.reg .rsp ≤ t.top) (htraps : t.traps = []) :
      Reach ⟨cpu,0,Function.update (fun _ => none) 0 (some t)⟩
  | step {s s' : System} (h : Reach s) (hs : Step sym s s') : Reach s'

end Steps
end Lilith.Machine
