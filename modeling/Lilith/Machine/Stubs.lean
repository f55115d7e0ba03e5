import Lilith.Theory.X86

/-! The assembly of the kernel (`interrupts.rs`, `tables.rs`, `sched.rs`, `user.rs`): the stubs through which interrupts and
system calls enter and leave it, and the switch between two threads. -/
namespace Lilith.Machine
open Theory.X86

def KERNEL_CODE_SELECTOR : ℕ := 8
def KERNEL_DATA_SELECTOR : ℕ := 16
def USER_DATA_SELECTOR : ℕ := 27
def USER_CODE_SELECTOR : ℕ := 35
def SYSCALL_SENTINEL_INT_NUM : ℕ := 256

/-- The addresses that the linker chooses. A call has the address of the code behind it, too. -/
structure Symbols where
  /-- the `Mach` of the processor, and the offsets of the two of its words that the stubs use -/
  mach : ℕ
  kernelRspOffset : ℕ
  userRspOffset : ℕ
  offsets : kernelRspOffset ≠ userRspOffset
  intEntry : ℕ → ℕ
  intHandler : ℕ
  intHandlerReturn : ℕ
  syscallEntry : ℕ
  syscallHandler : ℕ
  syscallHandlerReturn : ℕ
  threadEntryStub : ℕ
  threadEntry : ℕ
  threadEntryReturn : ℕ

/-- the registers in the order of the fields of a `TrapFrame` -/
def trapRegs : List Reg := [.rax,.rbx,.rcx,.rdx,.rsi,.rdi,.rbp,.r8,.r9,.r10,.r11,.r12,.r13,.r14,.r15]

/-- The fields of the `TrapFrame` of a context. -/
def trapFrame (ctx : Context) (intNum errorCode : ℕ) : List ℕ :=
  trapRegs.map ctx.reg ++ [intNum,errorCode,ctx.rip,ctx.cs,ctx.rflags,ctx.reg .rsp,ctx.ss]

/-- the size of a `TrapFrame` -/
def TRAP_FRAME_SIZE : ℕ := 176

section Stubs
variable (sym : Symbols)

/-- the vectors whose `int_entry!` has no fake error code -/
def intEntryErrorCodes : List ℕ := [8,10,11,12,13,14,17,21,29,30]

/-- The stub of a vector, which jumps to `int_common_entry`. -/
def intEntry (n : ℕ) : List Instr :=
  if n ∈ intEntryErrorCodes then [.push (.imm n)] else [.push (.imm 0),.push (.imm n)]

/-- `int_common_entry` up to the call of the handler -/
def intCommonEntry : List Instr :=
  [.test (.mem .rsp 24) 3,
   .jz 1,
   .swapgs,
   .push (.reg .r15),
   .push (.reg .r14),
   .push (.reg .r13),
   .push (.reg .r12),
   .push (.reg .r11),
   .push (.reg .r10),
   .push (.reg .r9),
   .push (.reg .r8),
   .push (.reg .rbp),
   .push (.reg .rdi),
   .push (.reg .rsi),
   .push (.reg .rdx),
   .push (.reg .rcx),
   .push (.reg .rbx),
   .push (.reg .rax),
   .mov (.reg .rdi) (.reg .rsp),
   .call sym.intHandler sym.intHandlerReturn]

/-- `int_common_entry` behind the call -/
def intCommonExit : List Instr :=
  [.pop (.reg .rax),
   .pop (.reg .rbx),
   .pop (.reg .rcx),
   .pop (.reg .rdx),
   .pop (.reg .rsi),
   .pop (.reg .rdi),
   .pop (.reg .rbp),
   .pop (.reg .r8),
   .pop (.reg .r9),
   .pop (.reg .r10),
   .pop (.reg .r11),
   .pop (.reg .r12),
   .pop (.reg .r13),
   .pop (.reg .r14),
   .pop (.reg .r15),
   .test (.mem .rsp 24) 3,
   .jz 1,
   .swapgs,
   .add .rsp 16,
   .iretq]

/-- `syscall_entry` up to the call of the handler -/
def syscallEntry : List Instr :=
  [.swapgs,
   .mov (.gs sym.userRspOffset) (.reg .rsp),
   .mov (.reg .rsp) (.gs sym.kernelRspOffset),
   .push (.imm USER_DATA_SELECTOR),
   .push (.gs sym.userRspOffset),
   .push (.reg .r11),
   .push (.imm USER_CODE_SELECTOR),
   .push (.reg .rcx),
   .push (.imm 0),
   .push (.imm SYSCALL_SENTINEL_INT_NUM),
   .push (.reg .r15),
   .push (.reg .r14),
   .push (.reg .r13),
   .push (.reg .r12),
   .push (.reg .r11),
   .push (.reg .r10),
   .push (.reg .r9),
   .push (.reg .r8),
   .push (.reg .rbp),
   .push (.reg .rdi),
   .push (.reg .rsi),
   .push (.reg .rdx),
   .push (.reg .rcx),
   .push (.reg .rbx),
   .push (.reg .rax),
   .mov (.reg .rdi) (.reg .rsp),
   .call sym.syscallHandler sym.syscallHandlerReturn]

/-- `syscall_entry` behind the call -/
def syscallExit : List Instr :=
  [.cli,
   .pop (.reg .rax),
   .pop (.reg .rbx),
   .pop (.reg .rcx),
   .pop (.reg .rdx),
   .pop (.reg .rsi),
   .pop (.reg .rdi),
   .pop (.reg .rbp),
   .pop (.reg .r8),
   .pop (.reg .r9),
   .pop (.reg .r10),
   .pop (.reg .r11),
   .pop (.reg .r12),
   .pop (.reg .r13),
   .pop (.reg .r14),
   .pop (.reg .r15),
   .mov (.reg .rsp) (.mem .rsp (8*5)),
   .swapgs,
   .sysretq USER_CODE_SELECTOR USER_DATA_SELECTOR]

/-- The switch of `sched()`. -/
def switch : List Instr :=
  [.mov (.reg .rax) (.reg .rdx),
   .mov (.mem .rdi (8*0)) (.reg .rbx),
   .mov (.mem .rdi (8*1)) (.reg .rbp),
   .mov (.mem .rdi (8*2)) (.reg .r12),
   .mov (.mem .rdi (8*3)) (.reg .r13),
   .mov (.mem .rdi (8*4)) (.reg .r14),
   .mov (.mem .rdi (8*5)) (.reg .r15),
   .pop (.mem .rdi (8*6)),
   .mov (.mem .rdi (8*7)) (.reg .rsp),
   .mov (.reg .rbx) (.mem .rsi (8*0)),
   .mov (.reg .rbp) (.mem .rsi (8*1)),
   .mov (.reg .r12) (.mem .rsi (8*2)),
   .mov (.reg .r13) (.mem .rsi (8*3)),
   .mov (.reg .r14) (.mem .rsi (8*4)),
   .mov (.reg .r15) (.mem .rsi (8*5)),
   .mov (.reg .rsp) (.mem .rsi (8*7)),
   .push (.mem .rsi (8*6)),
   .ret]

def threadEntryStub : List Instr :=
  [.mov (.reg .rdi) (.reg .rbx),
   .mov (.reg .rsi) (.reg .rsp),
   .call sym.threadEntry sym.threadEntryReturn]

/-- The code of `launch`, with the registers of its operands. -/
def launch (dsSel cs stack entry : ℕ) : List Instr :=
  [.push (.imm dsSel),
   .push (.imm stack),
   .push (.imm 0x200),
   .push (.imm cs),
   .push (.imm entry),
   .swapgs,
   .iretq]

/-- An interrupt up to the first instruction of `int_handler`, on a processor whose task state segment is that of `Mach`. -/
def interrupted (cpu : Cpu) (n errorCode : ℕ) : Option Cpu := do
  let rsp0 := cpu.gs sym.mach sym.kernelRspOffset
  let cpu ← cpu.interrupt rsp0 KERNEL_CODE_SELECTOR (sym.intEntry n) n errorCode
  run 0 (intEntry n ++ intCommonEntry sym) cpu

/-- `int_handler` returns to the stub, and the stub to what was interrupted. -/
def interruptReturn (cpu : Cpu) : Option Cpu := do
  let cpu ← run 0 [.ret] cpu
  if cpu.rip = sym.intHandlerReturn then run 0 intCommonExit cpu else none

/-- A system call up to the first instruction of `syscall_handler`. -/
def syscalled (cpu : Cpu) : Option Cpu :=
  run 0 (syscallEntry sym) (cpu.syscall sym.syscallEntry INTERRUPT_FLAG KERNEL_CODE_SELECTOR KERNEL_DATA_SELECTOR)

/-- `syscall_handler` returns to the stub, and the stub to the program. -/
def syscallReturn (cpu : Cpu) : Option Cpu := do
  let cpu ← run 0 [.ret] cpu
  if cpu.rip = sym.syscallHandlerReturn then run 0 syscallExit cpu else none

end Stubs
end Lilith.Machine
