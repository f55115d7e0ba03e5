import Lilith.Machine.Runs

/-! What the threads and the programs see of the entries into the kernel and of the switches between threads: nothing, but the
results of system calls. -/
namespace Lilith.Machine
open Theory.X86

variable {sym : Symbols} {s : System} {t u : Thread} {traps : List Trap} {f n e rax id : ℕ} {ctx : Context}

/-- A kernel with its code and its first thread at low addresses. -/
def lowSymbols : Symbols := ⟨0x9000,8,16,by decide,fun n => 0x100 + n,1,2,3,4,5,6,7,8⟩

def lowThread : Thread := ⟨0x1000,0x4000,0x8000,[],⟨0,0,0,0,0,0,0,0⟩,fun _ => 0⟩

/-- The processor of the first thread, which is about to switch to a thread with its frame at `0x8040`. -/
def lowCpu : Cpu :=
  { reg := Function.update (Function.update (Function.update (fun _ => 0) .rsp 0x3000) .rdi 0x8000) .rsi 0x8040
    rip := 0x200
    rflags := 0x200
    cs := KERNEL_CODE_SELECTOR
    ss := KERNEL_DATA_SELECTOR
    gsBase := lowSymbols.mach
    kernelGsBase := 0
    mem := fun _ => 0
    gs := fun _ _ => 0x4000 }

lemma lowThread_shape : lowThread.Shape := ⟨by decide,by decide,by decide,by decide,Or.inr (by decide)⟩

lemma reach_low : Reach lowSymbols ⟨lowCpu,0,Function.update (fun _ => none) 0 (some lowThread)⟩ :=
  Reach.init rfl rfl lowThread_shape ⟨by decide,by decide⟩ rfl

/-- In every run, as long as a thread has not returned from an interrupt, the handler's frame has the registers that were
interrupted, and when the handler returns, exactly the interrupted context is restored, in user mode or in the kernel, with
the base of `gs` that it had there. This does not write to memory. -/
theorem interrupt_restores (hr : Reach sym s) (ht : s.threads s.current = some t)
    (htraps : t.traps = .interrupt f ctx n e::traps) : Holds s.cpu.mem f (trapFrame ctx n e) ∧
    (s.cpu.cs = KERNEL_CODE_SELECTOR → s.cpu.reg .rsp = f - 8 → ∃ cpu, interruptReturn sym s.cpu = some cpu ∧
      cpu.toContext = ctx ∧ cpu.mem = s.cpu.mem ∧ (ctx.cs = KERNEL_CODE_SELECTOR → cpu.gsBase = sym.mach) ∧
      (ctx.cs = USER_CODE_SELECTOR → cpu.kernelGsBase = sym.mach) ∧ Reach sym (s.step cpu t traps)) := by
  obtain ⟨hwords,_,hlow,_⟩ := hr.inv.newest ht htraps
  have hlow : t.bottom + 8 ≤ f := hlow
  have hnext : f - 8 + 8 = f := by omega
  refine ⟨?_,fun hk hrsp => ?_⟩
  · have hframe := hwords.2
    change Holds s.cpu.mem (f - 8 + 8) (trapFrame ctx n e) at hframe
    rwa [hnext] at hframe
  · obtain ⟨cpu,hrun,hctx,hmem,_,hbase,hkbase⟩ := hr.inv.interruptReturn_eq ht htraps hk hrsp
    exact ⟨cpu,hrun,hctx,hmem,hbase,hkbase,hr.step (.interruptReturn ht htraps hk hrsp hrun)⟩

theorem interrupt_restores_low : ∃ cpu cpu', interrupted lowSymbols lowCpu 32 0 = some cpu ∧
    interruptReturn lowSymbols cpu = some cpu' ∧ cpu'.toContext = lowCpu.toContext ∧ cpu'.gsBase = 0x9000 := by
  have hroom : 0x1000 + 184 ≤ trapStack lowSymbols lowCpu := by decide
  obtain ⟨cpu,hrun,hentered,_⟩ := @interrupted_ok lowSymbols lowCpu 32 0 ((Nat.le_add_left ..).trans hroom)
  have hr := reach_low.step (.interrupt rfl (by decide) hroom (by decide) hrun)
  obtain ⟨cpu',hback,hctx,_,hbase,_⟩ := (interrupt_restores hr rfl rfl).2 hentered.cs hentered.rsp
  exact ⟨cpu,cpu',hrun,hback,hctx,hbase rfl⟩

/-- In every run, a system call of a program returns behind its `syscall` instruction with the stack, the flags and the
registers of the program, apart from `rax` for the result and from `rcx` and `r11`, which the instruction itself overwrites. -/
theorem syscall_restores (hr : Reach sym s) (ht : s.threads s.current = some t)
    (htraps : t.traps = .syscall f ctx rax::traps) (hk : s.cpu.cs = KERNEL_CODE_SELECTOR) (hrsp : s.cpu.reg .rsp = f - 8) :
    ∃ cpu, syscallReturn sym s.cpu = some cpu ∧ cpu.rip = ctx.rip ∧ cpu.rflags = ctx.rflags ∧ cpu.cs = USER_CODE_SELECTOR ∧
      cpu.ss = USER_DATA_SELECTOR ∧ cpu.reg .rax = rax ∧ (∀ r, r ≠ .rax → r ≠ .rcx → r ≠ .r11 → cpu.reg r = ctx.reg r) ∧
      cpu.mem = s.cpu.mem ∧ cpu.kernelGsBase = sym.mach ∧ Reach sym (s.step cpu t traps) := by
  obtain ⟨cpu,hrun,hctx,hmem,_,hkbase⟩ := hr.inv.syscallReturn_eq ht htraps hk hrsp
  have hrip : cpu.rip = (Trap.afterSyscall ctx rax).rip := congrArg Context.rip hctx
  have hflags : cpu.rflags = (Trap.afterSyscall ctx rax).rflags := congrArg Context.rflags hctx
  have hcs : cpu.cs = (Trap.afterSyscall ctx rax).cs := congrArg Context.cs hctx
  have hss : cpu.ss = (Trap.afterSyscall ctx rax).ss := congrArg Context.ss hctx
  have hreg : ∀ r, cpu.reg r = Function.update (syscallContext ctx).reg .rax rax r :=
    fun r => congrFun (congrArg Context.reg hctx) r
  refine ⟨cpu,hrun,hrip,hflags,hcs,hss,?_,fun r h1 h2 h3 => ?_,hmem,hkbase,
    hr.step (.syscallReturn ht htraps hk hrsp hrun)⟩
  · rw [hreg, Function.update_self]
  · rw [hreg, Function.update_of_ne h1]
    change Function.update (Function.update ctx.reg .rcx ctx.rip) .r11 ctx.rflags r = ctx.reg r
    rw [Function.update_of_ne h3, Function.update_of_ne h2]

theorem syscall_restores_low : ∃ cpu0 cpu cpu',
    run 0 (launch USER_DATA_SELECTOR USER_CODE_SELECTOR (USER_STACK_BOTTOM + USER_STACK_SIZE) 0x400000)
      (setKernelRsp lowSymbols lowCpu 0x4000) = some cpu0 ∧
    syscalled lowSymbols cpu0 = some cpu ∧ syscallReturn lowSymbols cpu = some cpu' ∧ cpu'.rip = 0x400000 ∧
    cpu'.reg .rsp = USER_STACK_BOTTOM + USER_STACK_SIZE ∧ cpu'.reg .rbx = cpu0.reg .rbx := by
  obtain ⟨cpu0,hrun0,hrip0,hcs0,_,_,hrsp0,_,hbase0,hgs0,_⟩ := @launch_ok (setKernelRsp lowSymbols lowCpu 0x4000)
    (USER_STACK_BOTTOM + USER_STACK_SIZE) USER_DATA_SELECTOR USER_CODE_SELECTOR 0x400000 (by decide) (by decide)
  have hr0 := reach_low.step (.launch rfl rfl (by decide) rfl (by decide) (by decide) hrun0)
  have hstack : cpu0.gs lowSymbols.mach lowSymbols.kernelRspOffset = 0x4000 := by
    rw [hgs0]
    rfl
  obtain ⟨cpu,hrun,hentered,_⟩ := syscalled_ok hbase0 hstack (by decide) (by decide)
  have hr := hr0.step (.syscall rfl hcs0 (by decide) hrun)
  obtain ⟨cpu',hback,hrip,_,_,_,_,hreg,_⟩ := syscall_restores hr rfl rfl hentered.cs hentered.rsp
  exact ⟨cpu0,cpu,cpu',hrun0,hrun,hback,hrip.trans hrip0,
    (hreg .rsp (by decide) (by decide) (by decide)).trans hrsp0,hreg .rbx (by decide) (by decide) (by decide)⟩

/-- In every run, `switch` resumes a thread with the registers that it saved in its last call of `switch` and with its part of
the stack unchanged, and entries from user mode use its stack from then on. A thread that has not run yet enters
`thread_entry` with its function and with a pointer to its closure. -/
theorem switch_resumes (hr : Reach sym s) (ht : s.threads s.current = some t) (hne : id ≠ s.current)
    (hu : s.threads id = some u) (hk : s.cpu.cs = KERNEL_CODE_SELECTOR) (hrdi : s.cpu.reg .rdi = t.place)
    (hrsi : s.cpu.reg .rsi = u.place) (h8 : 8 ∣ s.cpu.reg .rsp) (hback : s.cpu.reg .rsp + 8 ≤ t.base) :
    ∃ cpu, run 0 switch (setKernelRsp sym s.cpu u.top) = some cpu ∧ u.saved.Resumed cpu ∧
      (∀ a, u.saved.rsp ≤ a → a < u.top → cpu.mem a = u.image a) ∧ cpu.gs sym.mach sym.kernelRspOffset = u.top ∧
      ∀ fn, u.saved = spawnRegs sym fn u.saved.rsp → ∃ cpu', run 0 (threadEntryStub sym) cpu = some cpu' ∧
        cpu'.rip = sym.threadEntry ∧ cpu'.reg .rdi = fn ∧ cpu'.reg .rsi = u.saved.rsp ∧
        ∀ a, u.saved.rsp ≤ a → a < u.top → cpu'.mem a = u.image a := by
  obtain ⟨cpu,hrun,hres,_,_,htss,_,_,hother⟩ := hr.inv.switch_eq ht hne hu hk hrdi hrsi h8 hback
  have hp := hr.inv.parked id u hne hu
  have hstack : ∀ a, u.saved.rsp ≤ a → a < u.top → cpu.mem a = u.image a := fun a h1 h2 => by
    rw [hother id u hne hu a (Or.inl ⟨h1,h2⟩), hp.stack a h1 h2]
  refine ⟨cpu,hrun,hres,hstack,htss,fun fn hfn => ?_⟩
  have hlow := hp.low
  have hrsp8 : 8 ∣ cpu.reg .rsp := by
    rw [hres.rsp]
    exact hp.aligned
  obtain ⟨cpu',hrun',hrip,hrdi',hrsi',_,hmem,_⟩ := @threadEntryStub_ok sym cpu hrsp8 (by rw [hres.rsp]; omega)
  refine ⟨cpu',hrun',hrip,?_,?_,fun a h1 h2 => ?_⟩
  · rw [hrdi', hres.rbx, hfn]
    rfl
  · rw [hrsi', hres.rsp]
  · rw [hmem, hres.rsp]
    have hne' : a ≠ u.saved.rsp - 8 := by omega
    rw [Function.update_of_ne hne', hstack a h1 h2]

/-- A new thread beside the first one, with a closure of two words. -/
def newThread : Thread :=
  ⟨0xA000,0xE000,0x8040,[],spawnRegs lowSymbols 0x700 (spawnRsp 0xE000 16 8),fun a =>
    if spawnRsp 0xE000 16 8 ≤ a ∧ a < spawnRsp 0xE000 16 8 + 16 then (fun _ => 5) (a - spawnRsp 0xE000 16 8) else
      writeWords lowCpu.mem 0x8040 (spawnRegs lowSymbols 0x700 (spawnRsp 0xE000 16 8)).words a⟩

theorem switch_resumes_low : ∃ cpu cpu', run 0 switch (setKernelRsp lowSymbols { lowCpu with mem := newThread.image } 0xE000) =
      some cpu ∧ run 0 (threadEntryStub lowSymbols) cpu = some cpu' ∧ cpu'.rip = lowSymbols.threadEntry ∧
    cpu'.reg .rdi = 0x700 ∧ cpu'.reg .rsi = 0xDFF0 ∧ cpu'.mem 0xDFF8 = 5 := by
  have hapart : newThread.Apart lowThread := ⟨Or.inr (by decide),Or.inr (by decide),Or.inr (by decide),Or.inl (by decide)⟩
  have hshape : newThread.Shape := ⟨by decide,by decide,by decide,by decide,Or.inl (by decide)⟩
  have hall : ∀ i u, Function.update (fun _ => none) 0 (some lowThread) i = some u → newThread.Apart u := by
    intro i u hu
    by_cases hi : i = 0
    · subst hi
      cases hu
      exact hapart
    · rw [Function.update_of_ne hi] at hu
      cases hu
  have hr := reach_low.step (@Step.spawn _ _ newThread 1 0x700 16 8 (fun _ => 5) rfl rfl hshape hall (by decide) rfl
    (by decide) rfl rfl)
  obtain ⟨cpu,hrun,_,hstack,_,hfirst⟩ := @switch_resumes _ _ lowThread newThread 1 hr rfl (by decide) rfl rfl rfl rfl
    (by decide) (by decide)
  obtain ⟨cpu',hrun',hrip,hrdi,hrsi,hmem⟩ := hfirst 0x700 rfl
  exact ⟨cpu,cpu',hrun,hrun',hrip,hrdi,hrsi,hmem 0xDFF8 (by decide) (by decide)⟩

end Lilith.Machine
