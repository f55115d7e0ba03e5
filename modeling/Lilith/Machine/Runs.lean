import Lilith.Machine.Invariant

/-! Every step of a thread keeps the invariant. -/
namespace Lilith.Machine
open Theory.X86

variable {sym : Symbols} {s s' : System} {t u : Thread} {cpu cpu' : Cpu} {traps : List Trap} {f n e rax a id : ℕ}
  {ctx : Context}

lemma not_userMode_kernel : ¬ UserMode KERNEL_CODE_SELECTOR := by decide
lemma userMode_user : UserMode USER_CODE_SELECTOR := by decide
lemma user_ne_kernel : USER_CODE_SELECTOR ≠ KERNEL_CODE_SELECTOR := by decide

lemma setKernelRsp_rsp : (setKernelRsp sym cpu a).gs sym.mach sym.kernelRspOffset = a := by
  simp only [setKernelRsp, Function.update_self]

namespace Inv
variable (h : Inv sym s) (ht : s.threads s.current = some t)
include h ht

lemma running : Running sym s.cpu t := by
  obtain ⟨u,hu,hr⟩ := h.here
  obtain rfl := Option.some.inj (ht.symm.trans hu)
  exact hr

lemma kernel (hk : s.cpu.cs = KERNEL_CODE_SELECTOR) :
    s.cpu.gsBase = sym.mach ∧ t.bottom ≤ s.cpu.reg .rsp ∧ s.cpu.reg .rsp ≤ t.base := by
  rcases (h.running ht).mode with ⟨_,hk'⟩ | ⟨hu,_⟩
  · exact hk'
  · exact absurd (hu.symm.trans hk) user_ne_kernel

lemma user (hu : s.cpu.cs = USER_CODE_SELECTOR) : s.cpu.ss = USER_DATA_SELECTOR ∧ s.cpu.kernelGsBase = sym.mach ∧
    t.traps = [] ∧ s.cpu.gs sym.mach sym.kernelRspOffset = t.top := by
  have hr := h.running ht
  rcases hr.mode with ⟨hk,_⟩ | ⟨_,h1,h2,h3⟩
  · exact absurd (hu.symm.trans hk) user_ne_kernel
  · exact ⟨h1,h2,h3,hr.tss (Or.inl hu)⟩

/-- The stack that an interrupt uses is that of the thread. -/
lemma trapStack_le : 16 ∣ trapStack sym s.cpu ∧ trapStack sym s.cpu ≤ t.base ∧
    (s.cpu.cs = USER_CODE_SELECTOR → trapStack sym s.cpu = t.top) := by
  refine ⟨Dvd.intro_left _ rfl,?_⟩
  rcases (h.running ht).mode with ⟨hk,_,_,hle⟩ | ⟨hu,_⟩
  · refine ⟨?_,fun hu => absurd (hu.symm.trans hk) user_ne_kernel⟩
    rw [trapStack, hk, if_neg not_userMode_kernel]
    omega
  · obtain ⟨_,_,htraps,htss⟩ := h.user ht hu
    have htop : trapStack sym s.cpu = t.top := by
      rw [trapStack, hu, if_pos userMode_user, htss]
      exact Nat.div_mul_cancel (h.shape _ t ht).aligned
    refine ⟨?_,fun _ => htop⟩
    rw [htop, Thread.base, htraps]
    exact le_rfl

lemma interrupt (hroom : t.bottom + 184 ≤ trapStack sym s.cpu) (hrun : interrupted sym s.cpu n e = some cpu) :
    Inv sym (s.step cpu t (.interrupt (trapStack sym s.cpu - TRAP_FRAME_SIZE) s.cpu.toContext n (errorCodeOf n e)::t.traps)) := by
  obtain ⟨cpu',hrun',hent,hbase,_,hgs⟩ := @interrupted_ok sym s.cpu n e (by omega)
  obtain rfl := Option.some.inj (hrun'.symm.trans hrun)
  obtain ⟨h16,hle,htop⟩ := h.trapStack_le ht
  have hr := h.running ht
  have hbaseTop := hr.traps.base_le
  obtain ⟨stack,hstack⟩ : ∃ stack, stack = trapStack sym s.cpu := ⟨_,rfl⟩
  rw [← hstack] at hroom h16 hle htop hent ⊢
  have hf : stack - TRAP_FRAME_SIZE + TRAP_FRAME_SIZE = stack := by
    unfold TRAP_FRAME_SIZE
    omega
  have hlow : t.bottom + 8 ≤ stack - TRAP_FRAME_SIZE := by
    unfold TRAP_FRAME_SIZE
    omega
  have hret : (Trap.interrupt (stack - TRAP_FRAME_SIZE) s.cpu.toContext n (errorCodeOf n e)).Returns t.bottom t.top t.traps := by
    rcases hr.mode with ⟨hk,_,h1,h2⟩ | ⟨hu,h1,_,h2⟩
    · exact Or.inr ⟨⟨_,_,_,_,rfl⟩,hk,h1,h2⟩
    · exact Or.inl ⟨hu,h1,h2⟩
  refine h.stepped ht ⟨⟨⟨hent.frame,?_,hlow,?_,hret⟩,?_⟩,Or.inl ⟨hent.cs,?_,?_,?_⟩,?_⟩ (h.owns_same ht fun a ha => ?_)
  · change 8 ∣ stack - TRAP_FRAME_SIZE
    unfold TRAP_FRAME_SIZE
    omega
  · change stack - TRAP_FRAME_SIZE + TRAP_FRAME_SIZE ≤ t.base
    omega
  · exact hr.traps.congr fun a ha _ => hent.same a (Or.inr (by rw [hf]; exact hle.trans ha))
  · rw [hbase]
    rcases hr.mode with ⟨hk,h1,_⟩ | ⟨hu,_,h1,_⟩
    · rw [hk, if_neg not_userMode_kernel, h1]
    · rw [hu, if_pos userMode_user, h1]
  · change t.bottom ≤ _
    rw [hent.rsp]
    omega
  · change _ ≤ stack - TRAP_FRAME_SIZE - 8
    exact hent.rsp.le
  · rintro (hu | ⟨trap,htrap,hu⟩)
    · exact absurd (hu.symm.trans hent.cs) user_ne_kernel
    · rw [hgs]
      rcases List.mem_cons.mp htrap with rfl | htrap
      · exact hr.tss (Or.inl hu)
      · exact hr.tss (Or.inr ⟨trap,htrap,hu⟩)
  · have hbt : baseOf t.top t.traps = t.base := rfl
    refine hent.same a ?_
    rw [hf]
    omega

/-- The newest trap of the running thread. -/
lemma newest {trap : Trap} (htraps : t.traps = trap::traps) :
    Holds s.cpu.mem (trap.frame - 8) (trap.words sym) ∧ 8 ∣ trap.frame ∧ t.bottom + 8 ≤ trap.frame ∧
      trap.frame + TRAP_FRAME_SIZE ≤ baseOf t.top traps ∧ trap.Returns t.bottom t.top traps ∧
      TrapsOk sym s.cpu.mem t.bottom t.top traps := by
  have htr := (h.running ht).traps
  rw [htraps] at htr
  obtain ⟨⟨h1,h2,h3,h4,h5⟩,h6⟩ := htr
  exact ⟨h1,h2,h3,h4,h5,h6⟩

/-- A thread is back where the newest trap came from. -/
lemma returned {trap : Trap} (htraps : t.traps = trap::traps) (hctx : cpu.cs = trap.ctx.cs ∧ cpu.ss = trap.ctx.ss ∧
      cpu.reg .rsp = trap.ctx.reg .rsp) (hmem : cpu.mem = s.cpu.mem) (hgs : cpu.gs = s.cpu.gs)
    (hbase : trap.ctx.cs = KERNEL_CODE_SELECTOR → cpu.gsBase = sym.mach)
    (hkbase : trap.ctx.cs = USER_CODE_SELECTOR → cpu.kernelGsBase = sym.mach) : Inv sym (s.step cpu t traps) := by
  obtain ⟨_,_,_,_,hret,hrest⟩ := h.newest ht htraps
  obtain ⟨hcs,hss,hrsp⟩ := hctx
  refine h.stepped ht ⟨by rw [hmem]; exact hrest,?_,?_⟩ fun _ _ _ _ a _ => by rw [hmem]
  · rcases hret with ⟨h1,h2,h3⟩ | ⟨_,h1,h2,h3⟩
    · exact Or.inr ⟨hcs.trans h1,hss.trans h2,hkbase h1,h3⟩
    · refine Or.inl ⟨hcs.trans h1,hbase h1,?_,?_⟩
      · rw [hrsp]
        exact h2
      · rw [hrsp]
        exact h3
  · intro hu
    rw [hgs]
    refine (h.running ht).tss (Or.inr ?_)
    rw [htraps]
    rcases hu with hu | ⟨trap',htrap',hu⟩
    · exact ⟨trap,List.mem_cons_self,hcs.symm.trans hu⟩
    · exact ⟨trap',List.mem_cons_of_mem _ htrap',hu⟩

/-- An interrupt returns to the context that it interrupted. -/
lemma interruptReturn_eq (htraps : t.traps = .interrupt f ctx n e::traps) (hk : s.cpu.cs = KERNEL_CODE_SELECTOR)
    (hrsp : s.cpu.reg .rsp = f - 8) : ∃ cpu, interruptReturn sym s.cpu = some cpu ∧ cpu.toContext = ctx ∧
      cpu.mem = s.cpu.mem ∧ cpu.gs = s.cpu.gs ∧ (ctx.cs = KERNEL_CODE_SELECTOR → cpu.gsBase = sym.mach) ∧
      (ctx.cs = USER_CODE_SELECTOR → cpu.kernelGsBase = sym.mach) := by
  obtain ⟨hwords,h8,hlow,_,_,_⟩ := h.newest ht htraps
  have hf : 8 ≤ f := (Nat.le_add_left 8 _).trans hlow
  obtain ⟨cpu,hrun,hctx,hmem,hgs,hbase,hkbase⟩ := interruptReturn_ok h8 hf hrsp hwords
  obtain ⟨hmach,_⟩ := h.kernel ht hk
  refine ⟨cpu,hrun,hctx,hmem,hgs,fun hcs => ?_,fun hcs => ?_⟩
  · rw [hbase, hcs, if_neg not_userMode_kernel, hmach]
  · rw [hkbase, hcs, if_pos userMode_user, hmach]

lemma interruptReturn (htraps : t.traps = .interrupt f ctx n e::traps) (hk : s.cpu.cs = KERNEL_CODE_SELECTOR)
    (hrsp : s.cpu.reg .rsp = f - 8) (hrun : interruptReturn sym s.cpu = some cpu) : Inv sym (s.step cpu t traps) := by
  obtain ⟨cpu',hrun',hctx,hmem,hgs,hbase,hkbase⟩ := h.interruptReturn_eq ht htraps hk hrsp
  obtain rfl := Option.some.inj (hrun'.symm.trans hrun)
  refine h.returned ht htraps ⟨?_,?_,?_⟩ hmem hgs hbase hkbase
  · exact congrArg Context.cs hctx
  · exact congrArg Context.ss hctx
  · exact congrFun (congrArg Context.reg hctx) .rsp

/-- A system call returns to the program, with its result. -/
lemma syscallReturn_eq (htraps : t.traps = .syscall f ctx rax::traps) (hk : s.cpu.cs = KERNEL_CODE_SELECTOR)
    (hrsp : s.cpu.reg .rsp = f - 8) : ∃ cpu, syscallReturn sym s.cpu = some cpu ∧
      cpu.toContext = Trap.afterSyscall ctx rax ∧ cpu.mem = s.cpu.mem ∧ cpu.gs = s.cpu.gs ∧ cpu.kernelGsBase = sym.mach := by
  obtain ⟨hwords,h8,hlow,_,_,_⟩ := h.newest ht htraps
  have hf : 8 ≤ f := (Nat.le_add_left 8 _).trans hlow
  obtain ⟨cpu,hrun,hctx,hmem,hgs,_,hkbase⟩ := syscallReturn_ok h8 hf hrsp hwords
  obtain ⟨hmach,_⟩ := h.kernel ht hk
  exact ⟨cpu,hrun,hctx,hmem,hgs,hkbase.trans hmach⟩

lemma syscallReturn (htraps : t.traps = .syscall f ctx rax::traps) (hk : s.cpu.cs = KERNEL_CODE_SELECTOR)
    (hrsp : s.cpu.reg .rsp = f - 8) (hrun : syscallReturn sym s.cpu = some cpu) : Inv sym (s.step cpu t traps) := by
  obtain ⟨cpu',hrun',hctx,hmem,hgs,hkbase⟩ := h.syscallReturn_eq ht htraps hk hrsp
  obtain rfl := Option.some.inj (hrun'.symm.trans hrun)
  obtain ⟨_,_,_,_,hret,_⟩ := h.newest ht htraps
  rcases hret with ⟨h1,h2,_⟩ | ⟨⟨_,_,_,_,h1⟩,_⟩
  · refine h.returned ht htraps ⟨?_,?_,?_⟩ hmem hgs (fun hcs => absurd (h1.symm.trans hcs) user_ne_kernel) fun _ => hkbase
    · exact (congrArg Context.cs hctx).trans h1.symm
    · exact (congrArg Context.ss hctx).trans h2.symm
    · exact congrFun (congrArg Context.reg hctx) .rsp
  · simp at h1

lemma syscall (hu : s.cpu.cs = USER_CODE_SELECTOR) (hroom : t.bottom + 184 ≤ t.top) (hrun : syscalled sym s.cpu = some cpu) :
    Inv sym (s.step cpu t (.syscall (t.top - TRAP_FRAME_SIZE) s.cpu.toContext (s.cpu.reg .rax)::t.traps)) := by
  obtain ⟨hss,hkbase,htraps,htss⟩ := h.user ht hu
  have h16 := (h.shape _ t ht).aligned
  have h8 : 8 ∣ t.top := Dvd.dvd.trans (by decide) h16
  obtain ⟨cpu',hrun',hent,hbase,_,hgs⟩ := syscalled_ok hkbase htss h8 (by omega)
  obtain rfl := Option.some.inj (hrun'.symm.trans hrun)
  have hf : t.top - TRAP_FRAME_SIZE + TRAP_FRAME_SIZE = t.top := by
    unfold TRAP_FRAME_SIZE
    omega
  have hlow : t.bottom + 8 ≤ t.top - TRAP_FRAME_SIZE := by
    unfold TRAP_FRAME_SIZE
    omega
  have hframe : Trap.words sym (.syscall (t.top - TRAP_FRAME_SIZE) s.cpu.toContext (s.cpu.reg .rax)) =
      sym.syscallHandlerReturn::trapFrame (syscallContext s.cpu.toContext) SYSCALL_SENTINEL_INT_NUM 0 := by
    have hrax : (syscallContext s.cpu.toContext).reg .rax = s.cpu.reg .rax := rfl
    have hsame : Trap.afterSyscall s.cpu.toContext (s.cpu.reg .rax) = syscallContext s.cpu.toContext := by
      rw [Trap.afterSyscall, ← hrax, Function.update_eq_self]
    rw [Trap.words, hsame]
  rw [htraps]
  refine h.stepped ht ⟨⟨⟨?_,?_,hlow,?_,Or.inl ⟨hu,hss,rfl⟩⟩,trivial⟩,Or.inl ⟨hent.cs,hbase,?_,?_⟩,fun _ => ?_⟩
    (h.owns_same ht fun a ha => hent.same a ?_)
  · rw [hframe]
    exact hent.frame
  · change 8 ∣ t.top - TRAP_FRAME_SIZE
    unfold TRAP_FRAME_SIZE
    omega
  · change t.top - TRAP_FRAME_SIZE + TRAP_FRAME_SIZE ≤ t.top
    exact hf.le
  · change t.bottom ≤ _
    rw [hent.rsp]
    omega
  · change _ ≤ t.top - TRAP_FRAME_SIZE - 8
    exact hent.rsp.le
  · rw [hgs _ _ (Or.inr sym.offsets), htss]
  · rw [hf]
    omega

lemma setRax (v : ℕ) (htraps : t.traps = .syscall f ctx rax::traps) (hk : s.cpu.cs = KERNEL_CODE_SELECTOR) :
    Inv sym (s.step { s.cpu with mem := Function.update s.cpu.mem f v } t (.syscall f ctx v::traps)) := by
  obtain ⟨hwords,h8,hlow,hle,hret,hrest⟩ := h.newest ht htraps
  have hr := h.running ht
  have hlow : t.bottom + 8 ≤ f := hlow
  have hle : f + 176 ≤ baseOf t.top traps := hle
  have htop := hrest.base_le
  obtain ⟨hmach,hsp⟩ := h.kernel ht hk
  have hframe : ∀ w, ∃ tail, trapFrame (Trap.afterSyscall ctx w) SYSCALL_SENTINEL_INT_NUM 0 = w::tail ∧
      trapFrame (Trap.afterSyscall ctx rax) SYSCALL_SENTINEL_INT_NUM 0 = rax::tail := fun w => ⟨_,rfl,rfl⟩
  obtain ⟨tail,hv,hrax⟩ := hframe v
  have hnext : f - 8 + 8 = f := by omega
  refine h.stepped ht ⟨⟨⟨?_,h8,hlow,hle,?_⟩,?_⟩,Or.inl ⟨hk,hmach,?_⟩,?_⟩ (h.owns_same ht fun a ha => ?_)
  · change Holds s.cpu.mem (f-8) (sym.syscallHandlerReturn::trapFrame (Trap.afterSyscall ctx rax) SYSCALL_SENTINEL_INT_NUM 0) at hwords
    change Holds (Function.update s.cpu.mem f v) (f-8)
      (sym.syscallHandlerReturn::trapFrame (Trap.afterSyscall ctx v) SYSCALL_SENTINEL_INT_NUM 0)
    rw [hrax] at hwords
    rw [hv]
    obtain ⟨h1,_,h2⟩ := hwords
    have hne : f - 8 ≠ f := by omega
    rw [hnext] at h2
    refine ⟨(Function.update_of_ne hne ..).trans h1,?_,?_⟩
    · rw [hnext]
      exact Function.update_self ..
    · rw [hnext]
      refine h2.congr fun x hx _ => ?_
      have hne' : x ≠ f := by omega
      exact Function.update_of_ne hne' ..
  · rcases hret with hret | ⟨⟨_,_,_,_,h1⟩,_⟩
    · exact Or.inl hret
    · simp at h1
  · refine hrest.congr fun a ha _ => ?_
    have hne : a ≠ f := by omega
    exact Function.update_of_ne hne ..
  · rw [Thread.base, htraps] at hsp
    exact hsp
  · intro hu
    refine hr.tss ?_
    rw [htraps]
    rcases hu with hu | ⟨trap,htrap,hu⟩
    · exact Or.inl hu
    · rcases List.mem_cons.mp htrap with rfl | htrap
      · exact Or.inr ⟨_,List.mem_cons_self,hu⟩
      · exact Or.inr ⟨trap,List.mem_cons_of_mem _ htrap,hu⟩
  · have hne : a ≠ f := by omega
    exact Function.update_of_ne hne ..

/-- Compiled code of the kernel. -/
lemma work (hk : s.cpu.cs = KERNEL_CODE_SELECTOR) (hcs : cpu.cs = s.cpu.cs) (hbase : cpu.gsBase = s.cpu.gsBase)
    (htss : cpu.gs sym.mach sym.kernelRspOffset = s.cpu.gs sym.mach sym.kernelRspOffset)
    (hrsp : t.bottom ≤ cpu.reg .rsp ∧ cpu.reg .rsp ≤ t.base) (hmem : ∀ a, s.Guarded a → cpu.mem a = s.cpu.mem a) :
    Inv sym { s with cpu := cpu } := by
  have hr := h.running ht
  obtain ⟨hmach,_⟩ := h.kernel ht hk
  refine h.ran ht ⟨hr.traps.congr fun a ha hlt => hmem a (Or.inl ⟨t,ht,ha,hlt⟩),
    Or.inl ⟨hcs.trans hk,hbase.trans hmach,hrsp⟩,fun hu => ?_⟩ fun id u hne hu a ha => hmem a (Or.inr ⟨id,u,hne,hu,ha⟩)
  rw [htss]
  refine hr.tss (hu.imp_left fun hu => ?_)
  exact absurd (hu.symm.trans (hcs.trans hk)) user_ne_kernel

/-- A program in user mode. -/
lemma userWork (hu : s.cpu.cs = USER_CODE_SELECTOR) (hcs : cpu.cs = s.cpu.cs) (hss : cpu.ss = s.cpu.ss)
    (hkbase : cpu.kernelGsBase = s.cpu.kernelGsBase) (hgs : cpu.gs sym.mach = s.cpu.gs sym.mach)
    (hmem : ∀ a, s.Guarded a → cpu.mem a = s.cpu.mem a) : Inv sym { s with cpu := cpu } := by
  obtain ⟨h1,h2,h3,h4⟩ := h.user ht hu
  refine h.ran ht ⟨by rw [h3]; trivial,Or.inr ⟨hcs.trans hu,hss.trans h1,hkbase.trans h2,h3⟩,fun _ => ?_⟩
    fun id u hne hu a ha => hmem a (Or.inr ⟨id,u,hne,hu,ha⟩)
  rw [hgs, h4]

/-- A new thread runs for the first time. -/
lemma start (hk : s.cpu.cs = KERNEL_CODE_SELECTOR) (h8 : 8 ∣ s.cpu.reg .rsp) (hroom : t.bottom + 8 ≤ s.cpu.reg .rsp)
    (hrun : run 0 (threadEntryStub sym) s.cpu = some cpu) : Inv sym { s with cpu := cpu } := by
  have hr := h.running ht
  obtain ⟨hmach,hlo,hhi⟩ := h.kernel ht hk
  obtain ⟨cpu',hrun',_,_,_,hrsp,hmem,hcs,_,hgs,hbase,_⟩ := @threadEntryStub_ok sym s.cpu h8 (by omega)
  obtain rfl := Option.some.inj (hrun'.symm.trans hrun)
  have htop := hr.traps.base_le
  have hbt : baseOf t.top t.traps = t.base := rfl
  have hsame : ∀ a, a ≠ s.cpu.reg .rsp - 8 → cpu'.mem a = s.cpu.mem a := fun a ha => by
    rw [hmem]
    exact Function.update_of_ne ha ..
  refine h.ran ht ⟨hr.traps.congr fun a ha _ => hsame a (by omega),Or.inl ⟨hcs.trans hk,hbase.trans hmach,?_,?_⟩,
    fun hu => ?_⟩ (h.owns_same ht fun a ha => hsame a (by omega))
  · rw [hrsp]
    omega
  · rw [hrsp]
    omega
  · rw [hgs]
    rw [hcs] at hu
    exact hr.tss hu

/-- The thread goes to user mode, and its stack is free for the entries from there. -/
lemma launched {entry : ℕ} (hk : s.cpu.cs = KERNEL_CODE_SELECTOR) (htraps : t.traps = []) (h8 : 8 ∣ s.cpu.reg .rsp)
    (hroom : t.bottom + 40 ≤ s.cpu.reg .rsp)
    (hrun : run 0 (launch USER_DATA_SELECTOR USER_CODE_SELECTOR (USER_STACK_BOTTOM + USER_STACK_SIZE) entry)
      (setKernelRsp sym s.cpu t.top) = some cpu) : Inv sym { s with cpu := cpu } := by
  obtain ⟨hmach,hlo,hhi⟩ := h.kernel ht hk
  rw [Thread.base, htraps] at hhi
  change _ ≤ t.top at hhi
  have h8' : 8 ∣ (setKernelRsp sym s.cpu t.top).reg .rsp := h8
  have h40 : 40 ≤ (setKernelRsp sym s.cpu t.top).reg .rsp := (Nat.le_add_left ..).trans hroom
  obtain ⟨cpu',hrun',_,hcs,hss,_,_,_,hkbase,hgs,hmem⟩ :=
    @launch_ok _ (USER_STACK_BOTTOM + USER_STACK_SIZE) USER_DATA_SELECTOR USER_CODE_SELECTOR entry h8' h40
  obtain rfl := Option.some.inj (hrun'.symm.trans hrun)
  refine h.ran ht ⟨by rw [htraps]; trivial,Or.inr ⟨hcs,hss,hkbase.trans hmach,htraps⟩,fun _ => ?_⟩
    (h.owns_same ht fun a ha => hmem a ?_)
  · rw [hgs, setKernelRsp_rsp]
  · change a < s.cpu.reg .rsp - 40 ∨ s.cpu.reg .rsp ≤ a
    omega

/-- What `switch` does to the processor and to the memory of the threads. -/
lemma switch_eq (hne : id ≠ s.current) (hu : s.threads id = some u) (hk : s.cpu.cs = KERNEL_CODE_SELECTOR)
    (hrdi : s.cpu.reg .rdi = t.place) (hrsi : s.cpu.reg .rsi = u.place) (h8 : 8 ∣ s.cpu.reg .rsp)
    (hback : s.cpu.reg .rsp + 8 ≤ t.base) : ∃ cpu, run 0 switch (setKernelRsp sym s.cpu u.top) = some cpu ∧
      u.saved.Resumed cpu ∧ cpu.cs = KERNEL_CODE_SELECTOR ∧ cpu.gsBase = sym.mach ∧
      cpu.gs sym.mach sym.kernelRspOffset = u.top ∧ Holds cpu.mem t.place (SwitchFrame.ofCaller s.cpu).words ∧
      (∀ a, t.bottom ≤ a → a < t.top → cpu.mem a = s.cpu.mem a) ∧
      ∀ i v, i ≠ s.current → s.threads i = some v → ∀ a, v.Owns a → cpu.mem a = s.cpu.mem a := by
  have hr := h.running ht
  have hp := h.parked id u hne hu
  have hts := h.shape _ t ht
  have hus := h.shape _ u hu
  have hap := h.apart _ _ _ _ hne.symm ht hu
  obtain ⟨hmach,hlo,hhi⟩ := h.kernel ht hk
  have htop := hr.traps.base_le
  have hutop := hp.traps.base_le
  have hulow := hp.low
  have huhigh := hp.high
  have hbt : baseOf t.top t.traps = t.base := rfl
  have hbu : baseOf u.top u.traps = u.base := rfl
  obtain ⟨cpu,hrun,hres,_,hmem,hcs,_,hgs,hbase,_⟩ := @switch_ok (setKernelRsp sym s.cpu u.top) t.place u.place u.saved hrdi
    hrsi h8 hts.place hus.place hp.aligned (by omega) hp.regs hap.places
    (by have := hus.outside; omega) (by have := hts.outside; change s.cpu.reg .rsp < _ ∨ _ ≤ s.cpu.reg .rsp; omega)
  change cpu.mem = Function.update (writeWords s.cpu.mem t.place (SwitchFrame.ofCaller s.cpu).words) (u.saved.rsp - 8) u.saved.rip at hmem
  -- the frame of this thread is written, and a word below what the other one owns
  have hsame : ∀ a, (a < t.place ∨ t.place + SWITCH_FRAME_SIZE ≤ a) → a ≠ u.saved.rsp - 8 → cpu.mem a = s.cpu.mem a := by
    intro a ha hne
    rw [hmem, Function.update_of_ne hne, writeWords_outside ha]
  have hframe : Holds cpu.mem t.place (SwitchFrame.ofCaller s.cpu).words := by
    have hwrite : Holds (writeWords s.cpu.mem t.place (SwitchFrame.ofCaller s.cpu).words) t.place _ := holds_writeWords
    rw [hmem]
    refine hwrite.congr fun x hx hlt => ?_
    have hlt : x < t.place + SWITCH_FRAME_SIZE := hlt
    have hne : x ≠ u.saved.rsp - 8 := by
      have := hap.left
      omega
    exact Function.update_of_ne hne ..
  have hother : ∀ i v, i ≠ s.current → s.threads i = some v → ∀ a, v.Owns a → cpu.mem a = s.cpu.mem a := by
    intro i v hi hv a ha
    have hpv := h.parked i v hi hv
    have htv := h.apart _ _ _ _ hi.symm ht hv
    have hvs := h.shape _ v hv
    have h1 := htv.places
    have h2 := htv.left
    have h3 := hpv.low
    refine hsame a ?_ ?_
    · rcases ha with ⟨h4,h5⟩ | ⟨h4,h5⟩ <;> omega
    · by_cases hiu : i = id
      · rw [hiu, hu] at hv
        obtain rfl := Option.some.inj hv
        have h6 := hvs.outside
        rcases ha with ⟨h4,h5⟩ | ⟨h4,h5⟩ <;> omega
      · have huv := h.apart _ _ _ _ hiu hv hu
        have h6 := huv.kernelStacks
        have h7 := huv.left
        rcases ha with ⟨h4,h5⟩ | ⟨h4,h5⟩ <;> omega
  have hown : ∀ a, t.bottom ≤ a → a < t.top → cpu.mem a = s.cpu.mem a := by
    intro a h1 h2
    have h3 := hts.outside
    have h4 := hap.kernelStacks
    exact hsame a (by omega) (by omega)
  exact ⟨cpu,hrun,hres,hcs.trans hk,hbase.trans hmach,by rw [hgs, setKernelRsp_rsp],hframe,hown,hother⟩

/-- `switch` resumes another thread, and leaves this one behind. -/
lemma switched (hne : id ≠ s.current) (hu : s.threads id = some u) (hk : s.cpu.cs = KERNEL_CODE_SELECTOR)
    (hrdi : s.cpu.reg .rdi = t.place) (hrsi : s.cpu.reg .rsi = u.place) (h8 : 8 ∣ s.cpu.reg .rsp)
    (hback : s.cpu.reg .rsp + 8 ≤ t.base) (hrun : run 0 switch (setKernelRsp sym s.cpu u.top) = some cpu) :
    Inv sym ⟨cpu,id,Function.update s.threads s.current (some (t.leave s.cpu))⟩ := by
  obtain ⟨cpu',hrun',hres,hcs,hbase,htss,hframe,hown,hother⟩ := h.switch_eq ht hne hu hk hrdi hrsi h8 hback
  obtain rfl := Option.some.inj (hrun'.symm.trans hrun)
  have hr := h.running ht
  have hp := h.parked id u hne hu
  obtain ⟨_,hlo,_⟩ := h.kernel ht hk
  have hbt : baseOf t.top t.traps = t.base := rfl
  obtain ⟨threads,hself,hold,hthreads⟩ : ∃ threads, threads s.current = some (t.leave s.cpu) ∧
      (∀ i, i ≠ s.current → threads i = s.threads i) ∧
      threads = Function.update s.threads s.current (some (t.leave s.cpu)) :=
    ⟨_,Function.update_self ..,fun i hi => Function.update_of_ne hi ..,rfl⟩
  rw [← hthreads]
  obtain ⟨hshape,hapart⟩ := h.places threads fun i v hv => by
    by_cases hi : i = s.current
    · rw [hi, hself] at hv
      obtain rfl := Option.some.inj hv
      exact ⟨t,hi ▸ ht,rfl,rfl,rfl⟩
    · exact ⟨v,(hold i hi).symm.trans hv,rfl,rfl,rfl⟩
  refine ⟨⟨u,(hold id hne).trans hu,?_⟩,hshape,hapart,fun i v hi hv => ?_⟩
  · have hstack : ∀ a, u.saved.rsp ≤ a → a < u.top → cpu'.mem a = s.cpu.mem a := fun a h1 h2 =>
      hother id u hne hu a (Or.inl ⟨h1,h2⟩)
    refine ⟨hp.traps.congr fun a h1 h2 => hstack a (hp.high.trans h1) h2,Or.inl ⟨hcs,hbase,?_,?_⟩,fun _ => htss⟩
    · rw [hres.rsp]
      exact (Nat.le_add_right _ 8).trans hp.low
    · rw [hres.rsp]
      exact hp.high
  · change threads i = some v at hv
    by_cases hc : i = s.current
    · rw [hc, hself] at hv
      obtain rfl := Option.some.inj hv
      refine ⟨hr.traps.congr fun a h1 h2 => hown a ?_ h2,h8.add dvd_rfl,Nat.add_le_add_right hlo 8,hback,hframe,
        fun a h1 h2 => hown a ?_ h2⟩
      · change baseOf t.top t.traps ≤ a at h1
        omega
      · change s.cpu.reg .rsp + 8 ≤ a at h1
        omega
    · rw [hold i hc] at hv
      exact (h.parked i v hc hv).congr (hother i v hc hv)

end Inv

namespace Inv

/-- The stack pointer of a new thread leaves room for the closure above and for the thread below. -/
lemma spawnRsp_le {top size align : ℕ} (hroom : MIN_STACK ≤ spawnRsp top size align) :
    16 ∣ spawnRsp top size align ∧ spawnRsp top size align + size ≤ top := by
  have h1 : spawnRsp top size align ≤ (top - size) / align * align := Nat.div_mul_le_self ..
  have h2 : (top - size) / align * align ≤ top - size := Nat.div_mul_le_self ..
  unfold MIN_STACK at hroom
  exact ⟨Dvd.intro_left _ rfl,by omega⟩

/-- A new thread is added. -/
lemma spawned (h : Inv sym s) {size align fn : ℕ} {data : ℕ → ℕ} (hnew : s.threads id = none) (hshape : t.Shape)
    (hapart : ∀ i u, s.threads i = some u → t.Apart u) (htraps : t.traps = [])
    (hroom : t.bottom + MIN_STACK ≤ spawnRsp t.top size align)
    (hsaved : t.saved = spawnRegs sym fn (spawnRsp t.top size align))
    (himage : t.image = fun a => if t.saved.rsp ≤ a ∧ a < t.saved.rsp + size then data (a - t.saved.rsp) else
      writeWords s.cpu.mem t.place t.saved.words a) :
    Inv sym ⟨{ s.cpu with mem := t.image },s.current,Function.update s.threads id (some t)⟩ := by
  obtain ⟨cur,hcur,hr⟩ := h.here
  have hrsp : t.saved.rsp = spawnRsp t.top size align := by rw [hsaved]; rfl
  obtain ⟨h16,hsize⟩ := spawnRsp_le ((Nat.le_add_left ..).trans hroom)
  rw [← hrsp] at h16 hsize hroom
  unfold MIN_STACK at hroom
  have houtside := hshape.outside
  -- only the memory of the new thread is written
  have hsame : ∀ a, (a < t.bottom ∨ t.top ≤ a) → ¬ t.InPlace a → t.image a = s.cpu.mem a := by
    intro a h1 h2
    have hnot : ¬ (t.saved.rsp ≤ a ∧ a < t.saved.rsp + size) := by omega
    unfold Thread.InPlace at h2
    rw [himage]
    simp only [if_neg hnot]
    refine writeWords_outside ?_
    change a < t.place ∨ t.place + SWITCH_FRAME_SIZE ≤ a
    omega
  have hregs : Holds t.image t.place t.saved.words := by
    have hwrite : Holds (writeWords s.cpu.mem t.place t.saved.words) t.place _ := holds_writeWords
    refine hwrite.congr fun x hx hlt => ?_
    have hlt : x < t.place + SWITCH_FRAME_SIZE := hlt
    have hnot : ¬ (t.saved.rsp ≤ x ∧ x < t.saved.rsp + size) := by omega
    rw [himage]
    simp only [if_neg hnot]
  have hne : id ≠ s.current := by
    rintro rfl
    rw [hcur] at hnew
    simp at hnew
  obtain ⟨threads,hself,hold,hthreads⟩ : ∃ threads, threads id = some t ∧ (∀ i, i ≠ id → threads i = s.threads i) ∧
      threads = Function.update s.threads id (some t) :=
    ⟨_,Function.update_self ..,fun i hi => Function.update_of_ne hi ..,rfl⟩
  rw [← hthreads]
  have hcases : ∀ i v, threads i = some v → (i = id ∧ v = t) ∨ (i ≠ id ∧ s.threads i = some v) := by
    intro i v hv
    by_cases hi : i = id
    · rw [hi, hself] at hv
      exact Or.inl ⟨hi,(Option.some.inj hv).symm⟩
    · rw [hold i hi] at hv
      exact Or.inr ⟨hi,hv⟩
  refine ⟨⟨cur,(hold _ hne.symm).trans hcur,?_⟩,fun i v hv => ?_,fun i j v w hij hv hw => ?_,fun i v hi hv => ?_⟩
  · have hap := hapart _ cur hcur
    have h3 := hr.traps.bottom_le (h.shape _ cur hcur).le
    have h4 := hap.kernelStacks
    have h5 := hap.left
    refine ⟨hr.traps.congr fun a h1 h2 => hsame a (by omega) fun hin => ?_,hr.mode,hr.tss⟩
    obtain ⟨h6,h7⟩ := hin
    omega
  · rcases hcases i v hv with ⟨_,rfl⟩ | ⟨_,hv'⟩
    · exact hshape
    · exact h.shape i v hv'
  · rcases hcases i v hv with ⟨hi,rfl⟩ | ⟨_,hv'⟩
    · rcases hcases j w hw with ⟨hj,_⟩ | ⟨_,hw'⟩
      · exact absurd (hi.trans hj.symm) hij
      · exact hapart j w hw'
    · rcases hcases j w hw with ⟨_,rfl⟩ | ⟨_,hw'⟩
      · exact (hapart i v hv').symm
      · exact h.apart i j v w hij hv' hw'
  · rcases hcases i v hv with ⟨_,rfl⟩ | ⟨_,hv'⟩
    · have hbase : v.base = v.top := by rw [Thread.base, htraps]; rfl
      refine ⟨by rw [htraps]; trivial,Dvd.dvd.trans (by decide) h16,by omega,by omega,hregs,fun _ _ _ => rfl⟩
    · have hp := h.parked i v hi hv'
      have hlow := (Nat.le_add_right _ 8).trans hp.low
      exact hp.congr fun a ha => hsame a ((hapart i v hv').owns hlow ha) ((hapart i v hv').not_inPlace hlow ha)

/-- The frames of all threads move. -/
lemma grown (h : Inv sym s) (place : ℕ → ℕ)
    (hcpu : cpu.toContext = s.cpu.toContext ∧ cpu.gsBase = s.cpu.gsBase ∧ cpu.kernelGsBase = s.cpu.kernelGsBase ∧
      cpu.gs = s.cpu.gs)
    (hshape : ∀ id t, s.threads id = some t → ({ t with place := place id } : Thread).Shape)
    (hapart : ∀ i j t u, i ≠ j → s.threads i = some t → s.threads j = some u →
      ({ t with place := place i } : Thread).Apart { u with place := place j })
    (hcopy : ∀ id t, id ≠ s.current → s.threads id = some t → ∀ k < SWITCH_FRAME_SIZE,
      cpu.mem (place id + k) = s.cpu.mem (t.place + k))
    (hmem : ∀ id t, s.threads id = some t → ∀ a, t.bottom ≤ a → a < t.top → cpu.mem a = s.cpu.mem a) :
    Inv sym ⟨cpu,s.current,fun id => (s.threads id).map fun t => { t with place := place id }⟩ := by
  obtain ⟨cur,hcur,hr⟩ := h.here
  obtain ⟨hctx,hbase,hkbase,hgs⟩ := hcpu
  have hcs : cpu.cs = s.cpu.cs := congrArg Context.cs hctx
  have hss : cpu.ss = s.cpu.ss := congrArg Context.ss hctx
  have hrsp : cpu.reg .rsp = s.cpu.reg .rsp := congrFun (congrArg Context.reg hctx) .rsp
  refine ⟨⟨{ cur with place := place s.current },?_,?_,?_,?_⟩,fun i v hv => ?_,fun i j v w hij hv hw => ?_,
    fun i v hi hv => ?_⟩
  · change (s.threads s.current).map _ = _
    rw [hcur]
    rfl
  · have hlow := hr.traps.bottom_le (h.shape _ cur hcur).le
    exact hr.traps.congr fun a h1 h2 => hmem _ cur hcur a (hlow.trans h1) h2
  · rw [hcs, hss, hrsp, hbase, hkbase]
    exact hr.mode
  · rw [hcs, hgs]
    exact hr.tss
  · obtain ⟨t,ht,rfl⟩ := Option.map_eq_some_iff.mp hv
    exact hshape i t ht
  · obtain ⟨t,ht,rfl⟩ := Option.map_eq_some_iff.mp hv
    obtain ⟨u,hu,rfl⟩ := Option.map_eq_some_iff.mp hw
    exact hapart i j t u hij ht hu
  · obtain ⟨t,ht,rfl⟩ := Option.map_eq_some_iff.mp hv
    have hp := h.parked i t hi ht
    have hlow := hp.traps.bottom_le (h.shape _ t ht).le
    refine ⟨hp.traps.congr fun a h1 h2 => hmem i t ht a (hlow.trans h1) h2,hp.aligned,hp.low,hp.high,?_,fun a h1 h2 => ?_⟩
    · exact hp.regs.moved fun k hk => hcopy i t hi ht k hk
    · rw [hmem i t ht a (((Nat.le_add_right _ 8).trans hp.low).trans h1) h2, hp.stack a h1 h2]

/-- A thread is removed. -/
lemma cleanedUp (h : Inv sym s) (hne : id ≠ s.current) : Inv sym { s with threads := Function.update s.threads id none } := by
  obtain ⟨cur,hcur,hr⟩ := h.here
  obtain ⟨threads,hsub,hold,hthreads⟩ : ∃ threads, (∀ i v, threads i = some v → s.threads i = some v) ∧
      threads s.current = s.threads s.current ∧ threads = Function.update s.threads id none := by
    refine ⟨_,fun i v hv => ?_,Function.update_of_ne hne.symm ..,rfl⟩
    by_cases hi : i = id
    · rw [hi, Function.update_self] at hv
      simp at hv
    · rwa [Function.update_of_ne hi] at hv
  rw [← hthreads]
  exact ⟨⟨cur,hold.trans hcur,hr⟩,fun i v hv => h.shape i v (hsub i v hv),
    fun i j v w hij hv hw => h.apart i j v w hij (hsub i v hv) (hsub j w hw),fun i v hi hv => h.parked i v hi (hsub i v hv)⟩

/-- Every step keeps the invariant. -/
lemma step (h : Inv sym s) (hs : Step sym s s') : Inv sym s' := by
  cases hs with
  | work ht hk _ hcs hbase _ htss hrsp hmem => exact h.work ht hk hcs hbase htss hrsp hmem
  | user hu hcs hss hkbase hgs hmem =>
    obtain ⟨t,ht,_⟩ := h.here
    exact h.userWork ht hu hcs hss hkbase hgs hmem
  | interrupt ht _ hroom _ hrun => exact h.interrupt ht hroom hrun
  | interruptReturn ht htraps hk hrsp hrun => exact h.interruptReturn ht htraps hk hrsp hrun
  | syscall ht hu hroom hrun => exact h.syscall ht hu hroom hrun
  | setRax v ht htraps hk => exact h.setRax ht v htraps hk
  | syscallReturn ht htraps hk hrsp hrun => exact h.syscallReturn ht htraps hk hrsp hrun
  | switch ht hne hu hk _ hrdi hrsi h8 hback hrun => exact h.switched ht hne hu hk hrdi hrsi h8 hback hrun
  | start ht hk _ h8 hroom hrun => exact h.start ht hk h8 hroom hrun
  | spawn data _ hnew hshape hapart _ htraps hroom hsaved himage =>
    exact h.spawned hnew hshape hapart htraps hroom hsaved himage
  | grow place _ hcpu hshape hapart hcopy hmem => exact h.grown place hcpu hshape hapart hcopy hmem
  | cleanUp _ hne => exact h.cleanedUp hne
  | launch ht hk _ htraps h8 hroom hrun => exact h.launched ht hk htraps h8 hroom hrun

end Inv

/-- The invariant holds in every run. -/
theorem Reach.inv (h : Reach sym s) : Inv sym s := by
  induction h with
  | init hk hbase hshape hrsp htraps =>
    rename_i cpu t
    have hone : ∀ id u, Function.update (fun _ => none) 0 (some t) id = some u → id = 0 ∧ u = t := by
      intro id u hu
      by_cases hid : id = 0
      · rw [hid, Function.update_self] at hu
        exact ⟨hid,(Option.some.inj hu).symm⟩
      · rw [Function.update_of_ne hid] at hu
        simp at hu
    have hzero : Function.update (fun _ => none) 0 (some t) 0 = some t := Function.update_self ..
    refine ⟨⟨t,hzero,by rw [htraps]; trivial,Or.inl ⟨hk,hbase,hrsp.1,?_⟩,?_⟩,fun id u hu => ?_,
      fun i j u v hij hu hv => ?_,fun id u hne hu => ?_⟩
    · rw [Thread.base, htraps]
      exact hrsp.2
    · rintro (hu | ⟨trap,htrap,_⟩)
      · exact absurd (hu.symm.trans hk) user_ne_kernel
      · rw [htraps] at htrap
        simp at htrap
    · rw [(hone id u hu).2]
      exact hshape
    · exact absurd ((hone i u hu).1.trans (hone j v hv).1.symm) hij
    · exact absurd (hone id u hu).1 hne
  | step _ hs ih => exact ih.step hs

end Lilith.Machine
