import Lilith.Machine.Stubs

/-! One pass through a stub. On the way in it puts a `TrapFrame` of what was interrupted on the kernel stack, and on the way
out it restores that from the frame. -/
namespace Lilith.Machine
open Theory.X86

variable {sym : Symbols} {cpu cpu' : Cpu} {ctx : Context} {n e f stack : ℕ} {code : List Instr} {ws : List ℕ}

/-- A program in user mode is interrupted. -/
def UserMode (cs : ℕ) : Prop := cs &&& 3 ≠ 0

instance (cs : ℕ) : Decidable (UserMode cs) := inferInstanceAs (Decidable (_ ≠ _))

/-- A handler runs, with the address of a frame on the stack below `f + TRAP_FRAME_SIZE`. -/
structure Entered (cpu : Cpu) (f handler back : ℕ) (frame : List ℕ) (cpu' : Cpu) : Prop where
  rip : cpu'.rip = handler
  cs : cpu'.cs = KERNEL_CODE_SELECTOR
  arg : cpu'.reg .rdi = f
  rsp : cpu'.reg .rsp = f - 8
  frame : Holds cpu'.mem (f-8) (back::frame)
  same : ∀ a, a < f - 8 ∨ f + TRAP_FRAME_SIZE ≤ a → cpu'.mem a = cpu.mem a

lemma trapFrame_length : (trapFrame ctx n e).length = 22 := by
  simp [trapFrame, trapRegs]

/-- The registers in the order in which they are pushed. -/
def pushedRegs : List Reg := trapRegs.reverse

lemma rsp_not_mem : Reg.rsp ∉ trapRegs ∧ Reg.rsp ∉ pushedRegs := by decide

/-- What both stubs do last on the way in. -/
def saveAndCall (handler back : ℕ) : List Instr :=
  pushedRegs.map (fun r => .push (.reg r)) ++ [.mov (.reg .rdi) (.reg .rsp),.call handler back]

/-- What both stubs do first on the way out. -/
def restore : List Instr := trapRegs.map fun r => .pop (.reg r)

/-- The registers are on the stack. -/
lemma run_save (code : List Instr) (h : 8 ∣ cpu.reg .rsp) (hle : 120 ≤ cpu.reg .rsp) : ∃ cpu1,
    run 0 (pushedRegs.map (fun r => .push (.reg r)) ++ code) cpu = run 0 code cpu1 ∧
      cpu1.reg .rsp = cpu.reg .rsp - 120 ∧ Holds cpu1.mem (cpu.reg .rsp - 120) (trapRegs.map cpu.reg) ∧
      (∀ a, a < cpu.reg .rsp - 120 ∨ cpu.reg .rsp ≤ a → cpu1.mem a = cpu.mem a) ∧ cpu1.cs = cpu.cs ∧
      cpu1.gsBase = cpu.gsBase ∧ cpu1.kernelGsBase = cpu.kernelGsBase ∧ cpu1.gs = cpu.gs := by
  have hl : (pushedRegs.map cpu.reg).length = 15 := List.length_map ..
  obtain ⟨_,_,_,hcs,_,hgs,hkgs,hwords⟩ := @Cpu.pushList_same cpu (pushedRegs.map cpu.reg)
  refine ⟨_,run_pushRegs h hle rsp_not_mem.2,?_,?_,fun a ha => ?_,hcs,hgs,hkgs,hwords⟩
  · rw [Cpu.pushList_rsp, hl]
  · have hh := @Cpu.holds_pushList cpu (pushedRegs.map cpu.reg) (by rw [hl]; exact hle)
    rw [hl, ← List.map_reverse, pushedRegs, List.reverse_reverse] at hh
    exact hh
  · exact Cpu.pushList_mem (by rw [hl]; exact hle) (by rw [hl]; exact ha)

/-- The frame is complete, and its handler is called. -/
lemma run_saveAndCall (handler back : ℕ) (h : 8 ∣ cpu.reg .rsp) (hle : 128 ≤ cpu.reg .rsp)
    (hws : Holds cpu.mem (cpu.reg .rsp) ws) : ∃ cpu',
    run 0 (saveAndCall handler back) cpu = some cpu' ∧ cpu'.rip = handler ∧ cpu'.cs = cpu.cs ∧
      cpu'.reg .rdi = cpu.reg .rsp - 120 ∧ cpu'.reg .rsp = cpu.reg .rsp - 128 ∧
      Holds cpu'.mem (cpu.reg .rsp - 128) (back::(trapRegs.map cpu.reg ++ ws)) ∧
      (∀ a, a < cpu.reg .rsp - 128 ∨ cpu.reg .rsp ≤ a → cpu'.mem a = cpu.mem a) ∧
      cpu'.gsBase = cpu.gsBase ∧ cpu'.kernelGsBase = cpu.kernelGsBase ∧ cpu'.gs = cpu.gs := by
  obtain ⟨cpu1,hrun,hrsp,hregs,hmem,hcs,hgs,hkgs,hwords⟩ :=
    run_save [.mov (.reg .rdi) (.reg .rsp),.call handler back] h (by omega)
  have hread : cpu1.read (.reg .rsp) = some (cpu.reg .rsp - 120) := congrArg some hrsp
  have hwrite : cpu1.write (.reg .rdi) (cpu.reg .rsp - 120) = some (cpu1.set .rdi (cpu.reg .rsp - 120)) := rfl
  obtain ⟨cpu2,h2⟩ : ∃ cpu2, cpu2 = cpu1.set .rdi (cpu.reg .rsp - 120) := ⟨_,rfl⟩
  have hrsp2 : cpu2.reg .rsp = cpu.reg .rsp - 120 := by rw [h2, Cpu.set_reg_ne (by decide), hrsp]
  have hmem2 : cpu2.mem = cpu1.mem := by rw [h2]; rfl
  have hbelow : ∀ a, a < cpu.reg .rsp - 128 ∨ cpu.reg .rsp - 120 ≤ a → (cpu2.pushed back).mem a = cpu1.mem a := by
    intro a ha
    rw [Cpu.pushed_mem_ne (by omega), hmem2]
  refine ⟨{ cpu2.pushed back with rip := handler },?_,rfl,?_,?_,?_,⟨?_,?_⟩,fun a ha => ?_,?_,?_,?_⟩
  · rw [saveAndCall, hrun, run_mov hread hwrite, ← h2,
      run_call (by rw [hrsp2]; exact Nat.dvd_sub h (by decide)) (by rw [hrsp2]; omega)]
    rfl
  · rw [← hcs, h2]
    rfl
  · change (cpu2.pushed back).reg .rdi = _
    rw [Cpu.pushed_reg (by decide), h2, Cpu.set_reg_self]
  · change (cpu2.pushed back).reg .rsp = _
    rw [Cpu.pushed_rsp, hrsp2]
    omega
  · have haddr : cpu.reg .rsp - 128 = cpu2.reg .rsp - 8 := by omega
    rw [haddr]
    exact Cpu.pushed_mem_self
  · have hnext : cpu.reg .rsp - 128 + 8 = cpu.reg .rsp - 120 := by omega
    have hend : cpu.reg .rsp - 120 + 8*(trapRegs.map cpu.reg).length = cpu.reg .rsp := by
      rw [List.length_map]
      change cpu.reg .rsp - 120 + 120 = _
      omega
    have hrest : Holds cpu1.mem (cpu.reg .rsp) ws := hws.congr fun x hx _ => hmem x (Or.inr hx)
    rw [hnext]
    refine Holds.congr (holds_append.mpr ⟨hregs,?_⟩) fun x hx _ => hbelow x (Or.inr hx)
    rw [hend]
    exact hrest
  · change (cpu2.pushed back).mem a = _
    rw [hbelow a (by omega), hmem a (by omega)]
  · rw [← hgs, h2]
    rfl
  · rw [← hkgs, h2]
    rfl
  · rw [← hwords, h2]
    rfl

/-- All registers but the stack pointer are restored. -/
lemma setAll_trapRegs (g : Reg → ℕ) (r : Reg) (h : r ≠ .rsp) : setAll trapRegs (trapRegs.map ctx.reg) g r = ctx.reg r := by
  cases r <;> first | rfl | exact absurd rfl h

lemma run_restore (ctx : Context) (code : List Instr) (h : 8 ∣ cpu.reg .rsp) (hregs : Holds cpu.mem (cpu.reg .rsp) (trapRegs.map ctx.reg)) : ∃ cpu1,
    run 0 (restore ++ code) cpu = run 0 code cpu1 ∧ (∀ r, r ≠ .rsp → cpu1.reg r = ctx.reg r) ∧
      cpu1.reg .rsp = cpu.reg .rsp + 120 ∧ cpu1.cs = cpu.cs ∧ cpu1.ss = cpu.ss ∧ cpu1.mem = cpu.mem ∧
      cpu1.gsBase = cpu.gsBase ∧ cpu1.kernelGsBase = cpu.kernelGsBase ∧ cpu1.gs = cpu.gs := by
  refine ⟨_,run_popRegs h (List.length_map ..) rsp_not_mem.1 hregs,fun r hr => ?_,Cpu.set_reg_self,rfl,rfl,rfl,rfl,rfl,rfl⟩
  rw [Cpu.set_reg_ne hr]
  exact setAll_trapRegs _ r hr

section Interrupts

/-- The processor after an interrupt pushed words. -/
def vectored (cpu : Cpu) (ss rflags rip : ℕ) (ws : List ℕ) : Cpu :=
  { cpu.pushList ws with rip := rip, cs := KERNEL_CODE_SELECTOR, ss := ss, rflags := rflags }

lemma run_push_vectored {ss rflags rip : ℕ} (h8 : 8 ∣ cpu.reg .rsp) (hle : 8*ws.length + 8 ≤ cpu.reg .rsp) (v : ℕ) :
    run 0 (.push (.imm v)::code) (vectored cpu ss rflags rip ws) = run 0 code (vectored cpu ss rflags rip (ws ++ [v])) := by
  have hrsp : (vectored cpu ss rflags rip ws).reg .rsp = cpu.reg .rsp - 8*ws.length := Cpu.pushList_rsp
  have hdvd : 8 ∣ cpu.reg .rsp - 8*ws.length := Nat.dvd_sub h8 (Dvd.intro _ rfl)
  have hnext : vectored cpu ss rflags rip (ws ++ [v]) = (vectored cpu ss rflags rip ws).pushed v := by
    rw [vectored, Cpu.pushList_append]
    rfl
  rw [run_push (by rw [hrsp]; exact hdvd) (by rw [hrsp]; omega) rfl, hnext]

/-- An error code is on the stack for every vector: the processor pushes it for those for which the stub does not. -/
lemma run_intEntry (n e : ℕ) (code : List Instr) (h8 : 8 ∣ cpu.reg .rsp) (hroom : 56 ≤ cpu.reg .rsp) (ss rflags rip : ℕ)
    (hws : ws.length = 5) :
    ((if n ∈ errorCodeVectors then ws ++ [e] else ws).foldlM Cpu.pushWord cpu >>= fun s =>
      run 0 (intEntry n ++ code) { s with rip := rip, cs := KERNEL_CODE_SELECTOR, ss := ss, rflags := rflags }) =
      run 0 code (vectored cpu ss rflags rip (ws ++ [if n ∈ errorCodeVectors then e else 0,n])) := by
  by_cases hn : n ∈ errorCodeVectors
  · have hstub : intEntry n = [.push (.imm n)] := if_pos hn
    rw [if_pos hn, if_pos hn, foldlM_pushWord h8 (by rw [List.length_append, List.length_singleton, hws]; omega), hstub]
    change run 0 (.push (.imm n)::code) (vectored cpu ss rflags rip (ws ++ [e])) = _
    rw [run_push_vectored h8 (by rw [List.length_append, List.length_singleton, hws]; omega), List.append_assoc]
    rfl
  · have hstub : intEntry n = [.push (.imm 0),.push (.imm n)] := if_neg hn
    rw [if_neg hn, if_neg hn, foldlM_pushWord h8 (by rw [hws]; omega), hstub]
    change run 0 (.push (.imm 0)::.push (.imm n)::code) (vectored cpu ss rflags rip ws) = _
    rw [run_push_vectored h8 (by rw [hws]; omega), run_push_vectored h8 (by rw [List.length_append, List.length_singleton, hws]; omega),
      List.append_assoc]
    rfl

/-- the stack that an interrupt uses -/
def trapStack (sym : Symbols) (cpu : Cpu) : ℕ :=
  (if UserMode cpu.cs then cpu.gs sym.mach sym.kernelRspOffset else cpu.reg .rsp) / 16 * 16

/-- The error code in the frame. -/
def errorCodeOf (n e : ℕ) : ℕ := if n ∈ errorCodeVectors then e else 0

/-- The address of the selector in the frame of the processor. -/
lemma read_cs (h8 : 8 ∣ cpu.reg .rsp) {a b c d : ℕ} (hws : Holds cpu.mem (cpu.reg .rsp) (a::b::c::d::ws)) :
    cpu.read (.mem .rsp 24) = some d := by
  have hdvd : 8 ∣ cpu.reg .rsp + 24 := h8.add (by decide)
  obtain ⟨_,_,_,rfl,_⟩ := hws
  exact if_pos hdvd

/-- The base of `gs` is that of the kernel afterwards, or no longer. -/
lemma run_swapgs {v : ℕ} (code : List Instr) (hread : cpu.read (.mem .rsp 24) = some v) : ∃ cpu1,
    run 0 (.test (.mem .rsp 24) 3::.jz 1::.swapgs::code) cpu = run 0 code cpu1 ∧ cpu1.reg = cpu.reg ∧ cpu1.mem = cpu.mem ∧
      cpu1.cs = cpu.cs ∧ cpu1.gs = cpu.gs ∧ cpu1.gsBase = (if UserMode v then cpu.kernelGsBase else cpu.gsBase) ∧
      cpu1.kernelGsBase = (if UserMode v then cpu.gsBase else cpu.kernelGsBase) := by
  have hswap : ∀ rflags, Cpu.step { cpu with rflags := rflags } .swapgs =
      some { { cpu with gsBase := cpu.kernelGsBase, kernelGsBase := cpu.gsBase } with rflags := rflags } := fun _ => rfl
  refine ⟨_,run_ifBits hread hswap fun _ => rfl,?_⟩
  by_cases hv : v &&& 3 = 0
  · have huser : ¬ UserMode v := fun h => h hv
    simp only [if_pos hv, if_neg huser, and_self]
  · have huser : UserMode v := hv
    simp only [if_neg hv, if_pos huser, and_self]

/-- An interrupt saves the context in a frame. -/
lemma interrupted_ok (hroom : 184 ≤ trapStack sym cpu) : ∃ cpu',
    interrupted sym cpu n e = some cpu' ∧
      Entered cpu (trapStack sym cpu - TRAP_FRAME_SIZE) sym.intHandler sym.intHandlerReturn
        (trapFrame cpu.toContext n (errorCodeOf n e)) cpu' ∧
      cpu'.gsBase = (if UserMode cpu.cs then cpu.kernelGsBase else cpu.gsBase) ∧
      cpu'.kernelGsBase = (if UserMode cpu.cs then cpu.gsBase else cpu.kernelGsBase) ∧ cpu'.gs = cpu.gs := by
  obtain ⟨stack,hstack⟩ : ∃ stack, stack = trapStack sym cpu := ⟨_,rfl⟩
  have h8 : 8 ∣ stack := by
    rw [hstack, trapStack]
    omega
  rw [← hstack] at hroom ⊢
  obtain ⟨cpu0,h0⟩ : ∃ cpu0, cpu0 = cpu.set .rsp stack := ⟨_,rfl⟩
  have hrsp0 : cpu0.reg .rsp = stack := by rw [h0, Cpu.set_reg_self]
  have hreg0 : ∀ r, r ≠ .rsp → cpu0.reg r = cpu.reg r := fun r hr => by rw [h0, Cpu.set_reg_ne hr]
  -- the words of the processor and of the stub of the vector
  obtain ⟨ss,rflags,hrun⟩ : ∃ ss rflags, interrupted sym cpu n e = run 0 (intCommonEntry sym)
      (vectored cpu0 ss rflags (sym.intEntry n) [cpu.ss,cpu.reg .rsp,cpu.rflags,cpu.cs,cpu.rip,errorCodeOf n e,n]) := by
    refine ⟨if UserMode cpu.cs then 0 else cpu.ss,clearBits cpu.rflags (INTERRUPT_FLAG + TRAP_FLAG),?_⟩
    have hframe : [cpu.ss,cpu.reg .rsp,cpu.rflags,cpu.cs,cpu.rip].length = 5 := rfl
    have hwords := run_intEntry n e (intCommonEntry sym) (by rw [hrsp0]; exact h8) (by rw [hrsp0]; omega)
      (if UserMode cpu.cs then 0 else cpu.ss) (clearBits cpu.rflags (INTERRUPT_FLAG + TRAP_FLAG)) (sym.intEntry n) hframe
    refine Eq.trans ?_ hwords
    rw [h0, hstack, interrupted, Cpu.interrupt]
    simp only [bind, Option.bind_assoc]
    rfl
  obtain ⟨ws,hws⟩ : ∃ ws, ws = [cpu.ss,cpu.reg .rsp,cpu.rflags,cpu.cs,cpu.rip,errorCodeOf n e,n] := ⟨_,rfl⟩
  have hlen : ws.length = 7 := by rw [hws]; rfl
  have hrev : ws.reverse = [n,errorCodeOf n e,cpu.rip,cpu.cs,cpu.rflags,cpu.reg .rsp,cpu.ss] := by rw [hws]; rfl
  rw [← hws] at hrun
  obtain ⟨hsame,_,_,_,_,hgs,hkgs,hwords⟩ := @Cpu.pushList_same cpu0 ws
  obtain ⟨cpu1,h1⟩ : ∃ cpu1, cpu1 = vectored cpu0 ss rflags (sym.intEntry n) ws := ⟨_,rfl⟩
  have hrsp1 : cpu1.reg .rsp = stack - 56 := by
    rw [h1]
    refine Cpu.pushList_rsp.trans ?_
    rw [hrsp0, hlen]
  have hmem1 : Holds cpu1.mem (stack-56) ws.reverse := by
    have hh := @Cpu.holds_pushList cpu0 ws (by rw [hlen, hrsp0]; omega)
    rw [hlen, hrsp0] at hh
    rw [h1]
    exact hh
  have hout1 : ∀ a, a < stack - 56 ∨ stack ≤ a → cpu1.mem a = cpu.mem a := by
    intro a ha
    rw [h1]
    refine (Cpu.pushList_mem (by rw [hlen, hrsp0]; omega) (by rw [hlen, hrsp0]; omega)).trans ?_
    rw [h0]
    rfl
  obtain ⟨hbase1,hkbase1,hgs1⟩ : cpu1.gsBase = cpu.gsBase ∧ cpu1.kernelGsBase = cpu.kernelGsBase ∧ cpu1.gs = cpu.gs := by
    rw [h0] at hgs hkgs hwords
    rw [h1, h0]
    exact ⟨hgs,hkgs,hwords⟩
  -- the base of `gs`
  have h81 : 8 ∣ cpu1.reg .rsp := by
    rw [hrsp1]
    exact Nat.dvd_sub h8 (by decide)
  have hread : cpu1.read (.mem .rsp 24) = some cpu.cs := by
    rw [hrev, ← hrsp1] at hmem1
    exact read_cs h81 hmem1
  obtain ⟨cpu2,hrun2,hreg2,hmem2,hcs2,hgs2,hbase2,hkbase2⟩ :=
    run_swapgs (saveAndCall sym.intHandler sym.intHandlerReturn) hread
  -- the registers
  have hrsp2 : cpu2.reg .rsp = stack - 56 := by rw [hreg2, hrsp1]
  have hframe2 : Holds cpu2.mem (cpu2.reg .rsp) ws.reverse := by
    rw [hmem2, hrsp2]
    exact hmem1
  obtain ⟨cpu3,hrun3,hrip3,hcs3,hrdi3,hrsp3,hframe3,hout3,hbase3,hkbase3,hgs3⟩ :=
    run_saveAndCall sym.intHandler sym.intHandlerReturn (by rw [hreg2]; exact h81) (by rw [hrsp2]; omega) hframe2
  have hregs : trapRegs.map cpu2.reg = trapRegs.map cpu.reg := by
    refine List.map_congr_left fun r hr => ?_
    have hne : r ≠ .rsp := fun he => rsp_not_mem.1 (he ▸ hr)
    rw [hreg2, h1]
    exact (hsame r hne).trans (hreg0 r hne)
  rw [hregs, hrev, hrsp2] at hframe3
  rw [hrsp2] at hrdi3 hrsp3 hout3
  have hf : stack - 56 - 128 = stack - TRAP_FRAME_SIZE - 8 := by
    unfold TRAP_FRAME_SIZE
    omega
  rw [hf] at hframe3 hrsp3
  refine ⟨cpu3,?_,⟨hrip3,?_,?_,hrsp3,hframe3,fun a ha => ?_⟩,?_,?_,?_⟩
  · rw [hrun, ← h1]
    exact hrun2.trans hrun3
  · rw [hcs3, hcs2, h1]
    rfl
  · rw [hrdi3]
    unfold TRAP_FRAME_SIZE
    omega
  · unfold TRAP_FRAME_SIZE at ha
    rw [hout3 a (by omega), hmem2, hout1 a (by omega)]
  · rw [hbase3, hbase2, hbase1, hkbase1]
  · rw [hkbase3, hkbase2, hbase1, hkbase1]
  · rw [hgs3, hgs2, hgs1]

/-- A handler returns to the stub that called it. -/
lemma run_back {back : ℕ} (h8 : 8 ∣ f) (hf : 8 ≤ f) (hrsp : cpu.reg .rsp = f - 8) (hback : cpu.mem (f-8) = back) : ∃ cpu0,
    run 0 [.ret] cpu = some cpu0 ∧ cpu0.rip = back ∧ cpu0.reg .rsp = f ∧ cpu0.mem = cpu.mem ∧ cpu0.gs = cpu.gs ∧
      cpu0.gsBase = cpu.gsBase ∧ cpu0.kernelGsBase = cpu.kernelGsBase := by
  have hnext : f - 8 + 8 = f := by omega
  refine ⟨_,run_ret (by rw [hrsp]; exact Nat.dvd_sub h8 dvd_rfl),?_,?_,rfl,rfl,rfl,rfl⟩
  · rw [← hback, ← hrsp]
  · rw [hrsp, hnext]
    change (cpu.set .rsp f).reg .rsp = f
    exact Cpu.set_reg_self

/-- The stub of interrupts restores the context from the frame, and the base of `gs` for its mode. -/
lemma interruptReturn_ok (h8 : 8 ∣ f) (hf : 8 ≤ f) (hrsp : cpu.reg .rsp = f - 8)
    (hframe : Holds cpu.mem (f-8) (sym.intHandlerReturn::trapFrame ctx n e)) : ∃ cpu',
    interruptReturn sym cpu = some cpu' ∧ cpu'.toContext = ctx ∧ cpu'.mem = cpu.mem ∧ cpu'.gs = cpu.gs ∧
      cpu'.gsBase = (if UserMode ctx.cs then cpu.kernelGsBase else cpu.gsBase) ∧
      cpu'.kernelGsBase = (if UserMode ctx.cs then cpu.gsBase else cpu.kernelGsBase) := by
  obtain ⟨hback,hframe⟩ := hframe
  have hnext : f - 8 + 8 = f := by omega
  rw [hnext] at hframe
  obtain ⟨cpu0,hret,hrip0,hrsp0,hmem0,hgs0,hbase0,hkbase0⟩ := run_back h8 hf hrsp hback
  obtain ⟨hregs,hrest⟩ := holds_append.mp hframe
  have hregs0 : Holds cpu0.mem (cpu0.reg .rsp) (trapRegs.map ctx.reg) := by
    rw [hmem0, hrsp0]
    exact hregs
  obtain ⟨cpu1,hrun1,hreg1,hrsp1,_,_,hmem1,hbase1,hkbase1,hgs1⟩ := run_restore ctx
    [.test (.mem .rsp 24) 3,.jz 1,.swapgs,.add .rsp 16,.iretq] (by rw [hrsp0]; exact h8) hregs0
  rw [hrsp0] at hrsp1
  have h81 : 8 ∣ cpu1.reg .rsp := by
    rw [hrsp1]
    exact h8.add (by decide)
  have hrest1 : Holds cpu1.mem (cpu1.reg .rsp) [n,e,ctx.rip,ctx.cs,ctx.rflags,ctx.reg .rsp,ctx.ss] := by
    rw [hmem1, hmem0, hrsp1]
    exact hrest
  obtain ⟨cpu2,hrun2,hreg2,hmem2,_,hgs2,hbase2,hkbase2⟩ := run_swapgs [.add .rsp 16,.iretq] (read_cs h81 hrest1)
  obtain ⟨cpu3,h3⟩ : ∃ cpu3, cpu3 = cpu2.set .rsp (cpu2.reg .rsp + 16) := ⟨_,rfl⟩
  have hrsp3 : cpu3.reg .rsp = cpu1.reg .rsp + 16 := by rw [h3, Cpu.set_reg_self, hreg2]
  have hmem3 : cpu3.mem = cpu1.mem := by
    rw [h3, ← hmem2]
    rfl
  have hiret : run 0 [.iretq] cpu3 = some { cpu3.set .rsp (ctx.reg .rsp) with
      rip := ctx.rip, cs := ctx.cs, rflags := ctx.rflags, ss := ctx.ss } := by
    refine run_iretq (by rw [hrsp3]; exact h81.add (by decide)) ?_
    rw [hrsp3, hmem3]
    exact hrest1.2.2
  obtain ⟨hgs3,hbase3,hkbase3⟩ : cpu3.gs = cpu2.gs ∧ cpu3.gsBase = cpu2.gsBase ∧ cpu3.kernelGsBase = cpu2.kernelGsBase := by
    rw [h3]
    exact ⟨rfl,rfl,rfl⟩
  refine ⟨{ cpu3.set .rsp (ctx.reg .rsp) with rip := ctx.rip, cs := ctx.cs, rflags := ctx.rflags, ss := ctx.ss },?_,
    Context.ext (funext fun r => ?_) rfl rfl rfl rfl,?_,?_,?_,?_⟩
  · rw [interruptReturn, hret]
    simp only [bind, Option.bind]
    rw [if_pos hrip0]
    refine hrun1.trans (hrun2.trans (Eq.trans ?_ hiret))
    rw [h3]
    rfl
  · by_cases hr : r = .rsp
    · rw [hr]
      change (cpu3.set .rsp (ctx.reg .rsp)).reg .rsp = _
      exact Cpu.set_reg_self
    · refine (Cpu.set_reg_ne hr).trans ?_
      rw [h3, Cpu.set_reg_ne hr, hreg2, hreg1 r hr]
  · exact hmem3.trans (hmem1.trans hmem0)
  · exact hgs3.trans (hgs2.trans (hgs1.trans hgs0))
  · change cpu3.gsBase = _
    rw [hbase3, hbase2, hbase1, hkbase1, hbase0, hkbase0]
  · change cpu3.kernelGsBase = _
    rw [hkbase3, hkbase2, hbase1, hkbase1, hbase0, hkbase0]

end Interrupts

section Syscalls

/-- The context that the frame of a system call shows: the instruction saved its own address and the flags in registers. -/
def syscallContext (ctx : Context) : Context :=
  { ctx with
    reg := Function.update (Function.update ctx.reg .rcx ctx.rip) .r11 ctx.rflags
    cs := USER_CODE_SELECTOR
    ss := USER_DATA_SELECTOR }

/-- The words of the frame of a system call that the stub pushes before the registers. -/
def syscallOperands (sym : Symbols) (ctx : Context) : List (Operand × ℕ) :=
  [(.imm USER_DATA_SELECTOR,USER_DATA_SELECTOR),(.gs sym.userRspOffset,ctx.reg .rsp),(.reg .r11,ctx.rflags),
   (.imm USER_CODE_SELECTOR,USER_CODE_SELECTOR),(.reg .rcx,ctx.rip),(.imm 0,0),
   (.imm SYSCALL_SENTINEL_INT_NUM,SYSCALL_SENTINEL_INT_NUM)]

/-- The stack of the program is put aside, and that of the kernel taken. -/
lemma run_takeStack (code : List Instr) (hbase : cpu.kernelGsBase = sym.mach)
    (hstack : cpu.gs sym.mach sym.kernelRspOffset = stack) : ∃ cpu1,
    run 0 (.swapgs::.mov (.gs sym.userRspOffset) (.reg .rsp)::.mov (.reg .rsp) (.gs sym.kernelRspOffset)::code) cpu =
        run 0 code cpu1 ∧
      (∀ r, r ≠ .rsp → cpu1.reg r = cpu.reg r) ∧ cpu1.reg .rsp = stack ∧ cpu1.cs = cpu.cs ∧ cpu1.mem = cpu.mem ∧
      cpu1.gsBase = sym.mach ∧ cpu1.kernelGsBase = cpu.gsBase ∧ cpu1.gs sym.mach sym.userRspOffset = cpu.reg .rsp ∧
      ∀ base offset, (base ≠ sym.mach ∨ offset ≠ sym.userRspOffset) → cpu1.gs base offset = cpu.gs base offset := by
  obtain ⟨gs1,hgs1⟩ : ∃ gs1, gs1 = Function.update cpu.gs sym.mach
    (Function.update (cpu.gs sym.mach) sym.userRspOffset (cpu.reg .rsp)) := ⟨_,rfl⟩
  have hother : ∀ base offset, (base ≠ sym.mach ∨ offset ≠ sym.userRspOffset) → gs1 base offset = cpu.gs base offset := by
    intro base offset hne
    rw [hgs1]
    by_cases hb : base = sym.mach
    · rw [hb, Function.update_self, Function.update_of_ne (hne.resolve_left (not_not.mpr hb))]
    · rw [Function.update_of_ne hb]
  have huser : gs1 sym.mach sym.userRspOffset = cpu.reg .rsp := by
    rw [hgs1, Function.update_self, Function.update_self]
  have hkernel : gs1 sym.mach sym.kernelRspOffset = stack := by
    rw [hother _ _ (Or.inr sym.offsets), hstack]
  have hput : Cpu.write { cpu with gsBase := sym.mach, kernelGsBase := cpu.gsBase } (.gs sym.userRspOffset) (cpu.reg .rsp) =
      some { cpu with gsBase := sym.mach, kernelGsBase := cpu.gsBase, gs := gs1 } := by
    rw [hgs1]
    rfl
  have htake : Cpu.read { cpu with gsBase := sym.mach, kernelGsBase := cpu.gsBase, gs := gs1 } (.gs sym.kernelRspOffset) =
      some stack := congrArg some hkernel
  refine ⟨Cpu.set { cpu with gsBase := sym.mach, kernelGsBase := cpu.gsBase, gs := gs1 } .rsp stack,?_,
    fun r hr => Cpu.set_reg_ne hr,Cpu.set_reg_self,rfl,rfl,rfl,rfl,huser,hother⟩
  change run 0 (.mov (.gs sym.userRspOffset) (.reg .rsp)::.mov (.reg .rsp) (.gs sym.kernelRspOffset)::code)
    { cpu with gsBase := cpu.kernelGsBase, kernelGsBase := cpu.gsBase } = _
  rw [hbase, run_mov rfl hput, run_mov htake rfl]

/-- The stub of system calls saves the context in a frame on the kernel stack of the thread. -/
lemma syscalled_ok (hbase : cpu.kernelGsBase = sym.mach) (hstack : cpu.gs sym.mach sym.kernelRspOffset = stack)
    (h8 : 8 ∣ stack) (hroom : 184 ≤ stack) : ∃ cpu', syscalled sym cpu = some cpu' ∧
      Entered cpu (stack - TRAP_FRAME_SIZE) sym.syscallHandler sym.syscallHandlerReturn
        (trapFrame (syscallContext cpu.toContext) SYSCALL_SENTINEL_INT_NUM 0) cpu' ∧
      cpu'.gsBase = sym.mach ∧ cpu'.kernelGsBase = cpu.gsBase ∧
      ∀ base offset, (base ≠ sym.mach ∨ offset ≠ sym.userRspOffset) → cpu'.gs base offset = cpu.gs base offset := by
  obtain ⟨cpu0,h0⟩ : ∃ cpu0, cpu0 = cpu.syscall sym.syscallEntry INTERRUPT_FLAG KERNEL_CODE_SELECTOR KERNEL_DATA_SELECTOR :=
    ⟨_,rfl⟩
  have hreg0 : cpu0.reg = (syscallContext cpu.toContext).reg := by rw [h0]; rfl
  have hrsp0 : cpu0.reg .rsp = cpu.reg .rsp := by rw [h0]; rfl
  have hcs0 : cpu0.cs = KERNEL_CODE_SELECTOR := by
    rw [h0]
    rfl
  obtain ⟨hmem0,hgs0,hbase0,hkbase0⟩ :
      cpu0.mem = cpu.mem ∧ cpu0.gs = cpu.gs ∧ cpu0.gsBase = cpu.gsBase ∧ cpu0.kernelGsBase = sym.mach := by
    rw [h0, ← hbase]
    exact ⟨rfl,rfl,rfl,rfl⟩
  have hstack0 : cpu0.gs sym.mach sym.kernelRspOffset = stack := by rw [hgs0, hstack]
  obtain ⟨cpu1,hrun1,hreg1,hrsp1,hcs1,hmem1,hbase1,hkbase1,huser1,hgs1⟩ := run_takeStack
    ((syscallOperands sym cpu.toContext).map (fun o => .push o.1) ++ saveAndCall sym.syscallHandler sym.syscallHandlerReturn)
    hkbase0 hstack0
  -- the words that an interrupt would have saved
  obtain ⟨ws,hws⟩ : ∃ ws, ws = (syscallOperands sym cpu.toContext).map Prod.snd := ⟨_,rfl⟩
  have hlen : ws.length = 7 := by rw [hws]; rfl
  have hregs1 : ∀ r, r ≠ .rsp → cpu1.reg r = (syscallContext cpu.toContext).reg r := fun r hr => by rw [hreg1 r hr, hreg0]
  have hread : ∀ o ∈ syscallOperands sym cpu.toContext, ∀ ws, (cpu1.pushList ws).read o.1 = some o.2 := by
    intro o ho ws
    obtain ⟨hreg,_,_,_,_,hgb,_,hgs⟩ := @Cpu.pushList_same cpu1 ws
    have huser : (cpu1.pushList ws).read (.gs sym.userRspOffset) = some (cpu.reg .rsp) := by
      rw [Cpu.read, hgs, hgb, hbase1, huser1, hrsp0]
    have hr11 : (cpu1.pushList ws).read (.reg .r11) = some cpu.rflags := by
      rw [Cpu.read, hreg _ (by decide), hregs1 _ (by decide)]
      rfl
    have hrcx : (cpu1.pushList ws).read (.reg .rcx) = some cpu.rip := by
      rw [Cpu.read, hreg _ (by decide), hregs1 _ (by decide)]
      rfl
    simp only [syscallOperands, List.mem_cons, List.not_mem_nil, or_false] at ho
    rcases ho with rfl | rfl | rfl | rfl | rfl | rfl | rfl
    · rfl
    · exact huser
    · exact hr11
    · rfl
    · exact hrcx
    · rfl
    · rfl
  have hrun2 := run_pushAll (syscallOperands sym cpu.toContext) (saveAndCall sym.syscallHandler sym.syscallHandlerReturn)
    (by rw [hrsp1]; exact h8) (by rw [hrsp1]; change 56 ≤ stack; omega) hread
  rw [← hws] at hrun2
  obtain ⟨hsame,_,_,hcs2,_,hbase2,hkbase2,hgs2⟩ := @Cpu.pushList_same cpu1 ws
  have hmem2 := @Cpu.holds_pushList cpu1 ws (by rw [hrsp1, hlen]; omega)
  have hout2 : ∀ a, a < stack - 56 ∨ stack ≤ a → (cpu1.pushList ws).mem a = cpu1.mem a := fun a ha =>
    Cpu.pushList_mem (by rw [hlen, hrsp1]; omega) (by rw [hlen, hrsp1]; omega)
  have hrsp2 : (cpu1.pushList ws).reg .rsp = stack - 56 := by rw [Cpu.pushList_rsp, hrsp1, hlen]
  rw [hrsp1, hlen] at hmem2
  generalize cpu1.pushList ws = cpu2 at *
  obtain ⟨cpu3,hrun3,hrip3,hcs3,hrdi3,hrsp3,hframe3,hout3,hbase3,hkbase3,hgs3⟩ :=
    run_saveAndCall sym.syscallHandler sym.syscallHandlerReturn (by rw [hrsp2]; exact Nat.dvd_sub h8 (by decide))
      (by rw [hrsp2]; omega) (by rw [hrsp2]; exact hmem2)
  have hregs : trapRegs.map cpu2.reg = trapRegs.map (syscallContext cpu.toContext).reg := by
    refine List.map_congr_left fun r hr => ?_
    have hne : r ≠ .rsp := fun he => rsp_not_mem.1 (he ▸ hr)
    rw [hsame r hne, hregs1 r hne]
  rw [hregs, hws, hrsp2] at hframe3
  rw [hrsp2] at hrdi3 hrsp3 hout3
  have hf : stack - 56 - 128 = stack - TRAP_FRAME_SIZE - 8 := by
    unfold TRAP_FRAME_SIZE
    omega
  rw [hf] at hframe3 hrsp3
  refine ⟨cpu3,?_,⟨hrip3,?_,?_,hrsp3,hframe3,fun a ha => ?_⟩,?_,?_,fun base offset hne => ?_⟩
  · rw [syscalled, ← h0]
    exact hrun1.trans (hrun2.trans hrun3)
  · rw [hcs3, hcs2, hcs1, hcs0]
  · rw [hrdi3]
    unfold TRAP_FRAME_SIZE
    omega
  · unfold TRAP_FRAME_SIZE at ha
    rw [hout3 a (by omega), hout2 a (by omega), hmem1, hmem0]
  · rw [hbase3, hbase2, hbase1]
  · rw [hkbase3, hkbase2, hkbase1, hbase0]
  · rw [hgs3, hgs2, hgs1 base offset hne, hgs0]

/-- The stub of system calls restores the registers from the frame, and the program goes on behind its `syscall`. -/
lemma syscallReturn_ok (h8 : 8 ∣ f) (hf : 8 ≤ f) (hrsp : cpu.reg .rsp = f - 8)
    (hframe : Holds cpu.mem (f-8) (sym.syscallHandlerReturn::trapFrame ctx n e)) : ∃ cpu',
    syscallReturn sym cpu = some cpu' ∧
      cpu'.toContext = ⟨ctx.reg,ctx.reg .rcx,ctx.reg .r11,USER_CODE_SELECTOR,USER_DATA_SELECTOR⟩ ∧
      cpu'.mem = cpu.mem ∧ cpu'.gs = cpu.gs ∧ cpu'.gsBase = cpu.kernelGsBase ∧ cpu'.kernelGsBase = cpu.gsBase := by
  obtain ⟨hback,hframe⟩ := hframe
  have hnext : f - 8 + 8 = f := by omega
  rw [hnext] at hframe
  obtain ⟨cpu0,hret,hrip0,hrsp0,hmem0,hgs0,hbase0,hkbase0⟩ := run_back h8 hf hrsp hback
  obtain ⟨hregs,hrest⟩ := holds_append.mp hframe
  obtain ⟨cpu1,h1⟩ : ∃ cpu1 : Cpu, cpu1 = { cpu0 with rflags := clearBits cpu0.rflags INTERRUPT_FLAG } := ⟨_,rfl⟩
  have hrsp1 : cpu1.reg .rsp = f := by
    rw [h1]
    exact hrsp0
  obtain ⟨hmem1,hgs1,hbase1,hkbase1⟩ :
      cpu1.mem = cpu.mem ∧ cpu1.gs = cpu.gs ∧ cpu1.gsBase = cpu.gsBase ∧ cpu1.kernelGsBase = cpu.kernelGsBase := by
    rw [h1]
    exact ⟨hmem0,hgs0,hbase0,hkbase0⟩
  have hregs1 : Holds cpu1.mem (cpu1.reg .rsp) (trapRegs.map ctx.reg) := by
    rw [hmem1, hrsp1]
    exact hregs
  obtain ⟨cpu2,hrun2,hreg2,hrsp2,_,_,hmem2,hbase2,hkbase2,hgs2⟩ := run_restore ctx
    [.mov (.reg .rsp) (.mem .rsp (8*5)),.swapgs,.sysretq USER_CODE_SELECTOR USER_DATA_SELECTOR]
    (by rw [hrsp1]; exact h8) hregs1
  rw [hrsp1] at hrsp2
  have hread : cpu2.read (.mem .rsp (8*5)) = some (ctx.reg .rsp) := by
    have hdvd : 8 ∣ cpu2.reg .rsp + 8*5 := by
      rw [hrsp2]
      exact (h8.add (by decide)).add (by decide)
    have hword : cpu2.mem (cpu2.reg .rsp + 8*5) = ctx.reg .rsp := by
      rw [hmem2, hmem1, hrsp2]
      exact hrest.2.2.2.2.2.1
    rw [Cpu.read, Cpu.load, if_pos hdvd, hword]
  obtain ⟨cpu3,h3⟩ : ∃ cpu3, cpu3 = cpu2.set .rsp (ctx.reg .rsp) := ⟨_,rfl⟩
  have hreg3 : cpu3.reg = ctx.reg := by
    funext r
    by_cases hr : r = .rsp
    · rw [h3, hr, Cpu.set_reg_self]
    · rw [h3, Cpu.set_reg_ne hr, hreg2 r hr]
  obtain ⟨hmem3,hgs3,hbase3,hkbase3⟩ : cpu3.mem = cpu2.mem ∧ cpu3.gs = cpu2.gs ∧ cpu3.gsBase = cpu2.gsBase ∧
      cpu3.kernelGsBase = cpu2.kernelGsBase := by
    rw [h3]
    exact ⟨rfl,rfl,rfl,rfl⟩
  refine ⟨{ cpu3 with
    gsBase := cpu3.kernelGsBase
    kernelGsBase := cpu3.gsBase
    rip := cpu3.reg .rcx
    rflags := cpu3.reg .r11
    cs := USER_CODE_SELECTOR
    ss := USER_DATA_SELECTOR },?_,?_,?_,?_,?_,?_⟩
  · rw [syscallReturn, hret]
    simp only [bind, Option.bind]
    rw [if_pos hrip0]
    have hcode : syscallExit = .cli::(restore ++
      [.mov (.reg .rsp) (.mem .rsp (8*5)),.swapgs,.sysretq USER_CODE_SELECTOR USER_DATA_SELECTOR]) := rfl
    have hmov : cpu2.write (.reg .rsp) (ctx.reg .rsp) = some cpu3 := by rw [h3]; rfl
    rw [hcode, run_cli, ← h1, hrun2, run_mov hread hmov]
    rfl
  · rw [hreg3]
  · exact hmem3.trans (hmem2.trans hmem1)
  · exact hgs3.trans (hgs2.trans hgs1)
  · exact hkbase3.trans (hkbase2.trans hkbase1)
  · exact hbase3.trans (hbase2.trans hbase1)

end Syscalls

/-- The registers that a function must preserve, as `switch` saves them. -/
structure SwitchFrame where
  rbx : ℕ
  rbp : ℕ
  r12 : ℕ
  r13 : ℕ
  r14 : ℕ
  r15 : ℕ
  rip : ℕ
  rsp : ℕ

namespace SwitchFrame

def words (self : SwitchFrame) : List ℕ :=
  [self.rbx,self.rbp,self.r12,self.r13,self.r14,self.r15,self.rip,self.rsp]

/-- What `switch` saves of its caller. -/
def ofCaller (cpu : Cpu) : SwitchFrame :=
  ⟨cpu.reg .rbx,cpu.reg .rbp,cpu.reg .r12,cpu.reg .r13,cpu.reg .r14,cpu.reg .r15,cpu.mem (cpu.reg .rsp),cpu.reg .rsp + 8⟩

/-- The processor is where the frame says. -/
structure Resumed (frame : SwitchFrame) (cpu : Cpu) : Prop where
  rbx : cpu.reg .rbx = frame.rbx
  rbp : cpu.reg .rbp = frame.rbp
  r12 : cpu.reg .r12 = frame.r12
  r13 : cpu.reg .r13 = frame.r13
  r14 : cpu.reg .r14 = frame.r14
  r15 : cpu.reg .r15 = frame.r15
  rip : cpu.rip = frame.rip
  rsp : cpu.reg .rsp = frame.rsp

end SwitchFrame

/-- the size of a `SwitchFrame` -/
def SWITCH_FRAME_SIZE : ℕ := 64

/-- the registers in the order of the fields -/
def switchRegs : List Reg := [.rbx,.rbp,.r12,.r13,.r14,.r15]

lemma switch_eq : switch = .mov (.reg .rax) (.reg .rdx)::(storeFields .rdi 0 switchRegs ++
    (.pop (.mem .rdi (8*6))::.mov (.mem .rdi (8*7)) (.reg .rsp)::(loadFields .rsi 0 switchRegs ++
      [.mov (.reg .rsp) (.mem .rsi (8*7)),.push (.mem .rsi (8*6)),.ret]))) := rfl

section Switch
variable {cur next : ℕ} {frame : SwitchFrame}

/-- The first half of `switch`. -/
lemma run_saveCaller (code : List Instr) (hcur : cpu.reg .rdi = cur) (h8 : 8 ∣ cpu.reg .rsp) (hcur8 : 8 ∣ cur)
    (hback : cpu.reg .rsp < cur ∨ cur + SWITCH_FRAME_SIZE ≤ cpu.reg .rsp) :
    run 0 (.mov (.reg .rax) (.reg .rdx)::(storeFields .rdi 0 switchRegs ++
      (.pop (.mem .rdi (8*6))::.mov (.mem .rdi (8*7)) (.reg .rsp)::code))) cpu =
    run 0 code { (cpu.set .rax (cpu.reg .rdx)).set .rsp (cpu.reg .rsp + 8) with
      mem := writeWords cpu.mem cur (SwitchFrame.ofCaller cpu).words } := by
  obtain ⟨cpu1,h1⟩ : ∃ cpu1, cpu1 = cpu.set .rax (cpu.reg .rdx) := ⟨_,rfl⟩
  have hmov : cpu.write (.reg .rax) (cpu.reg .rdx) = some cpu1 := by rw [h1]; rfl
  have hreg1 : ∀ r, r ≠ .rax → cpu1.reg r = cpu.reg r := fun r hr => by rw [h1, Cpu.set_reg_ne hr]
  have hrdi1 : cpu1.reg .rdi = cur := by rw [hreg1 _ (by decide), hcur]
  have hrsp1 : cpu1.reg .rsp = cpu.reg .rsp := hreg1 _ (by decide)
  have hregs : switchRegs.map cpu1.reg = switchRegs.map cpu.reg :=
    List.map_congr_left fun r hr => hreg1 r fun he => by
      have hnot : Reg.rax ∉ switchRegs := by decide
      exact hnot (he ▸ hr)
  have hstart : cpu1.reg .rdi + 8*0 = cur := by rw [hrdi1, mul_zero, add_zero]
  rw [run_mov rfl hmov, run_storeFields _ _ (by rw [hrdi1]; exact hcur8), hregs, hstart]
  -- the return address
  have hword : writeWords cpu1.mem cur (switchRegs.map cpu.reg) (cpu.reg .rsp) = cpu.mem (cpu.reg .rsp) := by
    rw [writeWords_outside, h1]
    · rfl
    · unfold SWITCH_FRAME_SIZE at hback
      change _ ∨ cur + 48 ≤ _
      omega
  obtain ⟨mem2,hmem2⟩ : ∃ mem2, mem2 = writeWords cpu1.mem cur (switchRegs.map cpu.reg) := ⟨_,rfl⟩
  rw [← hmem2] at hword ⊢
  have h48 : 8 ∣ cur + 8*6 := hcur8.add (by decide)
  have h56 : 8 ∣ cur + 8*7 := hcur8.add (by decide)
  obtain ⟨cpu2,h2⟩ : ∃ cpu2 : Cpu, cpu2 = { cpu1 with mem := mem2 } := ⟨_,rfl⟩
  have hrsp2 : cpu2.reg .rsp = cpu.reg .rsp := by rw [h2, ← hrsp1]
  have hpop : (cpu2.set .rsp (cpu2.reg .rsp + 8)).write (.mem .rdi (8*6)) (cpu2.mem (cpu2.reg .rsp)) =
      some { cpu2.set .rsp (cpu.reg .rsp + 8) with mem := Function.update mem2 (cur + 8*6) (cpu.mem (cpu.reg .rsp)) } := by
    have hrdi : (cpu2.set .rsp (cpu2.reg .rsp + 8)).reg .rdi = cur := by
      rw [Cpu.set_reg_ne (by decide), h2, ← hrdi1]
    have hval : cpu2.mem (cpu2.reg .rsp) = cpu.mem (cpu.reg .rsp) := by rw [hrsp2, ← hword, h2]
    rw [Cpu.write, Cpu.store, hrdi, if_pos h48, hval, hrsp2, h2]
    rfl
  rw [← h2, run_pop (by rw [hrsp2]; exact h8) hpop]
  -- the stack pointer
  obtain ⟨cpu3,h3⟩ : ∃ cpu3 : Cpu, cpu3 = { cpu2.set .rsp (cpu.reg .rsp + 8) with
    mem := Function.update mem2 (cur + 8*6) (cpu.mem (cpu.reg .rsp)) } := ⟨_,rfl⟩
  have hrsp3 : cpu3.read (.reg .rsp) = some (cpu.reg .rsp + 8) := by
    rw [h3]
    exact congrArg some Cpu.set_reg_self
  have hstore : cpu3.write (.mem .rdi (8*7)) (cpu.reg .rsp + 8) =
      some { cpu3 with mem := Function.update cpu3.mem (cur + 8*7) (cpu.reg .rsp + 8) } := by
    have hrdi : cpu3.reg .rdi = cur := by
      rw [h3, ← hrdi1]
      change (cpu2.set .rsp (cpu.reg .rsp + 8)).reg .rdi = _
      rw [Cpu.set_reg_ne (by decide), h2]
    rw [Cpu.write, Cpu.store, hrdi, if_pos h56]
  rw [← h3, run_mov hrsp3 hstore]
  have hwords : Function.update cpu3.mem (cur + 8*7) (cpu.reg .rsp + 8) =
      writeWords cpu.mem cur (SwitchFrame.ofCaller cpu).words := by
    have happ : (SwitchFrame.ofCaller cpu).words = switchRegs.map cpu.reg ++ [cpu.mem (cpu.reg .rsp),cpu.reg .rsp + 8] := rfl
    have hmem1 : cpu1.mem = cpu.mem := by rw [h1]; rfl
    rw [happ, writeWords_append, h3, hmem2, hmem1]
    rfl
  rw [hwords, h3, h2, h1]
  rfl

/-- The second half of `switch`. -/
lemma run_resume (hnext : cpu.reg .rsi = next) (hnext8 : 8 ∣ next) (hrsp8 : 8 ∣ frame.rsp) (hrsp : 8 ≤ frame.rsp)
    (hframe : Holds cpu.mem next frame.words) : ∃ cpu',
    run 0 (loadFields .rsi 0 switchRegs ++ [.mov (.reg .rsp) (.mem .rsi (8*7)),.push (.mem .rsi (8*6)),.ret]) cpu = some cpu' ∧
      frame.Resumed cpu' ∧ cpu'.reg .rax = cpu.reg .rax ∧ cpu'.mem = Function.update cpu.mem (frame.rsp - 8) frame.rip ∧
      cpu'.cs = cpu.cs ∧ cpu'.ss = cpu.ss ∧ cpu'.gs = cpu.gs ∧ cpu'.gsBase = cpu.gsBase ∧
      cpu'.kernelGsBase = cpu.kernelGsBase := by
  have happ : frame.words = [frame.rbx,frame.rbp,frame.r12,frame.r13,frame.r14,frame.r15] ++ [frame.rip,frame.rsp] := rfl
  rw [happ, holds_append] at hframe
  obtain ⟨hregs,hrip,hsp,_⟩ := hframe
  have hrip : cpu.mem (next + 8*6) = frame.rip := hrip
  have hsp : cpu.mem (next + 8*7) = frame.rsp := hsp
  have h48 : 8 ∣ next + 8*6 := hnext8.add (by decide)
  have h56 : 8 ∣ next + 8*7 := hnext8.add (by decide)
  have hstart : cpu.reg .rsi + 8*0 = next := by rw [hnext, mul_zero, add_zero]
  rw [run_loadFields switchRegs _ (by rw [hnext]; exact hnext8) (by decide) rfl (by rw [hstart]; exact hregs)]
  obtain ⟨cpu1,h1⟩ : ∃ cpu1 : Cpu, cpu1 = { cpu with
    reg := setAll switchRegs [frame.rbx,frame.rbp,frame.r12,frame.r13,frame.r14,frame.r15] cpu.reg } := ⟨_,rfl⟩
  have hrsi1 : cpu1.reg .rsi = next := by
    rw [h1, ← hnext]
    rfl
  have hmem1 : cpu1.mem = cpu.mem := by rw [h1]
  have hload : cpu1.read (.mem .rsi (8*7)) = some frame.rsp := by
    rw [Cpu.read, Cpu.load, hrsi1, if_pos h56, hmem1, hsp]
  obtain ⟨cpu2,h2⟩ : ∃ cpu2, cpu2 = cpu1.set .rsp frame.rsp := ⟨_,rfl⟩
  have hmov : cpu1.write (.reg .rsp) frame.rsp = some cpu2 := by
    rw [h2]
    rfl
  have hmem2 : cpu2.mem = cpu.mem := by
    rw [h2, ← hmem1]
    rfl
  have hrsp2 : cpu2.reg .rsp = frame.rsp := by rw [h2, Cpu.set_reg_self]
  have hreg2 : ∀ r, r ≠ .rsp → cpu2.reg r = cpu1.reg r := fun r hr => by rw [h2, Cpu.set_reg_ne hr]
  have hread : cpu2.read (.mem .rsi (8*6)) = some frame.rip := by
    rw [Cpu.read, Cpu.load, hreg2 _ (by decide), hrsi1, if_pos h48, hmem2, hrip]
  have hrsp3 : (cpu2.pushed frame.rip).reg .rsp = frame.rsp - 8 := by rw [Cpu.pushed_rsp, hrsp2]
  have htop : frame.rsp - 8 + 8 = frame.rsp := by omega
  rw [← h1, run_mov hload hmov, run_push (by rw [hrsp2]; exact hrsp8) (by rw [hrsp2]; exact hrsp) hread,
    run_ret (by rw [hrsp3]; exact Nat.dvd_sub hrsp8 dvd_rfl), hrsp3, htop]
  have hreg : ∀ r, r ≠ .rsp → ((cpu2.pushed frame.rip).set .rsp frame.rsp).reg r = cpu1.reg r := fun r hr => by
    rw [Cpu.set_reg_ne hr, Cpu.pushed_reg hr, hreg2 r hr]
  have hrip3 : (cpu2.pushed frame.rip).mem (frame.rsp - 8) = frame.rip := by
    rw [← hrsp2]
    exact Cpu.pushed_mem_self
  have hsame : cpu1.cs = cpu.cs ∧ cpu1.ss = cpu.ss ∧ cpu1.gs = cpu.gs ∧ cpu1.gsBase = cpu.gsBase ∧
      cpu1.kernelGsBase = cpu.kernelGsBase := by
    rw [h1]
    exact ⟨rfl,rfl,rfl,rfl,rfl⟩
  have hfields : cpu1.reg .rbx = frame.rbx ∧ cpu1.reg .rbp = frame.rbp ∧ cpu1.reg .r12 = frame.r12 ∧
      cpu1.reg .r13 = frame.r13 ∧ cpu1.reg .r14 = frame.r14 ∧ cpu1.reg .r15 = frame.r15 ∧ cpu1.reg .rax = cpu.reg .rax := by
    rw [h1]
    exact ⟨rfl,rfl,rfl,rfl,rfl,rfl,rfl⟩
  obtain ⟨hrbx,hrbp,hr12,hr13,hr14,hr15,hrax⟩ := hfields
  refine ⟨_,rfl,⟨(hreg _ (by decide)).trans hrbx,(hreg _ (by decide)).trans hrbp,(hreg _ (by decide)).trans hr12,
    (hreg _ (by decide)).trans hr13,(hreg _ (by decide)).trans hr14,(hreg _ (by decide)).trans hr15,hrip3,?_⟩,
    (hreg _ (by decide)).trans hrax,?_,?_⟩
  · change ((cpu2.pushed frame.rip).set .rsp frame.rsp).reg .rsp = _
    exact Cpu.set_reg_self
  · rw [← hmem2, ← hrsp2]
    rfl
  · obtain ⟨hcs,hss,hgs,hbase,hkbase⟩ := hsame
    rw [← hcs, ← hss, ← hgs, ← hbase, ← hkbase, h2]
    exact ⟨rfl,rfl,rfl,rfl,rfl⟩

/-- `switch` saves the caller in one frame and goes on where the other one was saved. -/
lemma switch_ok (hcur : cpu.reg .rdi = cur) (hnext : cpu.reg .rsi = next) (h8 : 8 ∣ cpu.reg .rsp) (hcur8 : 8 ∣ cur)
    (hnext8 : 8 ∣ next) (hrsp8 : 8 ∣ frame.rsp) (hrsp : 8 ≤ frame.rsp) (hframe : Holds cpu.mem next frame.words)
    (hapart : cur + SWITCH_FRAME_SIZE ≤ next ∨ next + SWITCH_FRAME_SIZE ≤ cur)
    (hstack : frame.rsp ≤ next ∨ next + SWITCH_FRAME_SIZE ≤ frame.rsp - 8)
    (hback : cpu.reg .rsp < cur ∨ cur + SWITCH_FRAME_SIZE ≤ cpu.reg .rsp) :
    ∃ cpu', run 0 switch cpu = some cpu' ∧ frame.Resumed cpu' ∧ cpu'.reg .rax = cpu.reg .rdx ∧
      cpu'.mem = Function.update (writeWords cpu.mem cur (SwitchFrame.ofCaller cpu).words) (frame.rsp - 8) frame.rip ∧
      cpu'.cs = cpu.cs ∧ cpu'.ss = cpu.ss ∧ cpu'.gs = cpu.gs ∧ cpu'.gsBase = cpu.gsBase ∧
      cpu'.kernelGsBase = cpu.kernelGsBase := by
  have hsave := run_saveCaller (loadFields .rsi 0 switchRegs ++ [.mov (.reg .rsp) (.mem .rsi (8*7)),.push (.mem .rsi (8*6)),.ret])
    hcur h8 hcur8 hback
  rw [← switch_eq] at hsave
  obtain ⟨mem1,hmem1⟩ : ∃ mem1, mem1 = writeWords cpu.mem cur (SwitchFrame.ofCaller cpu).words := ⟨_,rfl⟩
  have hlen : (SwitchFrame.ofCaller cpu).words.length = 8 := rfl
  have hframe1 : Holds mem1 next frame.words := by
    refine hframe.congr fun x hx hlt => ?_
    have hlt : x < next + 64 := hlt
    unfold SWITCH_FRAME_SIZE at hapart
    rw [hmem1, writeWords_outside (by rw [hlen]; omega)]
  rw [← hmem1] at hsave ⊢
  obtain ⟨cpu1,h1⟩ : ∃ cpu1 : Cpu, cpu1 = { (cpu.set .rax (cpu.reg .rdx)).set .rsp (cpu.reg .rsp + 8) with mem := mem1 } :=
    ⟨_,rfl⟩
  have hreg1 : ∀ r, r ≠ .rax → r ≠ .rsp → cpu1.reg r = cpu.reg r := fun r hr hr' => by
    rw [h1]
    change ((cpu.set .rax (cpu.reg .rdx)).set .rsp (cpu.reg .rsp + 8)).reg r = _
    rw [Cpu.set_reg_ne hr', Cpu.set_reg_ne hr]
  have hrsi1 : cpu1.reg .rsi = next := by rw [hreg1 _ (by decide) (by decide), hnext]
  obtain ⟨cpu2,hrun,hres,hrax,hmem2,hcs,hss,hgs,hbase,hkbase⟩ := run_resume hrsi1 hnext8 hrsp8 hrsp (by rw [h1]; exact hframe1)
  have hsame : cpu1.reg .rax = cpu.reg .rdx ∧ cpu1.mem = mem1 ∧ cpu1.cs = cpu.cs ∧ cpu1.ss = cpu.ss ∧ cpu1.gs = cpu.gs ∧
      cpu1.gsBase = cpu.gsBase ∧ cpu1.kernelGsBase = cpu.kernelGsBase := by
    rw [h1]
    refine ⟨?_,rfl,rfl,rfl,rfl,rfl,rfl⟩
    change ((cpu.set .rax (cpu.reg .rdx)).set .rsp (cpu.reg .rsp + 8)).reg .rax = _
    rw [Cpu.set_reg_ne (by decide), Cpu.set_reg_self]
  obtain ⟨hrax1,hmemeq,hcs1,hss1,hgs1,hbase1,hkbase1⟩ := hsame
  refine ⟨cpu2,?_,hres,hrax.trans hrax1,?_,hcs.trans hcs1,hss.trans hss1,hgs.trans hgs1,hbase.trans hbase1,hkbase.trans hkbase1⟩
  · rw [hsave, ← h1, hrun]
  · rw [hmem2, hmemeq]

/-- A new thread calls `thread_entry` with its function and the address of the data. -/
lemma threadEntryStub_ok (h8 : 8 ∣ cpu.reg .rsp) (hle : 8 ≤ cpu.reg .rsp) : ∃ cpu',
    run 0 (threadEntryStub sym) cpu = some cpu' ∧ cpu'.rip = sym.threadEntry ∧ cpu'.reg .rdi = cpu.reg .rbx ∧
      cpu'.reg .rsi = cpu.reg .rsp ∧ cpu'.reg .rsp = cpu.reg .rsp - 8 ∧
      cpu'.mem = Function.update cpu.mem (cpu.reg .rsp - 8) sym.threadEntryReturn ∧
      cpu'.cs = cpu.cs ∧ cpu'.ss = cpu.ss ∧ cpu'.gs = cpu.gs ∧ cpu'.gsBase = cpu.gsBase ∧
      cpu'.kernelGsBase = cpu.kernelGsBase := by
  obtain ⟨cpu1,h1⟩ : ∃ cpu1, cpu1 = (cpu.set .rdi (cpu.reg .rbx)).set .rsi (cpu.reg .rsp) := ⟨_,rfl⟩
  have hrsp1 : cpu1.reg .rsp = cpu.reg .rsp := by
    rw [h1, Cpu.set_reg_ne (by decide), Cpu.set_reg_ne (by decide)]
  have hmov : run 0 (threadEntryStub sym) cpu = run 0 [.call sym.threadEntry sym.threadEntryReturn] cpu1 := by
    have hread : (cpu.set .rdi (cpu.reg .rbx)).read (.reg .rsp) = some (cpu.reg .rsp) :=
      congrArg some (Cpu.set_reg_ne (by decide))
    rw [threadEntryStub, run_mov rfl rfl, run_mov hread rfl, h1]
  refine ⟨{ cpu1.pushed sym.threadEntryReturn with rip := sym.threadEntry },?_,rfl,?_,?_,?_,?_,?_⟩
  · rw [hmov, run_call (by rw [hrsp1]; exact h8) (by rw [hrsp1]; exact hle)]
    rfl
  · change (cpu1.pushed sym.threadEntryReturn).reg .rdi = _
    rw [Cpu.pushed_reg (by decide), h1, Cpu.set_reg_ne (by decide), Cpu.set_reg_self]
  · change (cpu1.pushed sym.threadEntryReturn).reg .rsi = _
    rw [Cpu.pushed_reg (by decide), h1, Cpu.set_reg_self]
  · change (cpu1.pushed sym.threadEntryReturn).reg .rsp = _
    rw [Cpu.pushed_rsp, hrsp1]
  · rw [← hrsp1, h1]
    rfl
  · rw [h1]
    exact ⟨rfl,rfl,rfl,rfl,rfl⟩

end Switch

section Launch
variable {dsSel cs entry : ℕ}

/-- `launch` goes to user mode, and puts the base of `gs` aside for the next entry. -/
lemma launch_ok (h8 : 8 ∣ cpu.reg .rsp) (hle : 40 ≤ cpu.reg .rsp) : ∃ cpu',
    run 0 (launch dsSel cs stack entry) cpu = some cpu' ∧ cpu'.rip = entry ∧ cpu'.cs = cs ∧ cpu'.ss = dsSel ∧
      cpu'.rflags = 0x200 ∧ cpu'.reg .rsp = stack ∧ cpu'.gsBase = cpu.kernelGsBase ∧ cpu'.kernelGsBase = cpu.gsBase ∧
      cpu'.gs = cpu.gs ∧ ∀ a, a < cpu.reg .rsp - 40 ∨ cpu.reg .rsp ≤ a → cpu'.mem a = cpu.mem a := by
  obtain ⟨ops,hops⟩ : ∃ ops : List (Operand × ℕ), ops =
    [(.imm dsSel,dsSel),(.imm stack,stack),(.imm 0x200,0x200),(.imm cs,cs),(.imm entry,entry)] := ⟨_,rfl⟩
  have hread : ∀ o ∈ ops, ∀ ws, (cpu.pushList ws).read o.1 = some o.2 := by
    intro o ho ws
    simp only [hops, List.mem_cons, List.not_mem_nil, or_false] at ho
    rcases ho with rfl | rfl | rfl | rfl | rfl <;> rfl
  have hlen : (ops.map Prod.snd).length = 5 := by rw [hops]; rfl
  have hcode : launch dsSel cs stack entry = ops.map (fun o => .push o.1) ++ [.swapgs,.iretq] := by rw [hops]; rfl
  have hrun := run_pushAll ops [.swapgs,.iretq] h8 (by rw [hops]; exact hle) hread
  have hmem := @Cpu.holds_pushList cpu (ops.map Prod.snd) (by rw [hlen]; exact hle)
  have hrsp : (cpu.pushList (ops.map Prod.snd)).reg .rsp = cpu.reg .rsp - 40 := by rw [Cpu.pushList_rsp, hlen]
  have hout : ∀ a, a < cpu.reg .rsp - 40 ∨ cpu.reg .rsp ≤ a → (cpu.pushList (ops.map Prod.snd)).mem a = cpu.mem a :=
    fun a ha => Cpu.pushList_mem (by rw [hlen]; exact hle) (by rw [hlen]; exact ha)
  obtain ⟨_,_,_,_,_,hbase,hkbase,hgs⟩ := @Cpu.pushList_same cpu (ops.map Prod.snd)
  have hrev : (ops.map Prod.snd).reverse = [entry,cs,0x200,stack,dsSel] := by rw [hops]; rfl
  rw [hlen, hrev] at hmem
  generalize cpu.pushList (ops.map Prod.snd) = cpu1 at *
  obtain ⟨cpu2,h2⟩ : ∃ cpu2 : Cpu, cpu2 = { cpu1 with gsBase := cpu1.kernelGsBase, kernelGsBase := cpu1.gsBase } := ⟨_,rfl⟩
  have hrsp2 : cpu2.reg .rsp = cpu.reg .rsp - 40 := by
    rw [h2]
    exact hrsp
  have hiret : run 0 [.iretq] cpu2 = some { cpu2.set .rsp stack with rip := entry, cs := cs, rflags := 0x200, ss := dsSel } := by
    refine run_iretq (by rw [hrsp2]; exact Nat.dvd_sub h8 (by decide)) ?_
    rw [hrsp2, h2]
    exact hmem
  refine ⟨{ cpu2.set .rsp stack with rip := entry, cs := cs, rflags := 0x200, ss := dsSel },?_,rfl,rfl,rfl,rfl,?_,?_,?_,?_,
    fun a ha => ?_⟩
  · rw [hcode, hrun, ← hiret, h2]
    rfl
  · change (cpu2.set .rsp stack).reg .rsp = stack
    exact Cpu.set_reg_self
  · rw [← hkbase, h2]
    rfl
  · rw [← hbase, h2]
    rfl
  · rw [← hgs, h2]
    rfl
  · rw [← hout a ha, h2]
    rfl

end Launch

end Lilith.Machine
