import Mathlib.Tactic

/-! A fragment of the x86-64 processor: the instructions that the entry code of a kernel is made of. Memory is a map of the
words at aligned addresses, and the words behind the `gs` register are apart from it. What such code does not rely on is
undefined: an unaligned access, a stack pointer that wraps around. -/
namespace Lilith.Theory.X86

inductive Reg where
  | rax | rbx | rcx | rdx | rsi | rdi | rbp | rsp | r8 | r9 | r10 | r11 | r12 | r13 | r14 | r15
  deriving DecidableEq, Repr

/-- What a program sees of the processor. -/
@[ext] structure Context where
  reg : Reg → ℕ
  rip : ℕ
  rflags : ℕ
  cs : ℕ
  ss : ℕ

structure Cpu extends Context where
  gsBase : ℕ
  kernelGsBase : ℕ
  mem : ℕ → ℕ
  /-- the words at an offset from a base of `gs` -/
  gs : ℕ → ℕ → ℕ

inductive Operand where
  | reg (r : Reg)
  | imm (n : ℕ)
  | mem (base : Reg) (offset : ℕ)
  | gs (offset : ℕ)

/-- The jump `jz n` skips the next `n` instructions. A call names the address behind it, and the selectors that `sysretq`
loads are those of the `STAR` register. -/
inductive Instr where
  | push (src : Operand)
  | pop (dst : Operand)
  | mov (dst src : Operand)
  | add (dst : Reg) (n : ℕ)
  | test (dst : Operand) (n : ℕ)
  | jz (n : ℕ)
  | swapgs
  | cli
  | call (target back : ℕ)
  | ret
  | iretq
  | sysretq (cs ss : ℕ)

/-- the bits of `rflags` -/
def ZERO_FLAG : ℕ := 64
def INTERRUPT_FLAG : ℕ := 512

def clearBits (flags mask : ℕ) : ℕ := flags &&& (2^64 - 1 - mask)

/-- The flags after a `test` with the result `v`. -/
def testFlags (flags v : ℕ) : ℕ := if v = 0 then flags ||| ZERO_FLAG else clearBits flags ZERO_FLAG

namespace Cpu
variable (s : Cpu)

def set (r : Reg) (v : ℕ) : Cpu := { s with reg := Function.update s.reg r v }

def load (a : ℕ) : Option ℕ := if 8 ∣ a then some (s.mem a) else none

def store (a v : ℕ) : Option Cpu :=
  if 8 ∣ a then some { s with mem := Function.update s.mem a v } else none

def read : Operand → Option ℕ
  | .reg r => some (s.reg r)
  | .imm n => some n
  | .mem base offset => s.load (s.reg base + offset)
  | .gs offset => some (s.gs s.gsBase offset)

def write : Operand → ℕ → Option Cpu
  | .reg r, v => some (s.set r v)
  | .imm _, _ => none
  | .mem base offset, v => s.store (s.reg base + offset) v
  | .gs offset, v =>
    some { s with gs := Function.update s.gs s.gsBase (Function.update (s.gs s.gsBase) offset v) }

def pushWord (v : ℕ) : Option Cpu :=
  if 8 ≤ s.reg .rsp then (s.set .rsp (s.reg .rsp - 8)).store (s.reg .rsp - 8) v else none

def popWord : Option (ℕ × Cpu) := do
  let v ← s.load (s.reg .rsp)
  return (v,s.set .rsp (s.reg .rsp + 8))

def step : Instr → Option Cpu
  | .push src => do s.pushWord (← s.read src)
  | .pop dst => do
    let (v,s) ← s.popWord
    s.write dst v
  | .mov dst src => do s.write dst (← s.read src)
  | .add dst n => some (s.set dst (s.reg dst + n))
  | .test dst n => do
    let v ← s.read dst
    return { s with rflags := testFlags s.rflags (v &&& n) }
  | .jz _ => some s
  | .swapgs => some { s with gsBase := s.kernelGsBase, kernelGsBase := s.gsBase }
  | .cli => some { s with rflags := clearBits s.rflags INTERRUPT_FLAG }
  | .call target back => do return { ← s.pushWord back with rip := target }
  | .ret => do
    let (rip,s) ← s.popWord
    return { s with rip := rip }
  | .iretq => do
    let (rip,s) ← s.popWord
    let (cs,s) ← s.popWord
    let (rflags,s) ← s.popWord
    let (rsp,s) ← s.popWord
    let (ss,s) ← s.popWord
    return { s.set .rsp rsp with rip := rip, cs := cs, rflags := rflags, ss := ss }
  | .sysretq cs ss => some { s with rip := s.reg .rcx, rflags := s.reg .r11, cs := cs, ss := ss }

def zeroFlag : Bool := s.rflags.testBit 6

end Cpu

/-- the vectors of exceptions that push an error code -/
def errorCodeVectors : List ℕ := [8,10,11,12,13,14,17,21,29,30]

def TRAP_FLAG : ℕ := 256

/-- What an interrupt or an exception does before the code at `entry` runs. The stack is that of the kernel if a program
in user mode is interrupted. -/
def Cpu.interrupt (s : Cpu) (rsp0 cs entry vector errorCode : ℕ) : Option Cpu := do
  let user := s.cs &&& 3 ≠ 0
  let stack := (if user then rsp0 else s.reg .rsp) / 16 * 16
  let frame := [s.ss,s.reg .rsp,s.rflags,s.cs,s.rip]
  let saved ← (if vector ∈ errorCodeVectors then frame ++ [errorCode] else frame).foldlM Cpu.pushWord (s.set .rsp stack)
  return { saved with
    rip := entry
    cs := cs
    ss := if user then 0 else s.ss
    rflags := clearBits s.rflags (INTERRUPT_FLAG + TRAP_FLAG) }

/-- The instruction `syscall`, which jumps to the address in `LSTAR` and clears the flags of `SFMASK`. -/
def Cpu.syscall (s : Cpu) (lstar mask cs ss : ℕ) : Cpu :=
  { (s.set .rcx s.rip).set .r11 s.rflags with rip := lstar, rflags := clearBits s.rflags mask, cs := cs, ss := ss }

/-- Run a piece of code, of which the first instructions are skipped. -/
def run : ℕ → List Instr → Cpu → Option Cpu
  | _, [], s => some s
  | k+1, _::code, s => run k code s
  | 0, .jz n::code, s => run (if s.zeroFlag then n else 0) code s
  | 0, i::code, s => do run 0 code (← s.step i)

/-- The memory from `a` on holds the words. -/
def Holds (mem : ℕ → ℕ) : ℕ → List ℕ → Prop
  | _, [] => True
  | a, w::ws => mem a = w ∧ Holds mem (a+8) ws

section Holds
variable {mem mem' : ℕ → ℕ} {a : ℕ} {ws vs : List ℕ}

lemma holds_append : Holds mem a (ws ++ vs) ↔ Holds mem a ws ∧ Holds mem (a + 8*ws.length) vs := by
  induction ws generalizing a with
  | nil => simp [Holds]
  | cons w ws ih =>
    have hnext : a + 8 + 8*ws.length = a + 8*(w::ws).length := by
      rw [List.length_cons]
      omega
    rw [List.cons_append, Holds, Holds, ih, hnext, and_assoc]

/-- Memory that was not written still holds the words. -/
lemma Holds.congr (h : Holds mem a ws) (hmem : ∀ x, a ≤ x → x < a + 8*ws.length → mem' x = mem x) : Holds mem' a ws := by
  induction ws generalizing a with
  | nil => trivial
  | cons w ws ih =>
    rw [List.length_cons] at hmem
    obtain ⟨hw,hws⟩ := h
    refine ⟨(hmem a le_rfl (by omega)).trans hw,ih hws fun x h1 h2 => hmem x (by omega) (by omega)⟩

/-- The words at another place. -/
lemma Holds.moved {b : ℕ} (h : Holds mem a ws) (hmem : ∀ k < 8*ws.length, mem' (b+k) = mem (a+k)) : Holds mem' b ws := by
  induction ws generalizing a b with
  | nil => trivial
  | cons w ws ih =>
    rw [List.length_cons] at hmem
    obtain ⟨hw,hws⟩ := h
    refine ⟨(hmem 0 (by omega)).trans hw,ih hws fun k hk => ?_⟩
    have hk' := hmem (8+k) (by omega)
    rwa [← add_assoc, ← add_assoc] at hk'

lemma Holds.get (h : Holds mem a ws) {i : ℕ} (hi : i < ws.length) : mem (a + 8*i) = ws[i] := by
  induction ws generalizing a i with
  | nil => simp at hi
  | cons w ws ih =>
    cases i with
    | zero => exact h.1
    | succ i =>
      have hnext : a + 8*(i+1) = a + 8 + 8*i := by ring
      rw [hnext]
      exact ih h.2 (Nat.lt_of_succ_lt_succ hi)

end Holds

namespace Cpu

def pushed (s : Cpu) (v : ℕ) : Cpu :=
  { s.set .rsp (s.reg .rsp - 8) with mem := Function.update s.mem (s.reg .rsp - 8) v }

/-- Push words, the first one first. -/
def pushList (s : Cpu) (ws : List ℕ) : Cpu := ws.foldl pushed s

variable {s : Cpu} {ws : List ℕ} {v : ℕ} {r : Reg}

@[simp] lemma set_reg_self : (s.set r v).reg r = v := Function.update_self ..
lemma set_reg_ne {q : Reg} (h : q ≠ r) : (s.set r v).reg q = s.reg q := Function.update_of_ne h ..
@[simp] lemma pushed_rsp : (s.pushed v).reg .rsp = s.reg .rsp - 8 := set_reg_self
lemma pushed_reg (h : r ≠ .rsp) : (s.pushed v).reg r = s.reg r := set_reg_ne h

lemma pushed_mem_self : (s.pushed v).mem (s.reg .rsp - 8) = v := Function.update_self ..
lemma pushed_mem_ne {a : ℕ} (h : a ≠ s.reg .rsp - 8) : (s.pushed v).mem a = s.mem a := Function.update_of_ne h ..

lemma pushList_cons : s.pushList (v::ws) = (s.pushed v).pushList ws := rfl
lemma pushList_append {vs : List ℕ} : s.pushList (ws ++ vs) = (s.pushList ws).pushList vs := List.foldl_append

lemma pushList_rsp : (s.pushList ws).reg .rsp = s.reg .rsp - 8*ws.length := by
  induction ws generalizing s with
  | nil => rfl
  | cons w ws ih =>
    rw [pushList_cons, ih, pushed_rsp, List.length_cons]
    omega

/-- Pushing changes nothing but the stack and its pointer. -/
lemma pushList_same : (∀ r, r ≠ .rsp → (s.pushList ws).reg r = s.reg r) ∧ (s.pushList ws).rip = s.rip ∧
    (s.pushList ws).rflags = s.rflags ∧ (s.pushList ws).cs = s.cs ∧ (s.pushList ws).ss = s.ss ∧
    (s.pushList ws).gsBase = s.gsBase ∧ (s.pushList ws).kernelGsBase = s.kernelGsBase ∧ (s.pushList ws).gs = s.gs := by
  induction ws generalizing s with
  | nil => exact ⟨fun _ _ => rfl,rfl,rfl,rfl,rfl,rfl,rfl,rfl⟩
  | cons w ws ih =>
    obtain ⟨h1,h2⟩ := @ih (s.pushed w)
    exact ⟨fun r hr => (h1 r hr).trans (pushed_reg hr),h2⟩

/-- Pushing writes below the stack pointer. -/
lemma pushList_mem {a : ℕ} (hle : 8*ws.length ≤ s.reg .rsp) (h : a < s.reg .rsp - 8*ws.length ∨ s.reg .rsp ≤ a) :
    (s.pushList ws).mem a = s.mem a := by
  induction ws generalizing s with
  | nil => rfl
  | cons w ws ih =>
    rw [List.length_cons] at hle h
    rw [pushList_cons, ih (by rw [pushed_rsp]; omega) (by rw [pushed_rsp]; omega)]
    exact pushed_mem_ne (by omega)

/-- The words are on the stack, the last one on top. -/
lemma holds_pushList (hle : 8*ws.length ≤ s.reg .rsp) :
    Holds (s.pushList ws).mem (s.reg .rsp - 8*ws.length) ws.reverse := by
  induction ws generalizing s with
  | nil => trivial
  | cons w ws ih =>
    rw [List.length_cons] at hle
    rw [List.reverse_cons, holds_append, List.length_reverse, List.length_cons, pushList_cons]
    have hih := @ih (s.pushed w) (by rw [pushed_rsp]; omega)
    rw [pushed_rsp] at hih
    have haddr : s.reg .rsp - 8*(ws.length+1) = s.reg .rsp - 8 - 8*ws.length := by omega
    rw [haddr]
    refine ⟨hih,?_,trivial⟩
    have htop : s.reg .rsp - 8 - 8*ws.length + 8*ws.length = s.reg .rsp - 8 := by omega
    rw [htop, pushList_mem (by rw [pushed_rsp]; omega) (by rw [pushed_rsp]; omega)]
    exact pushed_mem_self

end Cpu

section Run
variable {s : Cpu} {code : List Instr}

lemma pushWord_eq {v : ℕ} (h : 8 ∣ s.reg .rsp) (hle : 8 ≤ s.reg .rsp) : s.pushWord v = some (s.pushed v) := by
  have hdvd : 8 ∣ s.reg .rsp - 8 := Nat.dvd_sub h dvd_rfl
  simp only [Cpu.pushWord, if_pos hle, Cpu.store, if_pos hdvd]
  rfl

lemma foldlM_pushWord {ws : List ℕ} (h : 8 ∣ s.reg .rsp) (hle : 8*ws.length ≤ s.reg .rsp) :
    ws.foldlM Cpu.pushWord s = some (s.pushList ws) := by
  induction ws generalizing s with
  | nil => rfl
  | cons w ws ih =>
    rw [List.length_cons] at hle
    rw [List.foldlM_cons, pushWord_eq h (by omega)]
    exact ih (by rw [Cpu.pushed_rsp]; exact Nat.dvd_sub h dvd_rfl) (by rw [Cpu.pushed_rsp]; omega)

lemma popWord_eq (h : 8 ∣ s.reg .rsp) : s.popWord = some (s.mem (s.reg .rsp),s.set .rsp (s.reg .rsp + 8)) := by
  simp only [Cpu.popWord, Cpu.load, if_pos h]
  rfl

lemma run_push {src : Operand} {v : ℕ} (h : 8 ∣ s.reg .rsp) (hle : 8 ≤ s.reg .rsp) (hv : s.read src = some v) :
    run 0 (.push src::code) s = run 0 code (s.pushed v) := by
  change (Cpu.step s _ >>= _) = _
  simp only [Cpu.step, hv, pushWord_eq h hle, bind, Option.bind]

/-- Pushing operands that do not depend on the stack. -/
lemma run_pushAll (ops : List (Operand × ℕ)) (code : List Instr) (h : 8 ∣ s.reg .rsp) (hle : 8*ops.length ≤ s.reg .rsp)
    (hread : ∀ o ∈ ops, ∀ ws, (s.pushList ws).read o.1 = some o.2) :
    run 0 (ops.map (fun o => .push o.1) ++ code) s = run 0 code (s.pushList (ops.map Prod.snd)) := by
  induction ops generalizing s with
  | nil => rfl
  | cons o ops ih =>
    rw [List.length_cons] at hle
    rw [List.map_cons, List.cons_append, run_push h (by omega) (hread o List.mem_cons_self []), List.map_cons,
      Cpu.pushList_cons]
    refine ih ?_ ?_ fun q hq ws => hread q (List.mem_cons_of_mem _ hq) (o.2::ws)
    · rw [Cpu.pushed_rsp]
      exact Nat.dvd_sub h dvd_rfl
    · rw [Cpu.pushed_rsp]
      omega

/-- Saving registers. -/
lemma run_pushRegs {rs : List Reg} (h : 8 ∣ s.reg .rsp) (hle : 8*rs.length ≤ s.reg .rsp) (hrsp : Reg.rsp ∉ rs) :
    run 0 (rs.map (fun r => .push (.reg r)) ++ code) s = run 0 code (s.pushList (rs.map s.reg)) := by
  have hall := run_pushAll (rs.map fun r => (Operand.reg r,s.reg r)) code h
    (by rw [List.length_map]; exact hle) fun o ho ws => by
      obtain ⟨r,hr,rfl⟩ := List.mem_map.mp ho
      exact congrArg some (Cpu.pushList_same.1 r fun he => hrsp (he ▸ hr))
  rw [List.map_map, List.map_map] at hall
  exact hall

/-- The registers after values were popped into some of them. -/
def setAll : List Reg → List ℕ → (Reg → ℕ) → Reg → ℕ
  | r::rs, v::vs, f => setAll rs vs (Function.update f r v)
  | _, _, f => f

lemma setAll_congr {rs : List Reg} {vs : List ℕ} {f g : Reg → ℕ} {q : Reg} (h : f q = g q) :
    setAll rs vs f q = setAll rs vs g q := by
  induction rs generalizing vs f g with
  | nil => exact h
  | cons r rs ih =>
    cases vs with
    | nil => exact h
    | cons v vs =>
      refine ih ?_
      by_cases hq : q = r
      · rw [hq, Function.update_self, Function.update_self]
      · rw [Function.update_of_ne hq, Function.update_of_ne hq, h]

/-- Restoring registers from the words on the stack. -/
lemma run_popRegs {rs : List Reg} {ws : List ℕ} (h : 8 ∣ s.reg .rsp) (hlen : ws.length = rs.length)
    (hrsp : Reg.rsp ∉ rs) (hmem : Holds s.mem (s.reg .rsp) ws) :
    run 0 (rs.map (fun r => .pop (.reg r)) ++ code) s =
      run 0 code ({ s with reg := setAll rs ws s.reg }.set .rsp (s.reg .rsp + 8*rs.length)) := by
  induction rs generalizing s ws with
  | nil =>
    have hself : s.set .rsp (s.reg .rsp) = s := by
      rw [Cpu.set, Function.update_eq_self]
    change run 0 code s = run 0 code (s.set .rsp (s.reg .rsp))
    rw [hself]
  | cons r rs ih =>
    obtain ⟨hr,hrs⟩ := not_or.mp (mt List.mem_cons.mpr hrsp)
    cases ws with
    | nil => simp at hlen
    | cons w ws =>
      obtain ⟨hw,hws⟩ := hmem
      have hstep : run 0 ((r::rs).map (fun r => Instr.pop (.reg r)) ++ code) s =
          run 0 (rs.map (fun r => .pop (.reg r)) ++ code) ((s.set .rsp (s.reg .rsp + 8)).set r w) := by
        change (Cpu.step s _ >>= _) = _
        simp only [Cpu.step, popWord_eq h, bind, Option.bind, Cpu.write, hw]
        rfl
      have hnew : ((s.set .rsp (s.reg .rsp + 8)).set r w).reg .rsp = s.reg .rsp + 8 := by
        rw [Cpu.set_reg_ne hr, Cpu.set_reg_self]
      have hlast : s.reg .rsp + 8 + 8*rs.length = s.reg .rsp + 8*(r::rs).length := by
        rw [List.length_cons]
        ring
      rw [hstep, ih (by rw [hnew]; exact h.add dvd_rfl) (Nat.succ.inj hlen) hrs (by rw [hnew]; exact hws), hnew, hlast]
      have hreg : Function.update (setAll rs ws ((s.set .rsp (s.reg .rsp + 8)).set r w).reg) .rsp (s.reg .rsp + 8*(r::rs).length) =
          Function.update (setAll (r::rs) (w::ws) s.reg) .rsp (s.reg .rsp + 8*(r::rs).length) := by
        funext q
        by_cases hq : q = .rsp
        · rw [hq, Function.update_self, Function.update_self]
        · rw [Function.update_of_ne hq, Function.update_of_ne hq]
          refine setAll_congr ?_
          by_cases hqr : q = r
          · rw [hqr, Cpu.set_reg_self, Function.update_self]
          · rw [Cpu.set_reg_ne hqr, Cpu.set_reg_ne hq, Function.update_of_ne hqr]
      simp only [Cpu.set] at hreg ⊢
      rw [hreg]

lemma run_ret (h : 8 ∣ s.reg .rsp) :
    run 0 (.ret::code) s = run 0 code { s.set .rsp (s.reg .rsp + 8) with rip := s.mem (s.reg .rsp) } := by
  change (Cpu.step s _ >>= _) = _
  simp only [Cpu.step, popWord_eq h, bind, Option.bind]
  rfl

lemma run_call {target back : ℕ} (h : 8 ∣ s.reg .rsp) (hle : 8 ≤ s.reg .rsp) :
    run 0 (.call target back::code) s = run 0 code { s.pushed back with rip := target } := by
  change (Cpu.step s _ >>= _) = _
  simp only [Cpu.step, pushWord_eq h hle, bind, Option.bind]
  rfl

lemma run_cli : run 0 (.cli::code) s = run 0 code { s with rflags := clearBits s.rflags INTERRUPT_FLAG } := rfl

lemma run_mov {dst src : Operand} {v : ℕ} {s' : Cpu} (hv : s.read src = some v) (hw : s.write dst v = some s') :
    run 0 (.mov dst src::code) s = run 0 code s' := by
  change (Cpu.step s _ >>= _) = _
  simp only [Cpu.step, hv, hw, bind, Option.bind]

lemma run_pop {dst : Operand} {s' : Cpu} (h : 8 ∣ s.reg .rsp)
    (hw : (s.set .rsp (s.reg .rsp + 8)).write dst (s.mem (s.reg .rsp)) = some s') :
    run 0 (.pop dst::code) s = run 0 code s' := by
  change (Cpu.step s _ >>= _) = _
  simp only [Cpu.step, popWord_eq h, hw, bind, Option.bind]

lemma testBit_testFlags (flags v : ℕ) : (testFlags flags v).testBit 6 = decide (v = 0) := by
  have hset : ZERO_FLAG.testBit 6 = true := by decide
  have hclear : (2^64 - 1 - ZERO_FLAG).testBit 6 = false := by decide
  unfold testFlags clearBits
  split_ifs with h
  · rw [Nat.testBit_or, hset, Bool.or_true, decide_eq_true h]
  · rw [Nat.testBit_and, hclear, Bool.and_false, decide_eq_false h]

/-- An instruction that is skipped unless bits of a word are set. -/
lemma run_ifBits {dst : Operand} {i : Instr} {mask v : ℕ} {s' : Cpu} (hv : s.read dst = some v)
    (hi : ∀ rflags, Cpu.step { s with rflags := rflags } i = some { s' with rflags := rflags })
    (hjump : ∀ s : Cpu, run 0 (i::code) s = s.step i >>= run 0 code) :
    run 0 (.test dst mask::.jz 1::i::code) s =
      run 0 code { (if v &&& mask = 0 then s else s') with rflags := testFlags s.rflags (v &&& mask) } := by
  have hflag : Cpu.zeroFlag { s with rflags := testFlags s.rflags (v &&& mask) } = decide (v &&& mask = 0) :=
    testBit_testFlags _ _
  change (Cpu.step s _ >>= _) = _
  simp only [Cpu.step, hv, bind, Option.bind, pure]
  change run (if Cpu.zeroFlag _ then 1 else 0) (i::code) _ = _
  rw [hflag]
  by_cases h : v &&& mask = 0
  · rw [decide_eq_true h, if_pos rfl, if_pos h]
    rfl
  · rw [decide_eq_false h, if_neg Bool.false_ne_true, if_neg h, hjump, hi]
    rfl

lemma set_set {r : Reg} {a b : ℕ} : (s.set r a).set r b = s.set r b := by
  simp only [Cpu.set, Function.update_idem]

lemma popWord_set {a : ℕ} (h : 8 ∣ a) : (s.set .rsp a).popWord = some (s.mem a,s.set .rsp (a+8)) := by
  rw [popWord_eq (by rw [Cpu.set_reg_self]; exact h), Cpu.set_reg_self, set_set]
  rfl

/-- The processor returns to the context in the words on the stack. -/
lemma run_iretq {rip cs rflags rsp ss : ℕ} (h : 8 ∣ s.reg .rsp)
    (hmem : Holds s.mem (s.reg .rsp) [rip,cs,rflags,rsp,ss]) :
    run 0 [.iretq] s = some { s.set .rsp rsp with rip := rip, cs := cs, rflags := rflags, ss := ss } := by
  obtain ⟨rfl,rfl,rfl,rfl,rfl,_⟩ := hmem
  have h1 : 8 ∣ s.reg .rsp + 8 := h.add dvd_rfl
  have h2 := h1.add (dvd_refl 8)
  have h3 := h2.add (dvd_refl 8)
  have h4 := h3.add (dvd_refl 8)
  change (Cpu.step s _ >>= _) = _
  simp only [Cpu.step, popWord_eq h, popWord_set h1, popWord_set h2, popWord_set h3, popWord_set h4, bind, Option.bind, set_set]
  rfl

end Run

section Fields

/-- Store registers into the words of a structure, from the word `k` on. -/
def storeFields (base : Reg) : ℕ → List Reg → List Instr
  | _, [] => []
  | k, r::rs => .mov (.mem base (8*k)) (.reg r)::storeFields base (k+1) rs

/-- Load registers from the words of a structure, from the word `k` on. -/
def loadFields (base : Reg) : ℕ → List Reg → List Instr
  | _, [] => []
  | k, r::rs => .mov (.reg r) (.mem base (8*k))::loadFields base (k+1) rs

/-- The memory after words were written from `a` on. -/
def writeWords (mem : ℕ → ℕ) : ℕ → List ℕ → ℕ → ℕ
  | _, [] => mem
  | a, w::ws => writeWords (Function.update mem a w) (a+8) ws

variable {s : Cpu} {mem : ℕ → ℕ} {a x k : ℕ} {ws : List ℕ} {base : Reg} {rs : List Reg}

lemma writeWords_outside (h : x < a ∨ a + 8*ws.length ≤ x) : writeWords mem a ws x = mem x := by
  induction ws generalizing mem a with
  | nil => rfl
  | cons w ws ih =>
    rw [List.length_cons] at h
    have hne : x ≠ a := by omega
    rw [writeWords, ih (by omega), Function.update_of_ne hne]

lemma holds_writeWords : Holds (writeWords mem a ws) a ws := by
  induction ws generalizing mem a with
  | nil => trivial
  | cons w ws ih =>
    refine ⟨?_,ih⟩
    rw [writeWords, writeWords_outside (Or.inl (by omega)), Function.update_self]

lemma writeWords_append {vs : List ℕ} :
    writeWords mem a (ws ++ vs) = writeWords (writeWords mem a ws) (a + 8*ws.length) vs := by
  induction ws generalizing mem a with
  | nil => rfl
  | cons w ws ih =>
    have hnext : a + 8 + 8*ws.length = a + 8*(w::ws).length := by
      rw [List.length_cons]
      ring
    rw [List.cons_append, writeWords, ih, hnext]
    rfl

lemma run_storeFields (rs : List Reg) (code : List Instr) (h : 8 ∣ s.reg base) :
    run 0 (storeFields base k rs ++ code) s =
      run 0 code { s with mem := writeWords s.mem (s.reg base + 8*k) (rs.map s.reg) } := by
  induction rs generalizing s k with
  | nil => rfl
  | cons r rs ih =>
    have hdvd : 8 ∣ s.reg base + 8*k := h.add (Dvd.intro _ rfl)
    have hstore : s.write (.mem base (8*k)) (s.reg r) =
        some { s with mem := Function.update s.mem (s.reg base + 8*k) (s.reg r) } := if_pos hdvd
    have hnext : s.reg base + 8*(k+1) = s.reg base + 8*k + 8 := by ring
    rw [storeFields, List.cons_append, run_mov rfl hstore]
    refine Eq.trans (ih h) ?_
    simp only [hnext]
    rfl

lemma run_loadFields (rs : List Reg) (code : List Instr) (h : 8 ∣ s.reg base) (hbase : base ∉ rs)
    (hlen : ws.length = rs.length) (hmem : Holds s.mem (s.reg base + 8*k) ws) :
    run 0 (loadFields base k rs ++ code) s = run 0 code { s with reg := setAll rs ws s.reg } := by
  induction rs generalizing s k ws with
  | nil => rfl
  | cons r rs ih =>
    obtain ⟨hr,hrs⟩ := not_or.mp (mt List.mem_cons.mpr hbase)
    cases ws with
    | nil => simp at hlen
    | cons w ws =>
      obtain ⟨hw,hws⟩ := hmem
      have hdvd : 8 ∣ s.reg base + 8*k := h.add (Dvd.intro _ rfl)
      have hload : s.read (.mem base (8*k)) = some w := by
        rw [Cpu.read, Cpu.load, if_pos hdvd, hw]
      have hnew : (s.set r w).reg base = s.reg base := Cpu.set_reg_ne hr
      have hnext : s.reg base + 8*(k+1) = s.reg base + 8*k + 8 := by ring
      rw [loadFields, List.cons_append, run_mov hload rfl]
      exact ih (by rw [hnew]; exact h) hrs (Nat.succ.inj hlen) (by rw [hnew, hnext]; exact hws)

end Fields

end Lilith.Theory.X86
