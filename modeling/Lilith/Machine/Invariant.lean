import Lilith.Machine.Threads

/-! What holds of the threads in every run: the frames of a thread are on its stack, in the order of its traps, and a thread
that does not run finds its registers and its part of the stack as it left them. -/
namespace Lilith.Machine
open Theory.X86

variable {sym : Symbols} {s s' : System} {t u : Thread} {cpu : Cpu} {mem mem' : ℕ → ℕ} {traps : List Trap} {trap : Trap}
  {bottom top f n e rax a id : ℕ} {ctx : Context}

/-- Where a trap returns to: a program in user mode, which a thread has below all its traps, or kernel code on the same
stack. -/
def Trap.Returns (trap : Trap) (bottom top : ℕ) (traps : List Trap) : Prop :=
  (trap.ctx.cs = USER_CODE_SELECTOR ∧ trap.ctx.ss = USER_DATA_SELECTOR ∧ traps = []) ∨
    (∃ f ctx n e, trap = .interrupt f ctx n e) ∧ trap.ctx.cs = KERNEL_CODE_SELECTOR ∧ bottom ≤ trap.ctx.reg .rsp ∧
      trap.ctx.reg .rsp ≤ baseOf top traps

/-- The frames of the traps are on the stack. -/
def TrapsOk (sym : Symbols) (mem : ℕ → ℕ) (bottom top : ℕ) : List Trap → Prop
  | [] => True
  | trap::traps => (Holds mem (trap.frame - 8) (trap.words sym) ∧ 8 ∣ trap.frame ∧ bottom + 8 ≤ trap.frame ∧
      trap.frame + TRAP_FRAME_SIZE ≤ baseOf top traps ∧ trap.Returns bottom top traps) ∧ TrapsOk sym mem bottom top traps

/-- The running thread is in the kernel, on its part of the stack, or in user mode. -/
structure Running (sym : Symbols) (cpu : Cpu) (t : Thread) : Prop where
  traps : TrapsOk sym cpu.mem t.bottom t.top t.traps
  mode : (cpu.cs = KERNEL_CODE_SELECTOR ∧ cpu.gsBase = sym.mach ∧ t.bottom ≤ cpu.reg .rsp ∧ cpu.reg .rsp ≤ t.base) ∨
    (cpu.cs = USER_CODE_SELECTOR ∧ cpu.ss = USER_DATA_SELECTOR ∧ cpu.kernelGsBase = sym.mach ∧ t.traps = [])
  tss : (cpu.cs = USER_CODE_SELECTOR ∨ ∃ trap ∈ t.traps, trap.ctx.cs = USER_CODE_SELECTOR) →
    cpu.gs sym.mach sym.kernelRspOffset = t.top

/-- A thread that does not run. -/
structure Parked (sym : Symbols) (mem : ℕ → ℕ) (t : Thread) : Prop where
  traps : TrapsOk sym mem t.bottom t.top t.traps
  aligned : 8 ∣ t.saved.rsp
  low : t.bottom + 8 ≤ t.saved.rsp
  high : t.saved.rsp ≤ t.base
  regs : Holds mem t.place t.saved.words
  stack : ∀ a, t.saved.rsp ≤ a → a < t.top → mem a = t.image a

structure Inv (sym : Symbols) (s : System) : Prop where
  here : ∃ t, s.threads s.current = some t ∧ Running sym s.cpu t
  shape : ∀ id t, s.threads id = some t → t.Shape
  apart : ∀ i j t u, i ≠ j → s.threads i = some t → s.threads j = some u → t.Apart u
  parked : ∀ id t, id ≠ s.current → s.threads id = some t → Parked sym s.cpu.mem t

lemma words_length : (trap.words sym).length = 23 := by
  cases trap with
  | interrupt => exact congrArg Nat.succ trapFrame_length
  | syscall => exact congrArg Nat.succ trapFrame_length

lemma TrapsOk.base_le (h : TrapsOk sym mem bottom top traps) : baseOf top traps ≤ top := by
  induction traps with
  | nil => exact le_rfl
  | cons trap traps ih =>
    obtain ⟨⟨_,_,_,hle,_⟩,hrest⟩ := h
    have := ih hrest
    unfold TRAP_FRAME_SIZE at hle
    change trap.frame - 8 ≤ top
    omega

lemma TrapsOk.bottom_le (h : TrapsOk sym mem bottom top traps) (hle : bottom ≤ top) : bottom ≤ baseOf top traps := by
  cases traps with
  | nil => exact hle
  | cons trap traps =>
    obtain ⟨⟨_,_,hlow,_⟩,_⟩ := h
    change bottom ≤ trap.frame - 8
    omega

/-- The frames depend on the stack above the code that runs only. -/
lemma TrapsOk.congr (h : TrapsOk sym mem bottom top traps)
    (hmem : ∀ a, baseOf top traps ≤ a → a < top → mem' a = mem a) : TrapsOk sym mem' bottom top traps := by
  induction traps with
  | nil => trivial
  | cons trap traps ih =>
    obtain ⟨⟨hwords,h8,hlow,hle,hret⟩,hrest⟩ := h
    have htop := hrest.base_le
    change ∀ a, trap.frame - 8 ≤ a → _ at hmem
    unfold TRAP_FRAME_SIZE at hle
    refine ⟨⟨hwords.congr fun x hx hlt => hmem x hx ?_,h8,hlow,hle,hret⟩,ih hrest fun a ha => hmem a (by omega)⟩
    rw [words_length] at hlt
    omega

lemma Parked.congr (h : Parked sym mem t) (hmem : ∀ a, t.Owns a → mem' a = mem a) : Parked sym mem' t := by
  refine ⟨h.traps.congr fun a ha hlt => hmem a (Or.inl ⟨h.high.trans ha,hlt⟩),h.aligned,h.low,h.high,
    h.regs.congr fun x hx hlt => hmem x (Or.inr ⟨hx,hlt⟩),fun a ha hlt => ?_⟩
  rw [hmem a (Or.inl ⟨ha,hlt⟩), h.stack a ha hlt]

lemma Thread.Apart.symm (h : t.Apart u) : u.Apart t :=
  ⟨h.kernelStacks.symm,h.places.symm,h.right,h.left⟩

/-- What a thread owns is not on the stack of another one. -/
lemma Thread.Apart.owns (h : t.Apart u) (hlow : u.bottom ≤ u.saved.rsp) (ho : u.Owns a) : a < t.bottom ∨ t.top ≤ a := by
  have h1 := h.kernelStacks
  have h2 := h.right
  rcases ho with ⟨h3,h4⟩ | ⟨h3,h4⟩
  · omega
  · unfold SWITCH_FRAME_SIZE at h2 h4
    omega

/-- What a thread owns is not in the place of another one. -/
lemma Thread.Apart.not_inPlace (h : t.Apart u) (hlow : u.bottom ≤ u.saved.rsp) (ho : u.Owns a) : ¬ t.InPlace a := by
  have h1 := h.places
  have h2 := h.left
  unfold Thread.InPlace
  rcases ho with ⟨h3,h4⟩ | ⟨h3,h4⟩
  · omega
  · omega

namespace Inv

/-- Threads with the same stacks and places have the same shapes. -/
lemma places (h : Inv sym s) (threads : ℕ → Option Thread) (hold : ∀ id u, threads id = some u → ∃ u', s.threads id = some u' ∧
      u.bottom = u'.bottom ∧ u.top = u'.top ∧ u.place = u'.place) :
    (∀ id t, threads id = some t → t.Shape) ∧
      ∀ i j t u, i ≠ j → threads i = some t → threads j = some u → t.Apart u := by
  refine ⟨fun id u hu => ?_,fun i j u v hne hu hv => ?_⟩
  · obtain ⟨u',hu',h1,h2,h3⟩ := hold id u hu
    obtain ⟨h4,h5,h6,h7,h8⟩ := h.shape id u' hu'
    rw [← h1] at h4 h5 h8
    rw [← h2] at h5 h6 h8
    rw [← h3] at h7 h8
    exact ⟨h4,h5,h6,h7,h8⟩
  · obtain ⟨u',hu',h1,h2,h3⟩ := hold i u hu
    obtain ⟨v',hv',h4,h5,h6⟩ := hold j v hv
    obtain ⟨h7,h8,h9,h10⟩ := h.apart i j u' v' hne hu' hv'
    rw [← h1, ← h2, ← h4, ← h5] at h7
    rw [← h3, ← h6] at h8
    rw [← h3, ← h4, ← h5] at h9
    rw [← h6, ← h1, ← h2] at h10
    exact ⟨h7,h8,h9,h10⟩

/-- The running thread changes its own stack at most. -/
lemma owns_same (h : Inv sym s) (ht : s.threads s.current = some t)
    (hmem : ∀ a, a < t.bottom ∨ t.top ≤ a → mem a = s.cpu.mem a) :
    ∀ id u, id ≠ s.current → s.threads id = some u → ∀ a, u.Owns a → mem a = s.cpu.mem a := by
  intro id u hne hu a ha
  have hp := h.parked id u hne hu
  exact hmem a ((h.apart _ _ _ _ hne.symm ht hu).owns ((Nat.le_add_right _ 8).trans hp.low) ha)

/-- The running thread goes on, with other traps. -/
lemma stepped (h : Inv sym s) (ht : s.threads s.current = some t) (hrun : Running sym cpu { t with traps := traps })
    (hmem : ∀ id u, id ≠ s.current → s.threads id = some u → ∀ a, u.Owns a → cpu.mem a = s.cpu.mem a) :
    Inv sym (s.step cpu t traps) := by
  have hother : ∀ id, id ≠ s.current → (s.step cpu t traps).threads id = s.threads id := fun id hne =>
    Function.update_of_ne hne ..
  have hsame : (s.step cpu t traps).threads s.current = some { t with traps := traps } := Function.update_self ..
  -- the traps do not matter for the places in memory
  have hold : ∀ id u, (s.step cpu t traps).threads id = some u → ∃ u', s.threads id = some u' ∧
      u.bottom = u'.bottom ∧ u.top = u'.top ∧ u.place = u'.place := by
    intro id u hu
    by_cases hid : id = s.current
    · rw [hid, hsame] at hu
      obtain rfl := Option.some.inj hu
      exact ⟨t,hid ▸ ht,rfl,rfl,rfl⟩
    · rw [hother id hid] at hu
      exact ⟨u,hu,rfl,rfl,rfl⟩
  obtain ⟨hshape,hapart⟩ := h.places _ hold
  refine ⟨⟨_,hsame,hrun⟩,hshape,hapart,fun id u hne hu => ?_⟩
  rw [hother id hne] at hu
  exact (h.parked id u hne hu).congr (hmem id u hne hu)

lemma ran (h : Inv sym s) (ht : s.threads s.current = some t) (hrun : Running sym cpu t)
    (hmem : ∀ id u, id ≠ s.current → s.threads id = some u → ∀ a, u.Owns a → cpu.mem a = s.cpu.mem a) :
    Inv sym { s with cpu := cpu } :=
  ⟨⟨t,ht,hrun⟩,h.shape,h.apart,fun id u hne hu => (h.parked id u hne hu).congr (hmem id u hne hu)⟩

end Inv
end Lilith.Machine
