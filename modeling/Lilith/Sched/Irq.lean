import Lilith.Sched.Model

/-! The interrupt flag and the lock count. Outside of `sched()` the count is the number of live
guards of the running thread, and inside it is one, which is the guard of the scheduler lock. -/
namespace Lilith.Sched
open Kernel

variable {k k' : Kernel} {fs : List Frame} {c : Caller} {r : SchedReason}

/-- Interrupts are masked exactly when the lock count is not zero. -/
def Synced (k : Kernel) : Prop := k.mach.interruptFlag = true ↔ k.mach.irqLockCount = 0

/-- The frames of a thread: handlers on top of kernel code, user code or a system call, each with
the interrupt flag that fits the guards below it. -/
inductive Grounded : List Frame → Prop where
  | body (g : ℕ) : Grounded [.body g]
  | user : Grounded [.user]
  | syscall (g : ℕ) : Grounded [.syscall g,.user]
  | handler {fs : List Frame} (h : Grounded fs) (kind : Interrupt) {s : Bool} (g : ℕ)
      (c : Option Closure) (hs : s = decide (liveGuards fs = 0)) : Grounded (.handler kind s g c :: fs)

/-- The frames of a thread in `sched()`, whose one guard is that of the scheduler lock. -/
structure Suspended (c : Caller) (fs : List Frame) : Prop where
  grounded : Grounded fs
  guards : match c with
    | .thread => liveGuards fs = 0
    | .handler => ∃ kind fs', fs = .handler kind true 0 none :: fs' ∧ liveGuards fs' = 0

def SavedOk (threads : IdSparseVec SchedThread) : Prop :=
  ∀ id t, threads.get id = some t → ∀ r c fs, t.regs = .sched r c fs → Suspended c fs

/-- The invariant of the interrupt flag and the lock count. -/
structure IrqInv (k : Kernel) : Prop where
  valid : k.threads.Valid
  saved : SavedOk k.threads
  here : match k.control with
    | .run => Grounded k.frames ∧ k.mach.irqLockCount = liveGuards k.frames ∧ Synced k
    | .sched _ c => Suspended c k.frames ∧ k.mach.irqLockCount = 1 ∧ k.mach.interruptFlag = false
    | .resumed _ => k.frames = [] ∧ k.mach.irqLockCount = 1 ∧ k.mach.interruptFlag = false

@[simp] lemma liveGuards_nil : liveGuards [] = 0 := rfl
@[simp] lemma liveGuards_cons (f : Frame) (fs : List Frame) :
    liveGuards (f :: fs) = f.liveGuards + liveGuards fs := by simp [liveGuards]

lemma leave_enter (h : Synced k) : k.enter.leave = k := by
  obtain ⟨⟨a,b,n,d,e,flag⟩,threads,ready,timers,waiters,frames,control⟩ := k
  have hf : flag = true ↔ n = 0 := h
  cases n <;> cases flag <;> simp [enter, leave] at hf ⊢

/-- The kernel after `sched()` returned to its caller. -/
def back (k : Kernel) (c : Caller) : Kernel :=
  { k with
    mach := { k.mach with irqLockCount := 0, interruptFlag := true }
    frames := match c with
      | .thread => k.frames
      | .handler => k.frames.tail
    control := .run }

lemma schedReturn_eq (h : Suspended c k.frames) (hn : k.mach.irqLockCount = 1) :
    k.schedReturn c = .ok (back k c) := by
  cases c with
  | thread => simp [schedReturn, leave, back, hn]
  | handler =>
    obtain ⟨kind,fs,hfs,_⟩ := h.guards
    simp [schedReturn, finishInt, dropWithoutDisabling, hfs, hn, back, assert, bind, Except.bind, pure,
      Except.pure]

lemma back_here (h : Suspended c k.frames) :
    Grounded (back k c).frames ∧ (back k c).mach.irqLockCount = liveGuards (back k c).frames ∧
      Synced (back k c) := by
  cases c with
  | thread => exact ⟨h.grounded,h.guards.symm,by simp [Synced, back]⟩
  | handler =>
    obtain ⟨kind,fs,hfs,h0⟩ := h.guards
    have hg := h.grounded
    rw [hfs] at hg
    cases hg with
    | handler hg => exact ⟨by simpa [back, hfs] using hg,by simp [back, hfs, h0],by simp [Synced, back]⟩

/-- The kernel after the return from an interrupt without a call of `sched()`. -/
def popHandler (k : Kernel) (flag : Bool) : Kernel :=
  { k with
    mach := { k.mach with irqLockCount := k.mach.irqLockCount - 1, interruptFlag := flag }
    frames := k.frames.tail, control := .run }

lemma finishInt_eq {kind : Interrupt} (hg : Grounded k.frames)
    (hn : k.mach.irqLockCount = liveGuards k.frames) {s : Bool}
    (hfs : k.frames = .handler kind s 0 none :: fs) :
    k.finishInt = .ok (popHandler k s) ∧ s = decide (liveGuards fs = 0) := by
  rw [hfs] at hg
  cases hg with
  | handler hg _ _ _ hs =>
    have hn' : k.mach.irqLockCount - 1 = liveGuards fs := by
      rw [hn, hfs]
      simp [Frame.liveGuards]
    exact ⟨by simp [finishInt, dropWithoutDisabling, hfs, hn', hs, popHandler, assert, bind,
      Except.bind, pure, Except.pure],hs⟩

lemma inHandler_frames {kind : Interrupt} (h : k.inHandler kind = true) :
    ∃ s fs, k.frames = .handler kind s 0 none :: fs := by
  unfold inHandler at h
  split at h
  · rename_i kind' s fs heq
    obtain rfl : kind = kind' := by simpa using h
    exact ⟨s,fs,heq⟩
  · simp at h

/-- The return from an interrupt: with a call of `sched()`, or without. -/
lemma intReturn_cases {kind : Interrupt} (hg : Grounded k.frames)
    (hn : k.mach.irqLockCount = liveGuards k.frames) (hf : Synced k) (hh : k.inHandler kind = true) :
    (Suspended .handler k.frames ∧ k.mach.irqLockCount = 1 ∧ k.mach.interruptFlag = false ∧
      k.intReturn = .ok { k with
        mach := { k.mach with irqNeedResched := false }
        control := .sched .yielding .handler }) ∨
    ∃ s fs b, k.frames = .handler kind s 0 none :: fs ∧ s = decide (liveGuards fs = 0) ∧
      k.intReturn = .ok (popHandler { k with mach := { k.mach with irqNeedResched := b } } s) := by
  obtain ⟨s,fs,hfs⟩ := inHandler_frames hh
  have hfin := finishInt_eq hg hn hfs
  unfold intReturn
  split_ifs with h1 h2
  · have h0 : liveGuards fs = 0 := by
      rw [hn, hfs] at h1
      simpa [Frame.liveGuards] using h1
    have hflag : k.mach.interruptFlag = false := by
      rw [← Bool.not_eq_true]
      intro hb
      have := hf.mp hb
      omega
    refine Or.inl ⟨⟨hg,kind,fs,?_,h0⟩,h1,hflag,rfl⟩
    rw [hfs, hfin.2]
    simp [h0]
  · refine Or.inr ⟨s,fs,false,hfs,hfin.2,?_⟩
    exact (finishInt_eq (k := { k with mach := { k.mach with irqNeedResched := false } }) hg hn hfs).1
  · exact Or.inr ⟨s,fs,k.mach.irqNeedResched,hfs,hfin.2,hfin.1⟩

end Lilith.Sched
