import Lilith.Sched.Runs
import Mathlib.Logic.Relation

/-! The current process across `sched()`. The outgoing thread saves the current process, and the
incoming thread activates the process it saved; a thread that saved none leaves the process of the
outgoing thread current. -/
namespace Lilith.Sched
open Kernel

/-- What has happened in a run: the process that was current when a thread entered `sched()` last, and
the processes that each thread has activated. -/
structure History where
  entered : ℕ → Option ℕ
  activated : ℕ → ℕ → Prop

def History.next (g : History) (k k' : Kernel) (e : Event) : History where
  entered := if k.control = .run ∧ k'.control ≠ .run then
      Function.update g.entered k.mach.currentThreadId k.mach.currentProc
    else g.entered
  activated := match e with
    | .activate p => fun id q => g.activated id q ∨ id = k.mach.currentThreadId ∧ q = p
    -- a new thread has activated nothing yet, also when its identifier was in use before
    | .spawn => fun id q => g.activated id q ∧ (k.threads.get id).isSome
    | _ => g.activated

/-- The states and histories of the runs whose events satisfy `P`. -/
inductive RunWith (P : Kernel → Event → Prop) : Kernel → History → Prop where
  | init {k : Kernel} (h : Kernel.boot.init = .ok k) : RunWith P k ⟨fun _ => none,fun _ _ => False⟩
  | step {k k' : Kernel} {g : History} (e : Event) (h : RunWith P k g) (he : k.Enabled e) (hp : P k e)
      (hs : k.step e = .ok k') : RunWith P k' (g.next k k' e)

/-- The process that should be current when the current thread leaves `sched()`. -/
def procOnReturn (k : Kernel) (g : History) : Option ℕ :=
  match k.control, (k.threads.get k.mach.currentThreadId).map SchedThread.regs with
  | .resumed _, some .entry => none
  | _, _ => g.entered k.mach.currentThreadId

/-- Threads find their process again when they leave `sched()`, and save their own processes only. -/
structure ProcsKept (k : Kernel) (g : History) : Prop where
  restored : ∀ e k', k.Enabled e → k.step e = .ok k' → k.control ≠ .run → k'.control = .run →
    k'.mach.currentProc = procOnReturn k g
  own : ∀ id t p, k.threads.get id = some t → t.proc = some p → g.activated id p

/-- `sched()` does not switch from a thread with a process to one that saved none. As no thread has saved a
process before the first such switch, this amounts to no switch at all while a process is current. -/
def CleanSwitch (k : Kernel) (e : Event) : Prop :=
  e = .pass → ∀ r c t, k.control = .sched r c → ¬ (r = .yielding ∧ k.ready = []) →
    k.threads.get (k.nextThread r).1 = some t → t.proc = none → k.mach.currentProc = none

/-- What a switch to the thread `id` does to the threads and the processes. -/
structure Switched (k k' : Kernel) (r : SchedReason) (c : Caller) (id : ℕ) (t : SchedThread) : Prop where
  other : k.mach.currentThreadId ≠ id
  current : k'.mach.currentThreadId = id
  currentProc : k'.mach.currentProc = (t.proc <|> k.mach.currentProc)
  control : ∃ a, k'.control = .resumed a
  threads : ∀ j, k'.threads.get j = if j = id then some { t with state := .running }
    else if j = k.mach.currentThreadId then some ⟨.sched r c k.frames,k.mach.currentProc,
      (outgoing k.mach.currentThreadId (k.nextThread r).2 r).1⟩
    else k.threads.get j

section
variable {k k' : Kernel} {r : SchedReason} {c : Caller} {a : DeferredAction}

lemma Inv.pass_cases (hi : Inv k) (hc : k.control = .sched r c) (hs : k.step .pass = .ok k') :
    (r = .yielding ∧ k.ready = [] ∧ k' = Sched.back k c) ∨
    ∃ t, ¬ (r = .yielding ∧ k.ready = []) ∧ k.threads.get (k.nextThread r).1 = some t ∧
      Switched k k' r c (k.nextThread r).1 t := by
  obtain ⟨k1,h1,_,hcases⟩ := hi.pass hc
  obtain rfl : k1 = k' := by simpa [Kernel.step, hc, h1] using hs
  rcases hcases with hback | ⟨t,hr,ht,hk⟩
  · exact Or.inl hback
  refine Or.inr ⟨t,hr,ht,?_⟩
  have hh := hi.irq.here
  simp only [hc] at hh
  obtain ⟨u,hu,_⟩ := thread_of_state hi.view.current_state
  have hu : k.threads.get k.mach.currentThreadId = some u := hu
  have hne : k.mach.currentThreadId ≠ (k.nextThread r).1 := fun he => by
    have h1 := hi.view.current_state
    rw [show (viewOf k).current = (k.nextThread r).1 from he, (hi.view.next hc hr).1] at h1
    simp at h1
  rw [hk, switchTo_eq hh.2.1 hh.2.2]
  exact ⟨hne,rfl,rfl,⟨_,rfl⟩,fun j => get_switchedThreads hu ht hne⟩

lemma Inv.resume_cases (hi : Inv k) (hc : k.control = .resumed a) (hs : k.step .resume = .ok k') :
    ∃ t, k.threads.get k.mach.currentThreadId = some t ∧
      ((t.regs = .entry ∧ k' = { k.leave with frames := [.body 0], control := .run }) ∨
      (∃ r c fs, t.regs = .sched r c fs ∧ k' = Sched.back { k with frames := fs } c) ∨
      ∃ c fs v, t.regs = .sched .yielding c fs ∧ (∀ j w, v.get j = some w → k.threads.get j = some w) ∧
        k' = { k with frames := fs, threads := v, control := .sched .yielding c }) := by
  obtain ⟨k1,t,h1,_,ht,hcases⟩ := hi.resume hc
  obtain rfl : k1 = k' := by simpa [Kernel.step, hc, h1] using hs
  refine ⟨t,ht,?_⟩
  rcases hcases with ⟨_,hreg,hk⟩ | ⟨r,c,fs,_,hreg,hk⟩ | ⟨id,c,fs,v,_,_,hreg,_,hget,hk⟩
  · exact Or.inl ⟨hreg,hk⟩
  · exact Or.inr (Or.inl ⟨r,c,fs,hreg,hk⟩)
  · refine Or.inr (Or.inr ⟨c,fs,v,hreg,fun j w hw => ?_,hk⟩)
    rw [hget] at hw
    split_ifs at hw
    exact hw

lemma Inv.activated_eq (hi : Inv k) (hrun : k.control = .run) {p : ℕ} (hs : k.step (.activate p) = .ok k') :
    k' = { k with mach := { k.mach with currentProc := some p } } := by
  have := activate_run (hi.run hrun).2.2 p
  simpa [Kernel.step, this] using hs.symm

end

lemma History.next_local {k k' : Kernel} {e : Event} (g : History) (he : e.isLocal = true) :
    (g.next k k' e).activated = g.activated := by
  cases e <;> first | rfl | simp [Event.isLocal] at he

structure ProcInv (k : Kernel) (g : History) : Prop where
  saved : ∀ id t p, k.threads.get id = some t → t.proc = some p → g.activated id p
  mine : ∀ p, k.mach.currentProc = some p → g.activated k.mach.currentThreadId p
  entry : ∀ id t, k.threads.get id = some t → id ≠ k.mach.currentThreadId ∨ (∃ a, k.control = .resumed a) →
    t.regs = .entry → t.proc = none
  parked : ∀ id t, k.threads.get id = some t → id ≠ k.mach.currentThreadId ∨ (∃ a, k.control = .resumed a) →
    t.regs ≠ .entry → t.proc = g.entered id
  resumed : ∀ a t, k.control = .resumed a → k.threads.get k.mach.currentThreadId = some t →
    k.mach.currentProc = t.proc
  here : ∀ r c, k.control = .sched r c → k.mach.currentProc = g.entered k.mach.currentThreadId

namespace ProcInv
variable {k k' : Kernel} {g : History} {e : Event} {r : SchedReason} {c : Caller}

/-- An event that does not spawn, activate or switch. -/
lemma frozen (h : ProcInv k g) (hf : Frozen k k') (hrun : k.control = .run) (he : e.isLocal = true) :
    ProcInv k' (g.next k k' e) := by
  have hact : (g.next k k' e).activated = g.activated := g.next_local he
  have hno : ∀ a, k'.control ≠ .resumed a := fun a ha => by simpa [hrun] using hf.control a ha
  have hent : ∀ id, id ≠ k.mach.currentThreadId → (g.next k k' e).entered id = g.entered id := fun id hid => by
    simp only [History.next]
    split_ifs
    · exact Function.update_of_ne hid _ _
    · rfl
  refine ⟨fun id t p ht hp => ?_,fun p hp => ?_,fun id t ht hpark hr => ?_,fun id t ht hpark hr => ?_,
    fun a t ha _ => absurd ha (hno a),fun r c hc => ?_⟩
  · obtain ⟨u,hu,_,hup⟩ := hf.get ht
    exact hact ▸ h.saved id u p hu (hup.trans hp)
  · rw [hact, hf.current]
    exact h.mine p (hf.currentProc ▸ hp)
  · obtain ⟨u,hu,hur,hup⟩ := hf.get ht
    have hid : id ≠ k.mach.currentThreadId := hf.current ▸ hpark.resolve_right fun hres => hres.elim hno
    exact hup ▸ h.entry id u hu (Or.inl hid) (hur.trans hr)
  · obtain ⟨u,hu,hur,hup⟩ := hf.get ht
    have hid : id ≠ k.mach.currentThreadId := hf.current ▸ hpark.resolve_right fun hres => hres.elim hno
    rw [hent id hid, ← hup]
    exact h.parked id u hu (Or.inl hid) (hur ▸ hr)
  · simp [History.next, hrun, hc, hf.current, hf.currentProc]

lemma spawn (h : ProcInv k g) (hi : Inv k) (he : k.Enabled .spawn) (hs : k.step .spawn = .ok k') :
    ProcInv k' (g.next k k' .spawn) := by
  obtain ⟨id,hnone,hm,hc,hget⟩ := hi.spawned he hs
  have hrun : k.control = .run := he.1
  have hent : (g.next k k' .spawn).entered = g.entered := by simp [History.next, hc, hrun]
  have hsome : (k.threads.get k.mach.currentThreadId).isSome := by
    obtain ⟨t,ht,_⟩ := thread_of_state hi.view.current_state
    exact Option.isSome_iff_exists.mpr ⟨t,ht⟩
  refine ⟨fun j t p ht hp => ?_,fun p hp => ?_,fun j t ht hpark hr => ?_,fun j t ht hpark hr => ?_,
    fun a t ha => by simp [hc, hrun] at ha,fun r c h' => by simp [hc, hrun] at h'⟩
  · rw [hget] at ht
    split_ifs at ht
    · cases ht
      simp at hp
    · exact ⟨h.saved j t p ht hp,by simp [ht]⟩
  · rw [hm] at hp ⊢
    exact ⟨h.mine p hp,hsome⟩
  all_goals
    rw [hget] at ht
    rw [hm, hc] at hpark
  · split_ifs at ht
    · cases ht
      rfl
    · exact h.entry j t ht hpark hr
  · split_ifs at ht
    · cases ht
      exact absurd rfl hr
    · rw [hent]
      exact h.parked j t ht hpark hr

/-- `sched()` returns: nothing changes but the control and the frames. -/
lemma leave (h : ProcInv k g) (ht : k'.threads = k.threads)
    (hcur : k'.mach.currentThreadId = k.mach.currentThreadId)
    (hproc : k'.mach.currentProc = k.mach.currentProc) (hc' : k'.control = .run)
    (he : e = .pass ∨ e = .resume) : ProcInv k' (g.next k k' e) := by
  have hent : (g.next k k' e).entered = g.entered := by simp [History.next, hc']
  have hact : (g.next k k' e).activated = g.activated := by rcases he with rfl | rfl <;> rfl
  refine ⟨?_,?_,fun j t hj hpark hr => ?_,fun j t hj hpark hr => ?_,
    fun a t ha => by simp [hc'] at ha,fun r c h' => by simp [hc'] at h'⟩
  · rw [ht, hact]
    exact h.saved
  · rw [hcur, hproc, hact]
    exact h.mine
  all_goals
    have hne : j ≠ k.mach.currentThreadId := by simpa [hcur, hc'] using hpark
    rw [ht] at hj
  · exact h.entry j t hj (Or.inl hne) hr
  · rw [hent]
    exact h.parked j t hj (Or.inl hne) hr

/-- A switch to a thread that has saved a process, or from a thread without one. -/
lemma switch {t : SchedThread} (h : ProcInv k g) (hc : k.control = .sched r c)
    (ht : k.threads.get (k.nextThread r).1 = some t) (hclean : t.proc = none → k.mach.currentProc = none)
    (hsw : Switched k k' r c (k.nextThread r).1 t) : ProcInv k' (g.next k k' .pass) := by
  have hent : (g.next k k' .pass).entered = g.entered := by simp [History.next, hc]
  have hproc : k'.mach.currentProc = t.proc := by
    rw [hsw.currentProc]
    cases hp : t.proc with
    | none => simpa [hp] using hclean hp
    | some p => simp
  have hne := hsw.other
  have hcur := hsw.current
  have hget := hsw.threads
  obtain ⟨a',ha'⟩ := hsw.control
  refine ⟨fun j w p hj hp => ?_,fun p hp => ?_,fun j w hj _ hreg => ?_,fun j w hj _ hreg => ?_,
    fun a w ha hw => ?_,fun r c h' => by simp [ha'] at h'⟩
  · rw [hget] at hj
    split_ifs at hj with h1 h2
    · cases hj
      exact h1 ▸ h.saved _ t p ht hp
    · cases hj
      exact h2 ▸ h.mine p hp
    · exact h.saved j w p hj hp
  · rw [hproc] at hp
    rw [hcur]
    exact h.saved _ t p ht hp
  · rw [hget] at hj
    split_ifs at hj with h1 h2
    · cases hj
      exact h.entry _ t ht (Or.inl (Ne.symm hne)) hreg
    · cases hj
      simp at hreg
    · exact h.entry j w hj (Or.inl h2) hreg
  · rw [hget] at hj
    rw [hent]
    split_ifs at hj with h1 h2
    · cases hj
      exact h1 ▸ h.parked _ t ht (Or.inl (Ne.symm hne)) hreg
    · cases hj
      exact h2 ▸ h.here r c hc
    · exact h.parked j w hj (Or.inl h2) hreg
  · rw [hcur, hget, if_pos rfl] at hw
    cases hw
    exact hproc

/-- A thread that has exited is removed. -/
lemma reap {t : SchedThread} {a : DeferredAction} {fs : List Frame} {v : IdSparseVec SchedThread}
    (h : ProcInv k g) (hc : k.control = .resumed a) (ht : k.threads.get k.mach.currentThreadId = some t)
    (hreg : t.regs ≠ .entry) (hv : ∀ j w, v.get j = some w → k.threads.get j = some w) :
    ProcInv { k with frames := fs, threads := v, control := .sched .yielding c }
      (g.next k { k with frames := fs, threads := v, control := .sched .yielding c } .resume) := by
  have hent : (g.next k { k with frames := fs, threads := v, control := .sched .yielding c } .resume).entered =
      g.entered := by simp [History.next, hc]
  refine ⟨fun j w p hj => h.saved j w p (hv j w hj),h.mine,
    fun j w hj _ hr => h.entry j w (hv j w hj) (Or.inr ⟨a,hc⟩) hr,fun j w hj _ hr => ?_,
    fun _ _ ha => by simp at ha,fun _ _ _ => ?_⟩
  · rw [hent]
    exact h.parked j w (hv j w hj) (Or.inr ⟨a,hc⟩) hr
  · rw [hent]
    exact (h.resumed a t hc ht).trans (h.parked _ t ht (Or.inr ⟨a,hc⟩) hreg)

/-- An event of a clean run: the invariant holds again, and a thread that leaves `sched()` has its
process back. -/
lemma step (h : ProcInv k g) (hi : Inv k) (he : k.Enabled e) (hclean : CleanSwitch k e)
    (hs : k.step e = .ok k') : ProcInv k' (g.next k k' e) := by
  by_cases hl : e.isLocal = true
  · have hrun : k.control = .run := by
      cases e <;> first | exact he.1 | exact he | simp [Event.isLocal] at hl
    exact h.frozen (step_frozen hl hs) hrun hl
  cases e with
  | spawn => exact h.spawn hi he hs
  | activate p =>
    have hrun : k.control = .run := he.1
    obtain rfl := hi.activated_eq hrun hs
    refine ⟨fun j t q hj hq => Or.inl (h.saved j t q hj hq),fun q hq => Or.inr ⟨rfl,?_⟩,h.entry,?_,
      fun a t ha => by simp [hrun] at ha,fun r c h' => by simp [hrun] at h'⟩
    · exact (Option.some.inj hq).symm
    · intro j t hj hpark hr
      simp only [History.next, hrun, ne_eq, not_true_eq_false, and_false, if_false]
      exact h.parked j t hj hpark hr
  | pass =>
    obtain ⟨r,c,hc⟩ := he
    rcases hi.pass_cases hc hs with ⟨_,_,rfl⟩ | ⟨t,hr,ht,hsw⟩
    · exact h.leave rfl rfl rfl rfl (Or.inl rfl)
    · exact h.switch hc ht (hclean rfl r c t hc hr ht) hsw
  | resume =>
    obtain ⟨a,hc⟩ := he
    obtain ⟨t,ht,⟨_,rfl⟩ | ⟨_,_,_,_,rfl⟩ | ⟨c,fs,v,hreg,hget,rfl⟩⟩ := hi.resume_cases hc hs
    · exact h.leave rfl rfl rfl rfl (Or.inr rfl)
    · exact h.leave rfl rfl rfl rfl (Or.inr rfl)
    · exact h.reap hc ht (by simp [hreg]) hget
  | _ => simp [Event.isLocal] at hl

lemma restored (h : ProcInv k g) (hi : Inv k) (he : k.Enabled e) (hs : k.step e = .ok k')
    (hc : k.control ≠ .run) (hc' : k'.control = .run) : k'.mach.currentProc = procOnReturn k g := by
  cases e with
  | pass =>
    obtain ⟨r,c,hc⟩ := he
    rcases hi.pass_cases hc hs with ⟨_,_,rfl⟩ | ⟨t,_,_,hsw⟩
    · simpa [procOnReturn, hc, Sched.back] using h.here r c hc
    · obtain ⟨a,ha⟩ := hsw.control
      simp [ha] at hc'
  | resume =>
    obtain ⟨a,hc⟩ := he
    obtain ⟨t,ht,⟨hreg,rfl⟩ | ⟨_,_,_,hreg,rfl⟩ | ⟨c,fs,v,hreg,hget,rfl⟩⟩ := hi.resume_cases hc hs
    · simpa [procOnReturn, hc, ht, hreg, Kernel.leave] using
        (h.resumed a t hc ht).trans (h.entry _ t ht (Or.inr ⟨a,hc⟩) hreg)
    · simpa [procOnReturn, hc, ht, hreg, Sched.back] using
        (h.resumed a t hc ht).trans (h.parked _ t ht (Or.inr ⟨a,hc⟩) (by simp [hreg]))
    · simp at hc'
  | pageFault => exact absurd he hc
  | _ => exact absurd he.1 hc

end ProcInv

variable {k k' : Kernel} {g : History} {e : Event} {P : Kernel → Event → Prop}

lemma RunWith.reach (h : RunWith P k g) : Reach k := by
  induction h with
  | init h => exact .init h
  | step e _ he _ hs ih => exact ih.step e he hs

/-- At the start there is the idle thread alone. -/
lemma get_start {j : ℕ} {t : SchedThread} (ht : Kernel.start.threads.get j = some t) :
    j = 0 ∧ t = ⟨.default,none,.running⟩ := by
  cases j with
  | zero => exact ⟨rfl,(Option.some.inj ht).symm⟩
  | succ j => simp [Kernel.start, IdSparseVec.get] at ht

lemma procInv_of_run (h : RunWith CleanSwitch k g) : ProcInv k g := by
  induction h with
  | init h =>
    obtain rfl : Kernel.start = _ := Except.ok.inj h
    refine ⟨fun j t p ht hp => ?_,fun p hp => ?_,fun j t ht _ hr => ?_,fun j t ht _ _ => ?_,
      fun a t ha => ?_,fun r c hc => ?_⟩
    · rw [(get_start ht).2] at hp
      simp at hp
    · simp [Kernel.start, Kernel.boot] at hp
    · rw [(get_start ht).2] at hr
      simp at hr
    · rw [(get_start ht).2]
    · simp [Kernel.start, Kernel.boot] at ha
    · simp [Kernel.start, Kernel.boot] at hc
  | step e hrun he hp hs ih => exact ih.step (inv_of_reach hrun.reach) he hp hs

/-- No thread has saved a process, and only the thread that runs has activated any. -/
structure Unswitched (k : Kernel) (g : History) : Prop where
  saved : ∀ id t, k.threads.get id = some t → t.proc = none
  activated : ∀ id p, g.activated id p → id = k.mach.currentThreadId ∧ k.mach.currentProc ≠ none

lemma Unswitched.step (h : Unswitched k g) (hi : Inv k) (he : k.Enabled e) (hclean : CleanSwitch k e)
    (hs : k.step e = .ok k') : Unswitched k' (g.next k k' e) := by
  by_cases hl : e.isLocal = true
  · have hf := step_frozen hl hs
    refine ⟨fun id t ht => ?_,fun id p hp => ?_⟩
    · obtain ⟨u,hu,_,hup⟩ := hf.get ht
      exact hup ▸ h.saved id u hu
    · rw [g.next_local hl] at hp
      rw [hf.current, hf.currentProc]
      exact h.activated id p hp
  cases e with
  | spawn =>
    obtain ⟨id,_,hm,_,hget⟩ := hi.spawned he hs
    refine ⟨fun j t ht => ?_,fun j p hp => ?_⟩
    · rw [hget] at ht
      split_ifs at ht
      · cases ht
        rfl
      · exact h.saved j t ht
    · rw [hm]
      exact h.activated j p hp.1
  | activate p =>
    obtain rfl := hi.activated_eq he.1 hs
    refine ⟨h.saved,fun id q hq => ?_⟩
    rcases hq with hq | ⟨hid,_⟩
    · exact ⟨(h.activated id q hq).1,by simp⟩
    · exact ⟨hid,by simp⟩
  | pass =>
    obtain ⟨r,c,hc⟩ := he
    rcases hi.pass_cases hc hs with ⟨_,_,rfl⟩ | ⟨t,hr,ht,hsw⟩
    · exact ⟨h.saved,h.activated⟩
    · have hnone := h.saved _ t ht
      have hproc := hclean rfl r c t hc hr ht hnone
      refine ⟨fun j w hj => ?_,fun j p hp => absurd hproc (h.activated j p hp).2⟩
      rw [hsw.threads] at hj
      split_ifs at hj
      · cases hj
        exact hnone
      · cases hj
        exact hproc
      · exact h.saved j w hj
  | resume =>
    obtain ⟨a,hc⟩ := he
    obtain ⟨t,_,⟨_,rfl⟩ | ⟨_,_,_,_,rfl⟩ | ⟨c,fs,v,_,hget,rfl⟩⟩ := hi.resume_cases hc hs
    · exact ⟨h.saved,h.activated⟩
    · exact ⟨h.saved,h.activated⟩
    · exact ⟨fun j w hj => h.saved j w (hget j w hj),h.activated⟩
  | _ => simp [Event.isLocal] at hl

lemma unswitched_of_run (h : RunWith CleanSwitch k g) : Unswitched k g := by
  induction h with
  | init h =>
    obtain rfl : Kernel.start = _ := Except.ok.inj h
    exact ⟨fun j t ht => by rw [(get_start ht).2],nofun⟩
  | step e hrun he hp hs ih => exact ih.step (inv_of_reach hrun.reach) he hp hs

/-- In a run of clean switches, the next pass is one if and only if it does not switch while a process is current. -/
lemma cleanSwitch_iff (h : RunWith CleanSwitch k g) : CleanSwitch k .pass ↔
    ∀ r c, k.control = .sched r c → ¬ (r = .yielding ∧ k.ready = []) → k.mach.currentProc = none := by
  have hi := inv_of_reach h.reach
  constructor
  · intro hclean r c hc hr
    obtain ⟨t,ht,_⟩ := thread_of_state (hi.view.next hc hr).1
    exact hclean rfl r c t hc hr ht ((unswitched_of_run h).saved _ t ht)
  · intro hnone _ r c _ hc hr _ _
    exact hnone r c hc hr

/-- An event of a run, with its history. -/
def Next (s s' : Kernel × History) : Prop :=
  ∃ e, s.1.Enabled e ∧ s.1.step e = .ok s'.1 ∧ s'.2 = s.2.next s.1 s'.1 e

lemma Next.of_step (he : k.Enabled e) (hs : k.step e = .ok k') : Next (k,g) (k',g.next k k' e) := ⟨e,he,hs,rfl⟩

lemma ProcsKept.not_of_proc {p : ℕ} (he : k.Enabled e) (hs : k.step e = .ok k') (hc : k.control ≠ .run)
    (hc' : k'.control = .run) (hp : k'.mach.currentProc = some p) (hnone : procOnReturn k g = none) :
    ¬ ProcsKept k g := fun hkept => by
  have h1 := hkept.restored e k' he hs hc hc'
  rw [hp, hnone] at h1
  cases h1

/-- After the first pass that switches from a process to a thread which saved none, the thread finds the process
when it leaves `sched()`, or saves it if it is the idle thread and switches again before. -/
lemma unclean_switch_leaks (h : RunWith CleanSwitch k g) (he : k.Enabled e) (hs : k.step e = .ok k')
    (hunclean : ¬ CleanSwitch k e) :
    ∃ s, Relation.ReflTransGen Next (k',g.next k k' e) s ∧ ¬ ProcsKept s.1 s.2 := by
  have hi := inv_of_reach h.reach
  obtain ⟨k0,hk0,hi'⟩ := hi.step he
  obtain rfl : k0 = k' := Except.ok.inj (hk0.symm.trans hs)
  simp only [CleanSwitch, not_forall] at hunclean
  obtain ⟨rfl,r,c,t,hc,hr,ht,hnone,hproc⟩ := hunclean
  obtain ⟨p,hproc⟩ := Option.ne_none_iff_exists'.mp hproc
  rcases hi.pass_cases hc hs with ⟨hy,hempty,_⟩ | ⟨t',_,ht',hsw⟩
  · exact absurd ⟨hy,hempty⟩ hr
  obtain rfl : t' = t := Option.some.inj (ht'.symm.trans ht)
  -- the process has leaked to the thread that was switched to
  have hcur : k0.mach.currentProc = some p := by rw [hsw.currentProc, hnone, hproc]; rfl
  have hnext : k0.threads.get k0.mach.currentThreadId = some { t' with state := .running } := by
    rw [hsw.current, hsw.threads, if_pos rfl]
  have hent : t'.regs ≠ .entry → (g.next k k0 .pass).entered k0.mach.currentThreadId = none := fun hreg => by
    rw [← hnone, (procInv_of_run h).parked _ t' ht (Or.inl hsw.other.symm) hreg, hsw.current]
    simp [History.next, hc]
  obtain ⟨a,ha⟩ := hsw.control
  have hresume : k0.Enabled .resume := ⟨a,ha⟩
  obtain ⟨k2,hk2,hi2⟩ := hi'.step hresume
  obtain ⟨u,hu,hcases⟩ := hi'.resume_cases ha hk2
  obtain rfl := Option.some.inj (hu.symm.trans hnext)
  rcases hcases with ⟨hreg,rfl⟩ | ⟨_,_,_,hreg,rfl⟩ | ⟨c2,fs,v,hreg,_,rfl⟩
  · refine ⟨_,.refl,ProcsKept.not_of_proc hresume hk2 (by simp [ha]) rfl hcur ?_⟩
    have hreg : t'.regs = .entry := hreg
    simp [procOnReturn, ha, hnext, hreg]
  · refine ⟨_,.refl,ProcsKept.not_of_proc hresume hk2 (by simp [ha]) rfl hcur ?_⟩
    have hreg : t'.regs = _ := hreg
    simpa [procOnReturn, ha, hnext, hreg] using hent (by simp [hreg])
  · have hreg : t'.regs = _ := hreg
    have hstep := Next.of_step (g := g.next k k0 .pass) hresume hk2
    have hpass : Kernel.Enabled { k0 with frames := fs, threads := v, control := .sched .yielding c2 } .pass := ⟨_,_,rfl⟩
    obtain ⟨k3,hk3,_⟩ := hi2.step hpass
    rcases hi2.pass_cases rfl hk3 with ⟨_,_,rfl⟩ | ⟨w,_,_,hsw'⟩
    · refine ⟨_,.single hstep,ProcsKept.not_of_proc hpass hk3 (by simp) rfl hcur ?_⟩
      simpa [procOnReturn, History.next, ha] using hent (by simp [hreg])
    · refine ⟨_,(Relation.ReflTransGen.single hstep).tail (Next.of_step hpass hk3),fun hkept => ?_⟩
      have hget := hsw'.threads k0.mach.currentThreadId
      rw [if_neg hsw'.other, if_pos rfl] at hget
      have hact : g.activated k0.mach.currentThreadId p := hkept.own _ _ p hget hcur
      exact hsw.other (((unswitched_of_run h).activated _ p hact).1.symm.trans hsw.current)

/-- In every run in which `sched()` never switches from a thread with a process to one that saved
none, threads find their process again when they leave `sched()`, new threads begin with none, and
no thread saves a process that it did not activate itself. Then a switch is of this kind if a process is
current, and the first such switch breaks it: a thread finds or saves a process that is not its own. -/
theorem procs_kept_of_clean_switches (h : RunWith CleanSwitch k g) : ProcsKept k g ∧
    (CleanSwitch k .pass ↔
      ∀ r c, k.control = .sched r c → ¬ (r = .yielding ∧ k.ready = []) → k.mach.currentProc = none) ∧
    ∀ e k', k.Enabled e → k.step e = .ok k' → ¬ CleanSwitch k e →
      ∃ s, Relation.ReflTransGen Next (k',g.next k k' e) s ∧ ¬ ProcsKept s.1 s.2 := by
  have hp := procInv_of_run h
  have hi := inv_of_reach h.reach
  refine ⟨⟨fun e k' he hs hc hc' => ?_,hp.saved⟩,cleanSwitch_iff h,fun e k' he hs hunclean => ?_⟩
  · exact hp.restored hi he hs hc hc'
  · exact unclean_switch_leaks h he hs hunclean

/-- A new thread is switched to while no process is current, and activates one. -/
theorem procs_kept_of_clean_switches_new : ∃ k g, k.mach.currentThreadId = 1 ∧ k.mach.currentProc = some 7 ∧
    ProcsKept k g := by
  have h0 : RunWith CleanSwitch Kernel.start _ := .init rfl
  have h1 := h0.step .unlock (by decide) nofun rfl
  have h2 := h1.step .spawn (by decide) nofun rfl
  have h3 := h2.step .threadYield (by decide) nofun rfl
  have h4 := h3.step .pass (by decide) (fun _ _ _ _ _ _ _ _ => rfl) rfl
  have h5 := h4.step .resume (by decide) nofun rfl
  have h6 := h5.step (.activate 7) (by decide) nofun rfl
  exact ⟨_,_,rfl,rfl,(procs_kept_of_clean_switches h6).1⟩

/-- Thread 1 activates a process and sleeps. The idle thread then has this process, though it entered
`sched()` with none. -/
theorem process_leaks_to_idle : ¬ ∀ k g, RunWith (fun _ _ => True) k g → ProcsKept k g := by
  intro hall
  have h0 : RunWith (fun _ _ => True) Kernel.start _ := .init rfl
  have h1 := h0.step .unlock (by decide) trivial rfl
  have h2 := h1.step .spawn (by decide) trivial rfl
  have h3 := h2.step .threadYield (by decide) trivial rfl
  have h4 := h3.step .pass (by decide) trivial rfl
  have h5 := h4.step .resume (by decide) trivial rfl
  have h6 := h5.step (.activate 7) (by decide) trivial rfl
  have h7 := h6.step (.threadSleep 1) (by decide) trivial rfl
  have h8 := h7.step .pass (by decide) trivial rfl
  have hlast := (hall _ _ h8).restored .resume _ (by decide) rfl (by decide) rfl
  exact absurd hlast (by decide)

end Lilith.Sched
