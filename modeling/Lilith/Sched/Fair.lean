import Lilith.Sched.Effects
import Lilith.Theory.Fifo

/-! The ready queue is served in the order of arrival: threads are only added at its end, and `sched()`
takes them from its front. A thread that is ready waits for those before it, and no longer. -/
namespace Lilith.Sched
open Kernel Theory

variable {k k' : Kernel} {r : SchedReason} {c : Caller} {id : ℕ} {e : Event}

/-- Other threads may have become ready. -/
def Joins (k k' : Kernel) : Prop := ∃ joined, k'.ready = k.ready ++ joined

namespace Joins

lemma of_eq (h : k'.ready = k.ready) : Joins k k' := ⟨[],by simp [h]⟩

lemma trans {k1 : Kernel} (h : Joins k k1) (h' : Joins k1 k') : Joins k k' := by
  obtain ⟨j,hj⟩ := h
  obtain ⟨j',hj'⟩ := h'
  exact ⟨j ++ j',by rw [hj', hj, List.append_assoc]⟩

/-- The ready queue is all that counts. -/
lemma of_ready {k1 : Kernel} (h : Joins k1 k') (hr : k1.ready = k.ready) : Joins k k' :=
  (Joins.of_eq hr).trans h

lemma wake (h : k.wake id = .ok k') : Joins k k' := by
  unfold Kernel.wake at h
  cases ht : k.threads.get id with
  | none => simp [ht, unwrap, bind, Except.bind] at h
  | some t =>
    by_cases hs : t.state = .waiting ∨ t.state = .sleeping
    · obtain rfl : readied k id t = k' := by
        simpa [ht, unwrap, hs, bind, Except.bind, pure, Except.pure, readied] using h
      exact ⟨[id],rfl⟩
    · simp [ht, unwrap, hs, assert, bind, Except.bind] at h

lemma wakeList {ids : List ℕ} (h : k.wakeList ids = .ok k') : Joins k k' := by
  induction ids generalizing k with
  | nil =>
    cases h
    exact .of_eq rfl
  | cons id ids ih =>
    simp only [Kernel.wakeList, bind, Except.bind] at h
    split at h
    · simp at h
    · rename_i k1 hk1
      exact (wake hk1).trans (ih h)

lemma withLock {f : Kernel → Except Fault Kernel} (h : k.withLock f = .ok k')
    (hf : ∀ k1, f k.enter = .ok k1 → Joins k.enter k1) : Joins k k' := by
  obtain ⟨k1,h1,rfl⟩ := withLock_ok h
  exact hf k1 h1

lemma spawnInner (h : k.spawnInner = .ok k') : Joins k k' := by
  unfold Kernel.spawnInner at h
  cases hi : k.threads.insert ⟨.entry,none,.ready⟩ with
  | error f => simp [hi, bind, Except.bind] at h
  | ok x =>
    simp only [hi, bind, Except.bind, pure, Except.pure, Except.ok.injEq] at h
    exact ⟨[x.1],h ▸ rfl⟩

lemma finishInt (h : k.finishInt = .ok k') : Joins k k' := by
  unfold Kernel.finishInt at h
  split at h
  · simp only [bind, Except.bind, assert] at h
    split_ifs at h
    cases h
    exact .of_eq rfl
  · simp at h

lemma intReturn (h : k.intReturn = .ok k') : Joins k k' := by
  unfold Kernel.intReturn at h
  split_ifs at h
  · cases h
    exact .of_eq rfl
  · exact (finishInt h).of_ready rfl
  · exact finishInt h

end Joins

/-- Outside of the loop of `sched()` no thread leaves the ready queue. -/
lemma Inv.joins (h : Inv k) (he : k.Enabled e) (hne : e ≠ .pass) (hs : k.step e = .ok k') : Joins k k' := by
  cases e with
  | pass => exact absurd rfl hne
  | resume =>
    obtain ⟨a,hc⟩ := he
    obtain ⟨k1,t,h1,_,_,hcases⟩ := h.resume hc
    simp only [Kernel.step, hc, h1] at hs
    cases hs
    rcases hcases with ⟨_,_,rfl⟩ | ⟨_,_,_,_,_,rfl⟩ | ⟨_,_,_,_,_,_,_,_,_,rfl⟩ <;> exact .of_eq rfl
  | spawn => exact .withLock hs fun k1 h1 => .spawnInner h1
  | wakeOne q =>
    refine .withLock hs fun k1 h1 => .withLock h1 fun k2 h2 => ?_
    cases hq : k.waiters q with
    | nil =>
      simp only [enter, hq] at h2
      cases h2
      exact .of_eq rfl
    | cons id ids =>
      simp only [enter, hq] at h2
      exact (Joins.wake h2).of_ready rfl
  | wakeAll q =>
    exact .withLock hs fun k1 h1 => .withLock h1 fun k2 h2 => (Joins.wakeList h2).of_ready rfl
  | runClosure =>
    simp only [Kernel.step] at hs
    split at hs
    · exact (Joins.withLock hs fun k1 h1 => Joins.wake h1).of_ready rfl
    · cases hs
      exact .of_eq rfl
  | timerReturn => exact (Joins.intReturn hs).of_ready rfl
  | pageFaultReturn => exact .intReturn hs
  | popClosure =>
    simp only [Kernel.step] at hs
    split at hs <;> cases hs <;> exact .of_eq rfl
  | syscall =>
    simp only [Kernel.step, bind, Except.bind, assert] at hs
    split_ifs at hs
    cases hs
    exact .of_eq rfl
  | activate p =>
    cases hs
    exact .of_eq rfl
  | _ =>
    cases hs
    exact .of_eq rfl

lemma Inv.current_eq (h : Inv k) (he : k.Enabled e) (hne : e ≠ .pass) (hs : k.step e = .ok k') :
    k'.mach.currentThreadId = k.mach.currentThreadId := by
  by_cases hl : e.isLocal = true
  · exact (step_frozen hl hs).current
  cases e with
  | pass => exact absurd rfl hne
  | resume =>
    obtain ⟨a,hc⟩ := he
    obtain ⟨k1,t,h1,_,_,hcases⟩ := h.resume hc
    simp only [Kernel.step, hc, h1] at hs
    cases hs
    rcases hcases with ⟨_,_,rfl⟩ | ⟨_,_,_,_,_,rfl⟩ | ⟨_,_,_,_,_,_,_,_,_,rfl⟩ <;> rfl
  | spawn =>
    obtain ⟨_,_,hm,_,_⟩ := h.spawned he hs
    rw [hm]
  | activate p =>
    cases hs
    rfl
  | _ => simp [Event.isLocal] at hl

/-- The thread that gets the processor in a step, if it is not the idle thread. -/
def switchedTo (t : Step Kernel Event) : Option ℕ :=
  if t.after.mach.currentThreadId = t.before.mach.currentThreadId ∨
    t.after.mach.currentThreadId = IDLE_THREAD_ID then none
  else some t.after.mach.currentThreadId

/-- The end of a timer interrupt in code that holds no lock. -/
def preempts (t : Step Kernel Event) : Bool := t.event = .timerReturn ∧ t.before.mach.irqLockCount = 1

/-- A step that can be made. -/
def Kernel.Makes (k : Kernel) (e : Event) (k' : Kernel) : Prop := k.Enabled e ∧ k.step e = .ok k'

lemma Inv.makes (h : Inv k) (hm : k.Makes e k') : Inv k' := by
  obtain ⟨k1,h1,h2⟩ := h.step hm.1
  rw [hm.2] at h1
  cases h1
  exact h2

/-- A pass through the loop of `sched()` takes the first thread of the ready queue, if there is one and
the current thread does not exit. -/
lemma Inv.pass_serves (h : Inv k) (hc : k.control = .sched r c) (hs : k.schedPass r c = .ok k') :
    (∃ j, Serves k.ready (switchedTo ⟨k,.pass,k'⟩).toList j k'.ready) ∧
      (r = .yielding → k.ready ≠ [] → (switchedTo ⟨k,.pass,k'⟩).isSome ∧ ∃ a, k'.control = .resumed a) := by
  have hh := h.irq.here
  simp only [hc] at hh
  obtain ⟨k1,h1,_,hcases⟩ := h.pass hc
  obtain rfl : k1 = k' := Except.ok.inj (h1.symm.trans hs)
  rcases hcases with ⟨_,hempty,rfl⟩ | ⟨t,hr,_,rfl⟩
  · refine ⟨⟨[],?_⟩,fun _ hne => absurd hempty hne⟩
    have hnone : switchedTo ⟨k,.pass,Sched.back k c⟩ = none := if_pos (Or.inl rfl)
    rw [hnone]
    exact List.append_nil _
  rw [switchTo_eq hh.2.1 hh.2.2]
  have hnext := (h.view.next hc hr).1
  have hne : (k.nextThread r).1 ≠ k.mach.currentThreadId := fun he => by
    have h1 := h.view.current_state
    rw [show (viewOf k).current = (k.nextThread r).1 from he.symm, hnext] at h1
    simp at h1
  have hjoin : ∃ j, (outgoing k.mach.currentThreadId (k.nextThread r).2 r).2.1 = (k.nextThread r).2 ++ j := by
    cases r
    case yielding =>
      by_cases h0 : k.mach.currentThreadId = IDLE_THREAD_ID
      · exact ⟨[],by simp [outgoing, h0]⟩
      · exact ⟨[k.mach.currentThreadId],by simp [outgoing, h0]⟩
    all_goals exact ⟨[],(List.append_nil _).symm⟩
  obtain ⟨j,hj⟩ := hjoin
  by_cases hidle : (k.nextThread r).1 = IDLE_THREAD_ID
  · -- the queue is empty, or the thread exits
    have hsame : (k.nextThread r).2 = k.ready ∧ (r = .yielding → k.ready = []) := by
      unfold nextThread at hidle ⊢
      split_ifs with hx
      · exact ⟨rfl,fun hy => by simp [hx] at hy⟩
      · cases hready : k.ready with
        | nil => exact ⟨rfl,fun _ => rfl⟩
        | cons n ids =>
          rw [if_neg hx] at hidle
          simp only [hready] at hidle
          have hmem : n ∈ (viewOf k).ready := by simp [viewOf, hready]
          exact absurd hidle ((h.view.mem_ready n).mp hmem).2
    refine ⟨⟨j,?_⟩,fun hy hne => absurd (hsame.2 hy) hne⟩
    rw [switchedTo, if_pos (Or.inr hidle)]
    exact hsame.1 ▸ hj.symm
  · have hcons : k.ready = (k.nextThread r).1 :: (k.nextThread r).2 := by
      unfold nextThread at hidle ⊢
      split_ifs at hidle ⊢ with hx
      · exact absurd rfl hidle
      · cases hready : k.ready with
        | nil => exact absurd (by simp [hready]) hidle
        | cons n ids => rfl
    rw [switchedTo, if_neg (not_or.mpr ⟨hne,hidle⟩)]
    refine ⟨⟨j,?_⟩,fun _ _ => ⟨rfl,_,rfl⟩⟩
    simp only [Option.toList_some, Serves]
    rw [hj]
    nth_rewrite 1 [hcons]
    rfl

lemma Inv.makes_serves (h : Inv k) (hm : k.Makes e k') :
    ∃ j, Serves k.ready (switchedTo ⟨k,e,k'⟩).toList j k'.ready := by
  by_cases hne : e = .pass
  · subst hne
    obtain ⟨r,c,hc⟩ := hm.1
    have hs := hm.2
    simp only [Kernel.step, hc] at hs
    exact (h.pass_serves hc hs).1
  · obtain ⟨j,hj⟩ := h.joins hm.1 hne hm.2
    rw [switchedTo, if_pos (Or.inl (h.current_eq hm.1 hne hm.2))]
    exact ⟨j,hj.symm⟩

/-- The processor is about to look for another thread, on behalf of one that stays ready. -/
def resched (k : Kernel) : ℕ :=
  match k.control with
  | .sched .yielding _ => 1
  | _ => 0

lemma resched_of_run (h : k.control = .run) : resched k = 0 := by simp [resched, h]

/-- A timer interrupt that preempts the running thread ends in `sched()`. -/
lemma preempts_resched (hm : k.Makes e k') (hp : preempts ⟨k,e,k'⟩ = true) : resched k = 0 ∧ resched k' = 1 := by
  obtain ⟨rfl,hone⟩ : e = .timerReturn ∧ k.mach.irqLockCount = 1 := by simpa [preempts] using hp
  have hs := hm.2
  simp only [Kernel.step, intReturn, leave, enter, hone, Nat.add_sub_cancel, if_true] at hs
  cases hs
  exact ⟨resched_of_run hm.1.1,rfl⟩

/-- In `sched()` nothing else can happen. -/
lemma pass_of_resched (he : k.Enabled e) (hr : resched k ≠ 0) : e = .pass ∧ ∃ c, k.control = .sched .yielding c := by
  have hc : ∃ c, k.control = .sched .yielding c := by
    unfold resched at hr
    split at hr
    · next c hc => exact ⟨c,hc⟩
    · exact absurd rfl hr
  obtain ⟨c,hc⟩ := hc
  refine ⟨?_,c,hc⟩
  cases e <;> simp [Kernel.Enabled, hc] at he ⊢

/-- While a thread waits in the ready queue, every preemption gives the processor to a thread before it. -/
lemma preemptions_le {l : List (Step Kernel Event)} {ahead behind : List ℕ} (h : Inv k)
    (hrun : Trace Makes k l k') (hq : k.ready = ahead ++ id :: behind) (hwait : id ∉ l.filterMap switchedTo) :
    (l.filter preempts).length ≤ (l.filterMap switchedTo).length + resched k' := by
  induction hrun with
  | nil => simp
  | @snoc l k1 k2 e hrun hm ih =>
    rw [List.filterMap_append, List.mem_append, not_or] at hwait
    have hle := ih hwait.1
    have hi := hrun.inv (fun _ _ _ hi hm => hi.makes hm) h
    rw [List.filter_append, List.filterMap_append, List.length_append, List.length_append]
    by_cases hp : preempts ⟨k1,e,k2⟩ = true
    · obtain ⟨h0,h1⟩ := preempts_resched hm hp
      simp only [List.filter_singleton, hp, cond_true, List.length_singleton]
      omega
    · simp only [List.filter_singleton, hp, cond_false, List.length_nil, Nat.add_zero]
      by_cases hr : resched k1 = 0
      · omega
      · obtain ⟨rfl,c,hc⟩ := pass_of_resched hm.1 hr
        have hs := hm.2
        simp only [Kernel.step, hc] at hs
        -- the waiting thread itself is in the queue
        obtain ⟨j,hserves⟩ := hrun.serves (fun _ _ _ hi hm => hi.makes hm) (fun _ _ _ hi hm => hi.makes_serves hm) h
        rw [hq] at hserves
        have hready : k1.ready ≠ [] := by
          rw [hserves.waiting hwait.1]
          simp
        obtain ⟨hsome,_⟩ := (hi.pass_serves hc hs).2 rfl hready
        obtain ⟨x,hx⟩ := Option.isSome_iff_exists.mp hsome
        have hone : resched k1 = 1 := by simp [resched, hc]
        simp only [List.filterMap_cons, hx, List.filterMap_nil, List.length_singleton]
        omega

/-- In every run a thread that is ready waits only for the threads before it in the ready queue: until it
gets the processor itself, the processor goes to these threads, in their order and to each of them once,
and otherwise to the idle thread; and all of them have had it after as many timer interrupts as there are
threads before it, if these interrupts end in code that holds no lock. -/
theorem round_robin {l : List (Step Kernel Event)} {ahead behind : List ℕ} (h : Reach k)
    (hrun : Trace Makes k l k') (hq : k.ready = ahead ++ id :: behind) :
    (id ∉ l.filterMap switchedTo → l.filterMap switchedTo <+: ahead ∧
      (∃ joined, k'.ready = ahead.drop (l.filterMap switchedTo).length ++ id :: behind ++ joined) ∧
      (l.filter preempts).length ≤ ahead.length + 1 ∧
      (k'.control = .run → (l.filter preempts).length ≤ (l.filterMap switchedTo).length)) ∧
    (ahead.length + 1 < (l.filter preempts).length → id ∈ l.filterMap switchedTo) := by
  have hi := inv_of_reach h
  have hwaiting : id ∉ l.filterMap switchedTo → l.filterMap switchedTo <+: ahead ∧
      (∃ joined, k'.ready = ahead.drop (l.filterMap switchedTo).length ++ id :: behind ++ joined) ∧
      (l.filter preempts).length ≤ ahead.length + 1 ∧
      (k'.control = .run → (l.filter preempts).length ≤ (l.filterMap switchedTo).length) := by
    intro hwait
    obtain ⟨j,hserves⟩ := hrun.serves (fun _ _ _ hi hm => hi.makes hm) (fun _ _ _ hi hm => hi.makes_serves hm) hi
    rw [hq] at hserves
    have hserved := hserves.served_prefix hwait
    have hcount := preemptions_le hi hrun hq hwait
    have hone : resched k' ≤ 1 := by
      unfold resched
      split <;> simp
    refine ⟨hserved,⟨j,hserves.waiting hwait⟩,?_,fun hc => ?_⟩
    · have hlen := hserved.length_le
      omega
    · rw [resched_of_run hc] at hcount
      exact hcount
  refine ⟨hwaiting,fun hlt => ?_⟩
  by_contra hwait
  exact absurd (hwaiting hwait).2.2.1 (by omega)

/-- The steps of a run. -/
def Kernel.steps (k : Kernel) : List Event → List (Step Kernel Event)
  | [] => []
  | e :: es => match k.step e with
    | .ok k' => ⟨k,e,k'⟩ :: k'.steps es
    | .error _ => []

lemma trace_run {es : List Event} (h : k.run es = some k') : Trace Makes k (k.steps es) k' := by
  induction es generalizing k with
  | nil =>
    cases h
    exact .nil
  | cons e es ih =>
    unfold Kernel.run at h
    split_ifs at h with he
    unfold Kernel.steps
    cases hs : k.step e with
    | error f => simp [hs] at h
    | ok k1 =>
      simp only [hs] at h
      exact .cons ⟨he,hs⟩ (ih h)

/-- Two threads wait, and a timer interrupt gives the processor to the first of them. -/
theorem round_robin_two : ∃ k k' l, k.ready = [2,3] ∧ Trace Makes k l k' ∧ l.filterMap switchedTo = [2] ∧
    k'.ready = [3,1] ∧ [2] <+: [2] ∧ (l.filter preempts).length ≤ 2 := by
  have hr : ∃ k, Kernel.start.run [.unlock,.spawn,.spawn,.spawn,.threadYield,.pass,.resume] = some k ∧
      k.ready = [2,3] ∧ ∃ k', k.run [.timerInterrupt,.timerReturn,.pass,.resume] = some k' ∧ k'.ready = [3,1] ∧
        (k.steps [.timerInterrupt,.timerReturn,.pass,.resume]).filterMap switchedTo = [2] :=
    ⟨_,rfl,rfl,_,rfl,rfl,rfl⟩
  obtain ⟨k,hk,hready,k',hk',hready',hsw⟩ := hr
  have hrr := (round_robin (reach_run reach_start hk) (trace_run hk') (show k.ready = [2] ++ 3 :: [] from hready)).1
    (by rw [hsw]; decide)
  rw [hsw] at hrr
  exact ⟨k,k',_,hready,trace_run hk',hsw,hready',hrr.1,hrr.2.2.1⟩

end Lilith.Sched
