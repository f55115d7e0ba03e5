import Lilith.Sched.Correct

/-! Runs of the scheduler: its threads and queues agree whenever its lock is not held, the lock
count follows the guards, and no assertion fails. -/
namespace Lilith.Sched
open Kernel

variable {k k' : Kernel} {r : SchedReason} {c : Caller} {id q : ℕ} {e : Event}

lemma inv_init (h : Kernel.boot.init = .ok k) : Inv k := by
  obtain rfl : { Kernel.boot with threads := ⟨[some ⟨.default,none,.running⟩],[]⟩ } = k := by
    simpa [Kernel.init, Kernel.boot, IdSparseVec.insert, IdSparseVec.new, IDLE_THREAD_ID, bind, Except.bind, pure,
      Except.pure] using h
  have hget : ∀ j, (⟨[some ⟨.default,none,.running⟩],[]⟩ : IdSparseVec SchedThread).get j =
      if j = 0 then some ⟨.default,none,.running⟩ else none := by
    intro j
    cases j <;> simp [IdSparseVec.get]
  have hst : ∀ j, (viewOf { Kernel.boot with threads := ⟨[some ⟨.default,none,.running⟩],[]⟩ }).state j =
      if j = 0 then some .running else none := by
    intro j
    simp only [viewOf, hget]
    split_ifs <;> rfl
  have hint : ∀ j, (viewOf { Kernel.boot with threads := ⟨[some ⟨.default,none,.running⟩],[]⟩ }).intent j =
      if j = 0 then some .running else none := hst
  refine ⟨⟨⟨List.nodup_nil,fun j => ?_⟩,fun j t ht r c fs hr => ?_,.body 1,rfl,?_⟩,?_,⟨fun j t ht hp => ?_,
    fun t ht hp => ?_⟩⟩
  · cases j <;> simp
  · simp only [hget] at ht
    split_ifs at ht
    cases ht
    simp at hr
  · simp [Synced, Kernel.boot]
  · refine ⟨fun j => ?_,Or.inl (hst 0),List.nodup_nil,fun j => ?_,fun q => List.nodup_nil,?_,fun j => ?_,
      List.nodup_nil,fun j => ?_,fun j => ?_,fun j hj => by simp [viewOf, Kernel.boot] at hj,
      fun r c hj => by simp [viewOf, Kernel.boot] at hj⟩
    · rw [hst]
      split_ifs with hj <;> simp [hj, viewOf, Kernel.boot]
    · rw [hst]
      split_ifs <;> simp [viewOf, Kernel.boot]
    · intro q q' j hj
      simp [viewOf, Kernel.boot] at hj
    · rw [hint]
      split_ifs <;> simp [viewOf, Kernel.boot]
    · rw [hint]
      split_ifs <;> simp [viewOf, wakeIds, timerIds, poppedIds, Kernel.boot, Frame.popped]
    · rw [hst]
      split_ifs <;> simp [viewOf, Kernel.boot]
  all_goals
    simp only [hget] at ht
    split_ifs at ht
    cases ht
    simp [Parked, Kernel.boot] at hp

theorem inv_of_reach (h : Reach k) : Inv k := by
  induction h with
  | init h => exact inv_init h
  | step e _ he hs ih =>
    obtain ⟨k',h1,h2⟩ := ih.step he
    rw [hs] at h1
    cases h1
    exact h2

lemma reach_run {es : List Event} (h : Reach k) (hr : k.run es = some k') : Reach k' := by
  induction es generalizing k with
  | nil =>
    cases hr
    exact h
  | cons e es ih =>
    unfold Kernel.run at hr
    split_ifs at hr with he
    split at hr
    · rename_i k1 hs
      exact ih (h.step e he hs) hr
    · simp at hr

/-- The state of a thread. -/
def stateOf (k : Kernel) (id : ℕ) : Option ThreadState := (k.threads.get id).map SchedThread.state

/-- The threads, the queues and the current thread agree. -/
structure Consistent (k : Kernel) : Prop where
  running : ∀ id, stateOf k id = some .running ↔ id = k.mach.currentThreadId
  ready_nodup : k.ready.Nodup
  ready : ∀ id, id ∈ k.ready ↔ stateOf k id = some .ready ∧ id ≠ IDLE_THREAD_ID
  idle : stateOf k IDLE_THREAD_ID = some .running ∨ stateOf k IDLE_THREAD_ID = some .ready
  waiters : ∀ q id, id ∈ k.waiters q → stateOf k id = some .waiting
  waiting : ∀ id, stateOf k id = some .waiting →
    ∃ q, (k.waiters q).count id = 1 ∧ ∀ q', q' ≠ q → id ∉ k.waiters q'
  /-- a sleeping thread has one closure, in the timer queue or popped by the running handler -/
  sleeping : ∀ id, stateOf k id = some .sleeping → (wakeIds k).count id = 1
  closures : ∀ id, id ∈ wakeIds k → stateOf k id = some .sleeping
  /-- the handlers of other threads have no closure left to run -/
  suspended : ∀ id t, k.threads.get id = some t → ∀ r c fs, t.regs = .sched r c fs → poppedIds fs = []

lemma Inv.consistent (h : Inv k) (hc : k.control = .run) : Consistent k := by
  have hint : (viewOf k).intent = stateOf k := by
    funext j
    simp [SchedView.intent, viewOf, hc, stateOf]
  have hmw := h.view.mem_waiters
  have hms := h.view.mem_sleepers
  simp only [hint] at hmw hms
  refine ⟨h.view.running,h.view.ready_nodup,h.view.mem_ready,h.view.idle,fun q id hq => (hmw id).mp ⟨q,hq⟩,
    fun id hid => ?_,fun id hid => ?_,fun id hid => (hms id).mp hid,
    fun id t ht r c fs hr => (h.irq.saved id t ht r c fs hr).popped⟩
  · obtain ⟨q,hq⟩ := (hmw id).mpr hid
    refine ⟨q,List.count_eq_one_of_mem (h.view.waiters_nodup q) hq,fun q' hne hq' => hne ?_⟩
    exact h.view.waiters_apart q' q id hq' hq
  · exact List.count_eq_one_of_mem h.view.sleepers_nodup ((hms id).mpr hid)

/-- The guards of the running thread, the scheduler lock included. -/
def contextGuards (k : Kernel) : ℕ :=
  match k.control with
  | .run => liveGuards k.frames
  | .sched _ .thread => liveGuards k.frames + 1
  -- the guard of the handler has become that of the scheduler lock
  | .sched _ .handler => liveGuards k.frames
  | .resumed _ => 1

/-! What most events leave alone. -/

/-- The current thread, the current process, and where each thread goes on are the same, a thread can
only have become ready, and there was no switch. -/
structure Frozen (k k' : Kernel) : Prop where
  current : k'.mach.currentThreadId = k.mach.currentThreadId
  currentProc : k'.mach.currentProc = k.mach.currentProc
  threads : ∀ j, (k'.threads.get j).map (fun t => (t.regs,t.proc)) =
    (k.threads.get j).map (fun t => (t.regs,t.proc))
  states : ∀ j, stateOf k' j = stateOf k j ∨ stateOf k' j = some .ready
  control : ∀ a, k'.control = .resumed a → k.control = .resumed a

namespace Frozen

lemma of_eq (h : k'.threads = k.threads) (h1 : k'.mach.currentThreadId = k.mach.currentThreadId)
    (h2 : k'.mach.currentProc = k.mach.currentProc)
    (h3 : k'.control = k.control ∨ ∀ a, k'.control ≠ .resumed a) :
    Frozen k k' :=
  ⟨h1,h2,fun j => by rw [h],fun j => Or.inl (by rw [stateOf, h, stateOf]),fun a ha => h3.elim (fun he => he ▸ ha) fun hn => absurd ha (hn a)⟩

lemma trans {k1 : Kernel} (h : Frozen k k1) (h' : Frozen k1 k') : Frozen k k' :=
  ⟨h'.current.trans h.current,h'.currentProc.trans h.currentProc,fun j => (h'.threads j).trans (h.threads j),
    fun j => by
      rcases h'.states j with h1 | h1
      · rw [h1]
        exact h.states j
      · exact Or.inr h1,
    fun a ha => h.control a (h'.control a ha)⟩

lemma get {t : SchedThread} (h : Frozen k k') (ht : k'.threads.get id = some t) :
    ∃ u, k.threads.get id = some u ∧ u.regs = t.regs ∧ u.proc = t.proc := by
  have := h.threads id
  rw [ht] at this
  simpa using this.symm

lemma none_iff (h : Frozen k k') : k'.threads.get id = none ↔ k.threads.get id = none := by
  have := h.threads id
  cases h1 : k'.threads.get id <;> cases h2 : k.threads.get id <;> simp [h1, h2] at this ⊢

lemma wake (h : k.wake id = .ok k') : Frozen k k' := by
  unfold Kernel.wake at h
  cases ht : k.threads.get id with
  | none => simp [ht, unwrap, bind, Except.bind] at h
  | some t =>
    by_cases hs : t.state = .waiting ∨ t.state = .sleeping
    · obtain rfl : readied k id t = k' := by
        simpa [ht, unwrap, hs, bind, Except.bind, pure, Except.pure, readied] using h
      refine ⟨rfl,rfl,fun j => ?_,fun j => ?_,fun _ ha => ha⟩
      · simp only [readied, IdSparseVec.get_set ht]
        split_ifs with hj
        · simp [hj, ht]
        · rfl
      · simp only [stateOf, readied, IdSparseVec.get_set ht]
        split_ifs with hj
        · exact Or.inr rfl
        · exact Or.inl rfl
    · simp [ht, unwrap, hs, assert, bind, Except.bind] at h

lemma wakeList {ids : List ℕ} (h : k.wakeList ids = .ok k') : Frozen k k' := by
  induction ids generalizing k with
  | nil =>
    cases h
    exact of_eq rfl rfl rfl (Or.inl rfl)
  | cons id ids ih =>
    simp only [Kernel.wakeList, bind, Except.bind] at h
    split at h
    · simp at h
    · rename_i k1 hk1
      exact (wake hk1).trans (ih h)

lemma withLock {f : Kernel → Except Fault Kernel} (h : k.withLock f = .ok k')
    (hf : ∀ k', f k.enter = .ok k' → Frozen k.enter k') : Frozen k k' := by
  simp only [Kernel.withLock, bind, Except.bind] at h
  split at h
  · simp at h
  · rename_i k1 hk1
    cases h
    exact (of_eq rfl rfl rfl (Or.inl rfl) : Frozen k k.enter).trans ((hf k1 hk1).trans (of_eq rfl rfl rfl (Or.inl rfl)))

lemma finishInt (h : k.finishInt = .ok k') : Frozen k k' := by
  unfold Kernel.finishInt at h
  split at h
  · simp only [bind, Except.bind, assert] at h
    split_ifs at h
    cases h
    exact of_eq rfl rfl rfl (Or.inr (by simp))
  · simp at h

lemma intReturn (h : k.intReturn = .ok k') : Frozen k k' := by
  unfold Kernel.intReturn at h
  split_ifs at h
  · cases h
    exact of_eq rfl rfl rfl (Or.inr (by simp))
  · have hk : Frozen k { k with mach := { k.mach with irqNeedResched := false } } := of_eq rfl rfl rfl (Or.inl rfl)
    exact hk.trans (finishInt h)
  · exact finishInt h

end Frozen

/-- The events that do not spawn a thread, activate a process or switch threads. -/
def Event.isLocal : Event → Bool
  | .spawn | .activate _ | .pass | .resume => false
  | _ => true

lemma step_frozen (he : e.isLocal = true) (hs : k.step e = .ok k') : Frozen k k' := by
  cases e with
  | spawn | activate _ | pass | resume => simp [Event.isLocal] at he
  | wakeOne q =>
    refine Frozen.withLock hs fun k1 h1 => Frozen.withLock h1 fun k2 h2 => ?_
    split at h2
    · cases h2
      exact Frozen.of_eq rfl rfl rfl (Or.inl rfl)
    · rename_i id ids _
      have hk : Frozen k.enter.enter { k.enter.enter with waiters := Function.update k.waiters q ids } :=
        Frozen.of_eq rfl rfl rfl (Or.inl rfl)
      exact hk.trans (Frozen.wake h2)
  | wakeAll q =>
    refine Frozen.withLock hs fun k1 h1 => Frozen.withLock h1 fun k2 h2 => ?_
    have hk : Frozen k.enter.enter { k.enter.enter with waiters := Function.update k.waiters q [] } :=
      Frozen.of_eq rfl rfl rfl (Or.inl rfl)
    exact hk.trans (Frozen.wakeList h2)
  | runClosure =>
    simp only [Kernel.step] at hs
    split at hs
    · have hset : Frozen k (k.setClosure none) := Frozen.of_eq rfl rfl rfl (Or.inl rfl)
      exact hset.trans (Frozen.withLock hs fun k1 h1 => Frozen.wake h1)
    · cases hs
      exact Frozen.of_eq rfl rfl rfl (Or.inl rfl)
  | timerReturn =>
    have hk : Frozen k { k with mach := { k.mach with irqNeedResched := true } }.enter.leave :=
      Frozen.of_eq rfl rfl rfl (Or.inl rfl)
    exact hk.trans (Frozen.intReturn hs)
  | pageFaultReturn => exact Frozen.intReturn hs
  | popClosure =>
    simp only [Kernel.step] at hs
    split at hs <;> cases hs <;> exact Frozen.of_eq rfl rfl rfl (Or.inl rfl)
  | syscall =>
    simp only [Kernel.step, bind, Except.bind, assert] at hs
    split_ifs at hs
    cases hs
    exact Frozen.of_eq rfl rfl rfl (Or.inl rfl)
  | threadYield | threadExit | threadSleep _ | sleepUntil _ =>
    cases hs
    exact Frozen.of_eq rfl rfl rfl (Or.inr (by simp))
  | _ =>
    cases hs
    exact Frozen.of_eq rfl rfl rfl (Or.inl rfl)

/-- The kernel after a thread has been spawned. -/
lemma Inv.spawned (h : Inv k) (he : k.Enabled .spawn) (hs : k.step .spawn = .ok k') :
    ∃ id, k.threads.get id = none ∧ k'.mach = k.mach ∧ k'.control = k.control ∧ ∀ j, k'.threads.get j =
      if j = id then some ⟨.entry,none,.ready⟩ else k.threads.get j := by
  obtain ⟨k1,h1,_,hm,hc,id,hnone,hget⟩ := h.spawn he.1
  obtain rfl : k1 = k' := Except.ok.inj (h1.symm.trans hs)
  exact ⟨id,hnone,hm,hc,hget⟩

/-- A thread leaves the table only when the thread that was switched to removes it. -/
lemma Inv.removed (h : Inv k) (he : k.Enabled e) (hs : k.step e = .ok k') (hid : (k.threads.get id).isSome)
    (hgone : k'.threads.get id = none) : k.control = .resumed (.cleanup id) := by
  have hsome : k.threads.get id ≠ none := Option.isSome_iff_ne_none.mp hid
  by_cases hl : e.isLocal = true
  · exact absurd ((step_frozen hl hs).none_iff.mp hgone) hsome
  cases e with
  | resume =>
    obtain ⟨a,hc⟩ := he
    obtain ⟨k1,t,h1,_,_,hcases⟩ := h.resume hc
    simp only [Kernel.step, hc, h1] at hs
    cases hs
    rcases hcases with ⟨_,_,rfl⟩ | ⟨_,_,_,_,_,rfl⟩ | ⟨id',_,_,v,_,rfl,_,_,hget,rfl⟩
    · exact absurd hgone hsome
    · exact absurd hgone hsome
    · simp only [hget] at hgone
      split_ifs at hgone with hj
      · rw [hc, hj]
      · exact absurd hgone hsome
  | pass =>
    obtain ⟨r,c,hc⟩ := he
    obtain ⟨k1,h1,_,hcases⟩ := h.pass hc
    simp only [Kernel.step, hc, h1] at hs
    cases hs
    rcases hcases with ⟨_,_,rfl⟩ | ⟨t,_,_,rfl⟩
    · exact absurd hgone hsome
    · have hthreads : ((k.switchTo r c (k.nextThread r).1 (k.nextThread r).2 t).threads.get id).isSome := by
        unfold switchTo
        cases t.proc <;> exact IdSparseVec.isSome_set (IdSparseVec.isSome_set hid)
      simp [hgone] at hthreads
  | spawn =>
    obtain ⟨_,_,_,_,hget⟩ := h.spawned he hs
    simp only [hget] at hgone
    split_ifs at hgone
    exact absurd hgone hsome
  | activate p =>
    cases hs
    exact absurd hgone hsome
  | _ => simp [Event.isLocal] at hl

/-- In every run the threads, the queues and the current thread agree whenever the scheduler lock is
not held, and no step fails, so that no assertion in `sched()`, `wake` and `clean_up` does. Only the
idle thread is told to remove a thread, and a thread leaves the table only after it has been
switched away from. -/
theorem scheduler_consistent (h : Reach k) : (k.control = .run → Consistent k) ∧
    (∀ e, k.Enabled e → ∃ k', k.step e = .ok k') ∧
    (∀ id, k.control = .resumed (.cleanup id) →
      k.mach.currentThreadId = IDLE_THREAD_ID ∧ stateOf k id = some .exiting) ∧
    ∀ e k' id, k.Enabled e → k.step e = .ok k' → (k.threads.get id).isSome → k'.threads.get id = none →
      k.control = .resumed (.cleanup id) ∧ id ≠ k.mach.currentThreadId ∧ stateOf k id = some .exiting := by
  have hi := inv_of_reach h
  have hexit : ∀ id, k.control = .resumed (.cleanup id) → stateOf k id = some .exiting := fun id hc =>
    (hi.view.exiting id).mpr hc
  refine ⟨hi.consistent,fun e he => ?_,fun id hc => ⟨hi.view.cleanup id hc,hexit id hc⟩,
    fun e k' id he hs hid hgone => ?_⟩
  · obtain ⟨k',h1,_⟩ := hi.step he
    exact ⟨k',h1⟩
  · have hc := hi.removed he hs hid hgone
    refine ⟨hc,fun hcur => ?_,hexit id hc⟩
    have hrun := hi.view.current_state
    rw [show (viewOf k).current = id from hcur.symm] at hrun
    have := (hexit id hc).symm.trans hrun
    simp at this

/-- The kernel after `sched::init`. -/
def Kernel.start : Kernel :=
  { Kernel.boot with threads := ⟨[some ⟨.default,none,.running⟩],[]⟩ }

lemma reach_start : Reach Kernel.start := .init rfl

/-- A thread that sleeps for two ticks, while a timer interrupt has begun. -/
theorem scheduler_consistent_sleeper : ∃ k, stateOf k 1 = some .sleeping ∧ k.mach.ticks = 1 ∧ Consistent k := by
  have hr := reach_run reach_start (rfl : Kernel.start.run [.unlock,.spawn,.threadYield,.pass,.resume,
    .threadSleep 15000000,.pass,.resume,.timerInterrupt] = some _)
  exact ⟨_,rfl,rfl,(scheduler_consistent hr).1 rfl⟩

/-- The lock count is the number of guards of the running thread, interrupts are masked exactly
when it is not zero, it is one at every pass through the loop of `sched()`, and no step fails, so that
the assertions in `sched()`, `int_handler` and `syscall_handler` hold. -/
theorem irq_lock_count_invariant (h : Reach k) :
    (k.mach.interruptFlag = false ↔ k.mach.irqLockCount ≠ 0) ∧
    k.mach.irqLockCount = contextGuards k ∧
    (∀ r c, k.control = .sched r c → k.mach.irqLockCount = 1) ∧
    ∀ e, k.Enabled e → ∃ k', k.step e = .ok k' := by
  have hi := inv_of_reach h
  have hh := hi.irq.here
  refine ⟨?_,?_,fun r c hc => ?_,fun e he => ?_⟩
  · cases hc : k.control with
    | run =>
      simp only [hc] at hh
      rw [← Bool.not_eq_true]
      exact not_congr hh.2.2
    | sched r c =>
      simp only [hc] at hh
      simp [hh.2.1, hh.2.2]
    | resumed a =>
      simp only [hc] at hh
      simp [hh.2.1, hh.2.2]
  · unfold contextGuards
    cases hc : k.control with
    | run =>
      simp only [hc] at hh
      exact hh.2.1
    | sched r c =>
      simp only [hc] at hh
      obtain ⟨hs,hn,_⟩ := hh
      cases c with
      | thread => simp [hn, show liveGuards k.frames = 0 from hs.guards]
      | handler =>
        obtain ⟨kind,fs,hfs,h0⟩ := hs.guards
        simp [hn, hfs, h0, Frame.liveGuards]
    | resumed a =>
      simp only [hc] at hh
      exact hh.2.1
  · simp only [hc] at hh
    exact hh.2.1
  · obtain ⟨k',h1,_⟩ := hi.step he
    exact ⟨k',h1⟩

/-- A page fault in code that holds two locks. -/
theorem irq_lock_count_invariant_fault : ∃ k, k.mach.irqLockCount = 3 ∧ k.mach.irqLockCount = contextGuards k := by
  have hr := reach_run reach_start (rfl : Kernel.start.run [.lock,.pageFault] = some _)
  exact ⟨_,rfl,(irq_lock_count_invariant hr).2.1⟩

end Lilith.Sched
