import Lilith.Sched.Steps

/-! The invariant of the scheduler over whole runs. -/
namespace Lilith.Sched
open Kernel

variable {k k' : Kernel} {fs : List Frame} {c : Caller} {r : SchedReason} {id q : ℕ} {e : Event}

lemma Inv.pass (h : Inv k) (hc : k.control = .sched r c) : ∃ k', k.schedPass r c = .ok k' ∧ Inv k' ∧
    ((r = .yielding ∧ k.ready = [] ∧ k' = Sched.back k c) ∨
      ∃ t, ¬ (r = .yielding ∧ k.ready = []) ∧ k.threads.get (k.nextThread r).1 = some t ∧
        k' = k.switchTo r c (k.nextThread r).1 (k.nextThread r).2 t) := by
  have hh := h.irq.here
  simp only [hc] at hh
  by_cases hr : r = .yielding ∧ k.ready = []
  · obtain ⟨rfl,hempty⟩ := hr
    refine ⟨Sched.back k c,?_,h.stay hc,Or.inl ⟨rfl,hempty,rfl⟩⟩
    simp [schedPass, hh.2.1, hempty, schedReturn_eq hh.1 hh.2.1, bind, Except.bind]
  · obtain ⟨t,ht,_⟩ := thread_of_state (h.view.next hc hr).1
    obtain ⟨h1,h2⟩ := h.switch hc hr ht
    exact ⟨_,h1,h2,Or.inr ⟨t,hr,ht,rfl⟩⟩

/-- A thread goes on behind `switch()`. -/
lemma Inv.resumeAt (h : Inv k) (hc : k.control = .resumed .none) (hs : Suspended c fs) :
    Inv (Sched.back { k with frames := fs } c) := by
  have hh := h.irq.here
  simp only [hc] at hh
  have hsl : (viewOf k).sleepers = timerIds k.timers := by
    simp [viewOf, wakeIds, hh.1, show poppedIds [] = [] from rfl]
  have hback : (viewOf (Sched.back { k with frames := fs } c)).Inv := by
    rw [viewOf_back (k := { k with frames := fs }) hs]
    have := h.view.leaveSched (Or.inr hc)
    rwa [show (viewOf k).setControl .run = { (viewOf k).setControl .run with sleepers := timerIds k.timers } by
      simp [SchedView.setControl, ← hsl]] at this
  exact h.back hs rfl (fun _ _ => Or.inr ⟨_,hc⟩) hback

/-- The three ways to go on behind `switch()`. -/
lemma Inv.resume {a : DeferredAction} (h : Inv k) (hc : k.control = .resumed a) :
    ∃ k' t, k.resume a = .ok k' ∧ Inv k' ∧ k.threads.get k.mach.currentThreadId = some t ∧
      ((a = .none ∧ t.regs = .entry ∧ k' = { k.leave with frames := [.body 0], control := .run }) ∨
      (∃ r c fs, a = .none ∧ t.regs = .sched r c fs ∧ k' = Sched.back { k with frames := fs } c) ∨
      ∃ id c fs v w, a = .cleanup id ∧ t.regs = .sched .yielding c fs ∧ k.threads.get id = some w ∧
        (∀ j, v.get j = if j = id then none else k.threads.get j) ∧
        k' = { k with frames := fs, threads := v, control := .sched .yielding c }) := by
  have hh := h.irq.here
  simp only [hc] at hh
  obtain ⟨hfr,hn,hf⟩ := hh
  obtain ⟨t,ht,_⟩ := thread_of_state h.view.current_state
  have ht : k.threads.get k.mach.currentThreadId = some t := ht
  have hpark : ∀ t, Parked k t := fun t => Or.inr ⟨a,hc⟩
  cases hreg : t.regs with
  | default => exact absurd hreg (h.regs.some_regs _ t ht (hpark t))
  | entry =>
    have ha : a = .none := by
      cases a with
      | none => rfl
      | cleanup id =>
        obtain ⟨c,fs,hidle⟩ := h.regs.idle t (h.view.cleanup id hc ▸ ht) (hpark t)
        simp [hidle] at hreg
    subst ha
    refine ⟨_,t,by simp [Kernel.resume, ht, unwrap, hreg, bind, Except.bind, pure, Except.pure],?_,ht,
      Or.inl ⟨rfl,hreg,rfl⟩⟩
    have hb : { k.leave with frames := [.body 0], control := .run } =
        Sched.back { k with frames := [.body 0] } .thread := by simp [Kernel.leave, Sched.back, hn]
    rw [hb]
    exact h.resumeAt hc ⟨.body 0,rfl⟩
  | sched r c fs =>
    have hs := h.irq.saved _ t ht r c fs hreg
    cases a with
    | none =>
      refine ⟨_,t,?_,?_,ht,Or.inr (Or.inl ⟨r,c,fs,rfl,hreg,rfl⟩)⟩
      · simp [Kernel.resume, ht, unwrap, hreg, bind, Except.bind,
          schedReturn_eq (k := { k with frames := fs }) hs hn]
      · exact h.resumeAt hc hs
    | cleanup id =>
      have hcur : k.mach.currentThreadId = IDLE_THREAD_ID := h.view.cleanup id hc
      have ht0 : k.threads.get IDLE_THREAD_ID = some t := hcur ▸ ht
      obtain ⟨c',fs',hidle⟩ := h.regs.idle t ht0 (hpark t)
      obtain ⟨rfl,rfl,rfl⟩ : r = .yielding ∧ c = c' ∧ fs = fs' := by simpa [hidle, eq_comm] using hreg
      obtain ⟨w,hw,hws⟩ := thread_of_state ((h.view.exiting id).mpr hc)
      obtain ⟨v,hrem,hval,hget⟩ := h.irq.valid.remove hw
      refine ⟨{ k with frames := fs, threads := v, control := .sched .yielding c },t,?_,?_,ht,
        Or.inr (Or.inr ⟨id,c,fs,v,w,rfl,hreg,hw,hget,rfl⟩)⟩
      · simp [Kernel.resume, ht0, unwrap, hreg, hcur, cleanUp, hw, hws, hrem, bind, Except.bind, pure, Except.pure]
      · have hold : ∀ j u, v.get j = some u → k.threads.get j = some u := fun j u hu => by
          rw [hget] at hu
          split_ifs at hu
          exact hu
        refine ⟨⟨hval,fun j u hu => h.irq.saved j u (hold j u hu),⟨hs,hn,hf⟩⟩,?_,
          ⟨fun j u hu _ => h.regs.some_regs j u (hold j u hu) (hpark u),
            fun u hu _ => h.regs.idle u (hold _ u hu) (hpark u)⟩⟩
        have hst : (fun j => (v.get j).map SchedThread.state) =
            Function.update (fun j => (k.threads.get j).map SchedThread.state) id none := by
          funext j
          rw [hget, Function.update_apply]
          split_ifs <;> rfl
        convert h.view.reap (c := c) hc using 1
        simp only [viewOf, wakeIds, hst, hs.popped, hfr]
        rfl

lemma runLater_eq (hs : Synced k) (d : ℕ) (cl : Closure) : k.runLater d cl =
    { k with timers := TimerQueue.insert ((d + TICK_NS - 1) / TICK_NS) cl k.timers } :=
  leave_enter (k := { k with timers := TimerQueue.insert ((d + TICK_NS - 1) / TICK_NS) cl k.timers }) hs

lemma synced_enter (k : Kernel) : Synced k.enter := by simp [Synced, enter]

/-- A thread calls `sched()` to yield or to exit. -/
lemma Inv.yield (h : Inv k) (hc : k.control = .run) (hg : liveGuards k.frames = 0)
    (hr : r = .yielding ∨ r = .exiting) (h0 : r ≠ .yielding → k.mach.currentThreadId ≠ IDLE_THREAD_ID) :
    Inv { k.enter with control := .sched r .thread } := by
  obtain ⟨hs,hn⟩ := h.suspended hc hg
  exact h.enterSched hc hs rfl (by simp [enter, hn]) rfl rfl (h.view.enterSched hc hr h0)

lemma Inv.sleepUntil (h : Inv k) (hc : k.control = .run) (hg : liveGuards k.frames = 0)
    (h0 : k.mach.currentThreadId ≠ IDLE_THREAD_ID) (q : ℕ) :
    ∃ k', k.step (.sleepUntil q) = .ok k' ∧ Inv k' := by
  obtain ⟨hs,hn⟩ := h.suspended hc hg
  set w := Function.update k.waiters q (k.waiters q ++ [k.mach.currentThreadId]) with hw
  refine ⟨{ k.enter with waiters := w, control := .sched .waiting .thread },?_,?_⟩
  · have h1 := leave_enter (k := { k.enter.enter with waiters := w }) (synced_enter k.enter)
    have h2 := leave_enter (k := { k.enter with waiters := w }) (synced_enter k)
    have h3 : { k.enter.enter.enter with waiters := w }.leave.leave = { k.enter with waiters := w } :=
      (congrArg leave h1).trans h2
    simp only [Kernel.step]
    rw [show Function.update k.enter.enter.enter.waiters q
      (k.enter.enter.enter.waiters q ++ [k.enter.enter.enter.mach.currentThreadId]) = w from rfl, h3]
  · refine h.enterSched hc hs rfl (by simp [enter, hn]) rfl rfl ?_
    exact h.view.enterWait hc h0

lemma Inv.threadSleep (h : Inv k) (hc : k.control = .run) (hg : liveGuards k.frames = 0)
    (h0 : k.mach.currentThreadId ≠ IDLE_THREAD_ID) (d : ℕ) :
    ∃ k', k.step (.threadSleep d) = .ok k' ∧ Inv k' := by
  obtain ⟨hs,hn⟩ := h.suspended hc hg
  refine ⟨_,rfl,?_⟩
  rw [runLater_eq (synced_enter k)]
  refine h.enterSched hc hs rfl (by simp [enter, hn]) rfl rfl (h.view.enterSleep hc h0 ?_)
  exact (timerIds_insert _ _ _).append_right _

/-- The end of an interrupt handler. -/
lemma Inv.intReturn {kind : Interrupt} (h : Inv k) (hc : k.control = .run) (hh : k.inHandler kind = true) :
    ∃ k', k.intReturn = .ok k' ∧ Inv k' := by
  obtain ⟨hg,hn,hf⟩ := h.run hc
  rcases intReturn_cases hg hn hf hh with ⟨hs,h1,hflag,heq⟩ | ⟨s,fs,b,hfs,hsv,heq⟩
  · exact ⟨_,heq,h.enterSched hc hs rfl h1 hflag rfl (h.view.enterSched hc (Or.inl rfl) (by simp))⟩
  · refine ⟨_,heq,?_⟩
    rw [hfs] at hg hn
    have hcount : k.mach.irqLockCount - 1 = liveGuards fs := by
      rw [hn]
      simp [Frame.liveGuards]
    refine h.quiet hc rfl rfl rfl rfl rfl ?_ ⟨?_,?_,?_⟩
    · simp [wakeIds, popHandler, hfs, poppedIds_cons, Frame.popped]
    · cases hg with
      | handler hg => simpa [popHandler, hfs] using hg
    · simp [popHandler, hfs, hcount]
    · simp [Synced, popHandler, hcount, hsv]

lemma Inv.launch (h : Inv k) (hc : k.control = .run) (hfs : k.frames = [.body 0]) :
    ∃ k', k.step .launch = .ok k' ∧ Inv k' := by
  obtain ⟨_,hn,_⟩ := h.run hc
  have h0 : k.mach.irqLockCount = 0 := by rw [hn, hfs]; rfl
  refine ⟨_,rfl,h.quiet hc rfl rfl rfl rfl hc ?_ ⟨.user,?_,?_⟩⟩
  · simp [wakeIds, hfs, poppedIds_cons, Frame.popped, dropWithoutDisabling, leave, enter]
  · simp [dropWithoutDisabling, leave, enter, h0, Frame.liveGuards, Frame.guards]
  · simp [Synced, dropWithoutDisabling, leave, enter, h0]

/-- User code has no frames below it. -/
lemma Inv.user_frames (h : Inv k) (hc : k.control = .run) (hfs : k.frames.head? = some .user) :
    k.frames = [.user] := by
  have hg := (h.run hc).1
  cases hfr : k.frames with
  | nil => simp [hfr] at hfs
  | cons f fs =>
    obtain rfl : f = .user := by simpa [hfr] using hfs
    rw [hfr] at hg
    cases hg
    rfl

lemma Inv.syscall (h : Inv k) (hc : k.control = .run) (hfs : k.frames.head? = some .user) :
    ∃ k', k.step .syscall = .ok k' ∧ Inv k' := by
  obtain ⟨_,hn,_⟩ := h.run hc
  have hfs := h.user_frames hc hfs
  have h0 : k.mach.irqLockCount = 0 := by rw [hn, hfs]; rfl
  refine ⟨{ k with frames := .syscall 0 :: k.frames, mach := { k.mach with interruptFlag := true } },?_,
    h.quiet hc rfl rfl rfl rfl hc ?_ ⟨?_,?_,?_⟩⟩
  · simp [Kernel.step, h0, bind, Except.bind, pure, Except.pure]
  · simp [wakeIds, poppedIds_cons, Frame.popped]
  · simpa [hfs] using Grounded.syscall 0
  · simp [hn, Frame.liveGuards, Frame.guards]
  · simp [Synced, h0]

lemma Inv.sysret (h : Inv k) (hc : k.control = .run) (hfs : k.frames.head? = some (.syscall 0)) :
    ∃ k', k.step .sysret = .ok k' ∧ Inv k' := by
  obtain ⟨hg,hn,_⟩ := h.run hc
  cases hfr : k.frames with
  | nil => simp [hfr] at hfs
  | cons f fs =>
    obtain rfl : f = .syscall 0 := by simpa [hfr] using hfs
    rw [hfr] at hg
    cases hg with
    | syscall =>
      have h0 : k.mach.irqLockCount = 0 := by rw [hn, hfr]; rfl
      refine ⟨_,rfl,h.quiet hc rfl rfl rfl rfl hc ?_ ⟨?_,?_,?_⟩⟩
      · simp [wakeIds, hfr, poppedIds_cons, Frame.popped]
      · simpa [hfr] using Grounded.user
      · simp [h0, hfr, Frame.liveGuards, Frame.guards]
      · simp [Synced, h0]

lemma Inv.timerInterrupt (h : Inv k) (hc : k.control = .run) :
    ∃ k', k.step .timerInterrupt = .ok k' ∧ Inv k' := by
  have hinv := h.enterInt hc .timer
  have hirq := hinv.run hc
  set k1 : Kernel := { k.enterInt .timer with
    mach := { (k.enterInt .timer).mach with ticks := (k.enterInt .timer).mach.ticks + 1 }
    timers := TimerQueue.tick k.timers } with hk1
  refine ⟨k1,congrArg Except.ok (leave_enter (k := k1) hirq.2.2),hinv.quiet hc rfl rfl rfl rfl hc ?_ hirq⟩
  simp [wakeIds, hk1, timerIds_tick, Kernel.enterInt, enter]

lemma timerIds_pop {ts ts' : List (TimerEvent Closure)} {cl : Closure} (h : TimerQueue.popClosure ts = some (cl,ts')) :
    timerIds ts = cl.target.toList ++ timerIds ts' := by
  cases ts with
  | nil => simp [TimerQueue.popClosure] at h
  | cons t ts =>
    simp only [TimerQueue.popClosure] at h
    split_ifs at h
    cases h
    exact timerIds_cons t _

lemma Inv.popClosure (h : Inv k) (hc : k.control = .run) (hh : k.inHandler .timer = true)
    (hpop : (TimerQueue.popClosure k.timers).isSome = true) :
    ∃ k', k.step .popClosure = .ok k' ∧ Inv k' := by
  obtain ⟨hg,hn,hf⟩ := h.run hc
  obtain ⟨s,fs,hfs⟩ := inHandler_frames hh
  obtain ⟨⟨cl,ts⟩,hts⟩ := Option.isSome_iff_exists.mp hpop
  have hle := leave_enter (k := { k with timers := ts }) hf
  have hset : { k with timers := ts }.setClosure (some cl) =
      { k with timers := ts, frames := .handler .timer s 0 (some cl) :: fs } := by
    simp [setClosure, hfs]
  refine ⟨{ k with timers := ts, frames := .handler .timer s 0 (some cl) :: fs },?_,
    h.quiet hc rfl rfl rfl rfl hc ?_ ⟨?_,?_,hf⟩⟩
  · rw [← hset]
    simp only [Kernel.step, hts]
    exact congrArg (fun k => Except.ok (setClosure k (some cl))) hle
  · -- the closure moves from the queue to the handler
    simp only [wakeIds, hfs, poppedIds_cons, timerIds_pop hts, Frame.popped, Option.bind_none, Option.bind_some,
      Option.toList_none, List.nil_append]
    rw [← List.append_assoc]
    exact List.perm_append_comm.append_right _
  · rw [hfs] at hg
    cases hg with
    | handler hg _ _ _ hs => exact .handler hg .timer 0 (some cl) hs
  · rw [hn, hfs]
    rfl

lemma activate_run (hs : Synced k) (p : ℕ) :
    k.activate p = { k with mach := { k.mach with currentProc := some p } } := by
  have h1 := leave_enter (k := { k.enter with mach := { k.enter.mach with currentProc := some p } })
    (synced_enter k)
  exact (congrArg leave h1).trans (leave_enter (k := { k with mach := { k.mach with currentProc := some p } }) hs)

/-- Every event that can happen succeeds and keeps the invariant. -/
theorem Inv.step (h : Inv k) (he : k.Enabled e) : ∃ k', k.step e = .ok k' ∧ Inv k' := by
  cases e with
  | lock => exact ⟨_,rfl,h.lock he.1 he.2⟩
  | unlock =>
    obtain ⟨hc,hpos⟩ := he
    cases hfs : k.frames with
    | nil => simp [topGuards, hfs] at hpos
    | cons f fs => exact ⟨_,rfl,h.unlock hc hfs (by simpa [topGuards, hfs] using hpos)⟩
  | spawn =>
    obtain ⟨k',h1,h2,_⟩ := h.spawn he.1
    exact ⟨k',h1,h2⟩
  | threadYield => exact ⟨_,rfl,h.yield he.1 he.2.2 (Or.inl rfl) (by simp)⟩
  | threadExit => exact ⟨_,rfl,h.yield he.1 he.2.2.1 (Or.inr rfl) fun _ => he.2.2.2⟩
  | threadSleep d => exact h.threadSleep he.1 he.2.2.1 he.2.2.2 d
  | sleepUntil q => exact h.sleepUntil he.1 he.2.2.1 he.2.2.2 q
  | wakeOne q => exact h.wakeOne he.1 q
  | wakeAll q => exact h.wakeAll he.1 q
  | runLater d =>
    have hirq := h.run he.1
    refine ⟨_,rfl,?_⟩
    rw [runLater_eq hirq.2.2]
    exact h.quiet he.1 rfl rfl rfl rfl he.1 ((timerIds_insert _ _ _).append_right _) hirq
  | activate p =>
    have hirq := h.run he.1
    refine ⟨_,rfl,?_⟩
    rw [activate_run hirq.2.2]
    exact h.quiet he.1 rfl rfl rfl rfl he.1 (List.Perm.refl _) hirq
  | launch => exact h.launch he.1 he.2
  | syscall => exact h.syscall he.1 he.2
  | sysret => exact h.sysret he.1 he.2
  | timerInterrupt => exact h.timerInterrupt he.1
  | pageFault => exact ⟨_,rfl,h.enterInt he .pageFault⟩
  | popClosure => exact h.popClosure he.1 he.2.1 he.2.2
  | runClosure =>
    obtain ⟨hc,hp⟩ := he
    obtain ⟨cl,hcl⟩ := Option.isSome_iff_exists.mp hp
    exact h.runClosure hc hcl
  | timerReturn =>
    have hirq := h.run he.1
    have hq : Inv { k with mach := { k.mach with irqNeedResched := true } } :=
      h.quiet he.1 rfl rfl rfl rfl he.1 (List.Perm.refl _) hirq
    have hle := leave_enter (k := { k with mach := { k.mach with irqNeedResched := true } }) hirq.2.2
    simp only [Kernel.step, hle]
    exact hq.intReturn he.1 he.2.1
  | pageFaultReturn => exact h.intReturn he.1 he.2
  | pass =>
    obtain ⟨r,c,hc⟩ := he
    obtain ⟨k',h1,h2,_⟩ := h.pass hc
    exact ⟨k',by simpa only [Kernel.step, hc] using h1,h2⟩
  | resume =>
    obtain ⟨a,hc⟩ := he
    obtain ⟨k',_,h1,h2,_⟩ := h.resume hc
    exact ⟨k',by simpa only [Kernel.step, hc] using h1,h2⟩

end Lilith.Sched
