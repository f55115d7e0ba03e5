import Lilith.Sched.Runs

/-! What a step of the machine can do to the wait queues, to the states of the threads, and to the
reason for which a thread is in `sched()`. -/
namespace Lilith.Sched
open Kernel

variable {k k' : Kernel} {r : SchedReason} {c : Caller} {id q : ℕ} {e : Event}

/-- The reason with which a thread gives up the processor for good or for a while. -/
def Event.reason? : Event → Option SchedReason
  | .threadExit => some .exiting
  | .threadSleep _ => some .sleeping
  | .sleepUntil _ => some .waiting
  | _ => none

lemma withLock_ok {f : Kernel → Except Fault Kernel} (h : k.withLock f = .ok k') :
    ∃ k1, f k.enter = .ok k1 ∧ k' = k1.leave := by
  simp only [Kernel.withLock, bind, Except.bind] at h
  split at h
  · simp at h
  · rename_i k1 hk1
    cases h
    exact ⟨k1,hk1,rfl⟩

lemma wake_ok (h : k.wake id = .ok k') : k'.waiters = k.waiters ∧ k'.control = k.control := by
  unfold Kernel.wake at h
  cases ht : k.threads.get id with
  | none => simp [ht, unwrap, bind, Except.bind] at h
  | some t =>
    by_cases hs : t.state = .waiting ∨ t.state = .sleeping
    · obtain rfl : readied k id t = k' := by
        simpa [ht, unwrap, hs, bind, Except.bind, pure, Except.pure, readied] using h
      exact ⟨rfl,rfl⟩
    · simp [ht, unwrap, hs, assert, bind, Except.bind] at h

lemma wakeList_ok {ids : List ℕ} (h : k.wakeList ids = .ok k') :
    k'.waiters = k.waiters ∧ k'.control = k.control := by
  induction ids generalizing k with
  | nil =>
    cases h
    exact ⟨rfl,rfl⟩
  | cons id ids ih =>
    simp only [Kernel.wakeList, bind, Except.bind] at h
    split at h
    · simp at h
    · rename_i k1 hk1
      obtain ⟨h1,h2⟩ := wake_ok hk1
      obtain ⟨h3,h4⟩ := ih h
      exact ⟨h3.trans h1,h4.trans h2⟩

lemma finishInt_ok (h : k.finishInt = .ok k') : k'.waiters = k.waiters ∧ k'.control = .run := by
  unfold Kernel.finishInt at h
  split at h
  · simp only [bind, Except.bind, assert] at h
    split_ifs at h
    cases h
    exact ⟨rfl,rfl⟩
  · simp at h

lemma intReturn_ok (h : k.intReturn = .ok k') :
    k'.waiters = k.waiters ∧ (k'.control = .run ∨ k'.control = .sched .yielding .handler) := by
  unfold Kernel.intReturn at h
  split_ifs at h
  · cases h
    exact ⟨rfl,Or.inr rfl⟩
  · obtain ⟨h1,h2⟩ := finishInt_ok h
    exact ⟨h1,Or.inl h2⟩
  · obtain ⟨h1,h2⟩ := finishInt_ok h
    exact ⟨h1,Or.inl h2⟩

/-- What an event leaves of the wait queues, of sleeping threads, and of the processor's place in
`sched()`. -/
structure Effect (k : Kernel) (e : Event) (k' : Kernel) : Prop where
  waiters : ∀ q j, j ∈ k'.waiters q → j ∈ k.waiters q ∨ e = .sleepUntil q ∧ j = k.mach.currentThreadId
  control : ∀ r c, k'.control = .sched r c → r = .yielding ∨
    e.reason? = some r ∧ k'.mach.currentThreadId = k.mach.currentThreadId
  sleeping : ∀ j, stateOf k' j = some .sleeping → (viewOf k).intent j = some .sleeping
  cleanup : ∀ j, k'.control = .resumed (.cleanup j) → ∃ c, k.control = .sched .exiting c ∧ j = k.mach.currentThreadId

lemma intent_run (hc : k.control = .run) : (viewOf k).intent = stateOf k := by
  funext j
  simp [SchedView.intent, viewOf, hc, stateOf]

lemma sleeping_of_intent (h : (viewOf k).intent id = some .sleeping) :
    stateOf k id = some .sleeping ∨ ∃ c, k.control = .sched .sleeping c ∧ id = k.mach.currentThreadId := by
  by_cases hc : (∃ c, k.control = .sched .sleeping c) ∧ id = k.mach.currentThreadId
  · obtain ⟨⟨c,hc⟩,hid⟩ := hc
    exact Or.inr ⟨c,hc,hid⟩
  · left
    unfold SchedView.intent at h
    split at h
    · rw [ite_eq_iff] at h
      exact (h.resolve_left (by simp)).2
    · rename_i c hsl
      rw [if_neg fun hid : id = (viewOf k).current => hc ⟨⟨c,hsl⟩,hid⟩] at h
      exact h
    · exact h

lemma Frozen.sleeping {j : ℕ} (h : Frozen k k') (hc : k.control = .run) (hj : stateOf k' j = some .sleeping) :
    (viewOf k).intent j = some .sleeping := by
  rw [intent_run hc]
  rcases h.states j with h1 | h1
  · rwa [← h1]
  · rw [h1] at hj
    simp at hj

/-- An event of the running thread that does not give up the processor. -/
lemma Effect.quiet (hc : k.control = .run) (hf : Frozen k k')
    (hw : ∀ q j, j ∈ k'.waiters q → j ∈ k.waiters q)
    (hc' : k'.control = .run ∨ k'.control = .sched .yielding .handler) : Effect k e k' := by
  refine ⟨fun q j hj => Or.inl (hw q j hj),fun r c hr => Or.inl ?_,fun j hj => hf.sleeping hc hj,fun j hj => ?_⟩
  · rcases hc' with hc' | hc' <;> simp [hc'] at hr
    exact hr.1.symm
  · have := hf.control _ hj
    simp [hc] at this

/-- A thread gives up the processor. -/
lemma Effect.enterSched (hc : k.control = .run) (hf : Frozen k k')
    (hw : ∀ q j, j ∈ k'.waiters q → j ∈ k.waiters q ∨ e = .sleepUntil q ∧ j = k.mach.currentThreadId)
    (hc' : k'.control = .sched r .thread) (hr : r = .yielding ∨ e.reason? = some r) : Effect k e k' := by
  refine ⟨hw,fun r' c' hr' => ?_,fun j hj => hf.sleeping hc hj,fun j hj => by simp [hc'] at hj⟩
  obtain ⟨rfl,_⟩ : r = r' ∧ Caller.thread = c' := by simpa [hc'] using hr'
  exact hr.imp_right fun h => ⟨h,hf.current⟩

lemma Inv.pass_effect (h : Inv k) (hc : k.control = .sched r c) (hs : k.schedPass r c = .ok k') :
    Effect k .pass k' := by
  obtain ⟨k1,h1,_,hcases⟩ := h.pass hc
  obtain rfl : k1 = k' := Except.ok.inj (h1.symm.trans hs)
  have hh := h.irq.here
  simp only [hc] at hh
  rcases hcases with ⟨rfl,_,rfl⟩ | ⟨t,hr,ht,rfl⟩
  · refine ⟨fun q j hj => Or.inl hj,fun r c hr => by simp [Sched.back] at hr,fun j hj => ?_,
      fun j hj => by simp [Sched.back] at hj⟩
    have hint : (viewOf k).intent j = stateOf k j := by simp [SchedView.intent, viewOf, hc, stateOf]
    rw [hint]
    exact hj
  · obtain ⟨u,hu,_⟩ := thread_of_state h.view.current_state
    have hu : k.threads.get k.mach.currentThreadId = some u := hu
    have hnext := (h.view.next hc hr).1
    have hne : k.mach.currentThreadId ≠ (k.nextThread r).1 := fun he => by
      have h1 := h.view.current_state
      rw [show (viewOf k).current = (k.nextThread r).1 from he, hnext] at h1
      simp at h1
    rw [switchTo_eq hh.2.1 hh.2.2]
    refine ⟨fun q j hj => Or.inl hj,fun r c hr => by simp at hr,fun j hj => ?_,fun j hj => ?_⟩
    · simp only [stateOf, get_switchedThreads hu ht hne] at hj
      split_ifs at hj with h1 h2
      · simp at hj
      · cases r <;> simp [outgoing] at hj
        simp [SchedView.intent, viewOf, hc, h2]
      · have hst : (viewOf k).intent j = stateOf k j := by
          cases r <;> simp [SchedView.intent, viewOf, hc, h2, stateOf]
        rw [hst]
        exact hj
    · cases r <;> simp [outgoing] at hj
      exact ⟨c,hc,hj.symm⟩

lemma Inv.resume_effect {a : DeferredAction} (h : Inv k) (hc : k.control = .resumed a)
    (hs : k.resume a = .ok k') : Effect k .resume k' := by
  obtain ⟨k1,t,h1,_,_,hcases⟩ := h.resume hc
  obtain rfl : k1 = k' := Except.ok.inj (h1.symm.trans hs)
  have hint : (viewOf k).intent = stateOf k := by
    funext j
    simp [SchedView.intent, viewOf, hc, stateOf]
  rcases hcases with ⟨_,_,rfl⟩ | ⟨r,c,fs,_,_,rfl⟩ | ⟨id,c,fs,v,w,rfl,_,_,hget,rfl⟩
  · exact ⟨fun q j hj => Or.inl hj,fun r c hr => by simp at hr,fun j hj => hint ▸ hj,fun j hj => by simp at hj⟩
  · exact ⟨fun q j hj => Or.inl hj,fun r c hr => by simp [Sched.back] at hr,fun j hj => hint ▸ hj,
      fun j hj => by simp [Sched.back] at hj⟩
  · refine ⟨fun q j hj => Or.inl hj,fun r c hr => Or.inl ?_,fun j hj => ?_,fun j hj => by simp at hj⟩
    · simp only [Control.sched.injEq] at hr
      exact hr.1.symm
    · simp only [stateOf, hget] at hj
      split_ifs at hj
      · simp at hj
      · rw [hint]
        exact hj

lemma wakeOne_waiters (hs : k.step (.wakeOne q) = .ok k') :
    k'.waiters = Function.update k.waiters q (k.waiters q).tail ∧ k'.control = k.control := by
  obtain ⟨k1,h1,rfl⟩ := withLock_ok hs
  obtain ⟨k2,h2,rfl⟩ := withLock_ok h1
  cases hq : k.waiters q with
  | nil =>
    obtain rfl : k.enter.enter = k2 := by simpa [enter, hq] using h2
    have hw : k.waiters = Function.update k.waiters q [] := by
      rw [← hq, Function.update_eq_self]
    exact ⟨hw,rfl⟩
  | cons id ids =>
    simp only [enter, hq] at h2
    exact wake_ok h2

/-- Every event has the effects that its kind allows. -/
theorem Inv.effect (h : Inv k) (he : k.Enabled e) (hs : k.step e = .ok k') : Effect k e k' := by
  cases e with
  | pass =>
    obtain ⟨r,c,hc⟩ := he
    simp only [Kernel.step, hc] at hs
    exact h.pass_effect hc hs
  | resume =>
    obtain ⟨a,hc⟩ := he
    simp only [Kernel.step, hc] at hs
    exact h.resume_effect hc hs
  | spawn =>
    obtain ⟨id,_,_,hc',hget⟩ := h.spawned he hs
    obtain ⟨k1,h1,rfl⟩ := withLock_ok hs
    have hw : k1.waiters = k.waiters := by
      unfold spawnInner at h1
      cases hi : k.enter.threads.insert ⟨.entry,none,.ready⟩ <;> simp [hi, bind, Except.bind, pure, Except.pure] at h1
      rw [← h1]
      rfl
    have hrun : k1.leave.control = .run := hc'.trans he.1
    refine ⟨fun q j hj => Or.inl (hw ▸ hj),fun r c hr => by simp [hrun] at hr,fun j hj => ?_,
      fun j hj => by simp [hrun] at hj⟩
    rw [intent_run he.1]
    simp only [stateOf, hget] at hj ⊢
    split_ifs at hj
    · simp at hj
    · exact hj
  | activate p =>
    cases hs
    refine ⟨fun q j hj => Or.inl hj,fun r c hr => ?_,fun j hj => ?_,fun j hj => ?_⟩
    · have : k.control = .sched r c := hr
      simp [he.1] at this
    · rw [intent_run he.1]
      exact hj
    · have : k.control = .resumed (.cleanup j) := hj
      simp [he.1] at this
  | threadYield =>
    have hf := step_frozen rfl hs
    cases hs
    exact .enterSched he.1 hf (fun q j hj => Or.inl hj) rfl (Or.inl rfl)
  | threadExit | threadSleep _ =>
    have hf := step_frozen rfl hs
    cases hs
    exact .enterSched he.1 hf (fun q j hj => Or.inl hj) rfl (Or.inr rfl)
  | sleepUntil q =>
    have hf := step_frozen rfl hs
    cases hs
    refine .enterSched he.1 hf (fun q' j hj => ?_) rfl (Or.inr rfl)
    by_cases hq : q' = q
    · subst hq
      have : j ∈ k.waiters q' ∨ j = k.mach.currentThreadId := by simpa [leave, enter] using hj
      exact this.imp_right fun h => ⟨rfl,h⟩
    · exact Or.inl (by simpa [leave, enter, hq] using hj)
  | wakeOne q =>
    obtain ⟨hw,hc⟩ := wakeOne_waiters hs
    refine .quiet he.1 (step_frozen rfl hs) (fun q' j hj => ?_) (Or.inl (hc.trans he.1))
    by_cases hq : q' = q
    · subst hq
      rw [hw, Function.update_self] at hj
      exact List.mem_of_mem_tail hj
    · rwa [hw, Function.update_of_ne hq] at hj
  | wakeAll q =>
    have hf := step_frozen rfl hs
    obtain ⟨k1,h1,rfl⟩ := withLock_ok hs
    obtain ⟨k2,h2,rfl⟩ := withLock_ok h1
    obtain ⟨hw,hc⟩ := wakeList_ok h2
    refine .quiet he.1 hf (fun q' j hj => ?_) (Or.inl (hc.trans he.1))
    have hj : j ∈ Function.update k.waiters q [] q' := by
      have : j ∈ k2.waiters q' := hj
      rwa [hw] at this
    by_cases hq : q' = q
    · simp [hq] at hj
    · rwa [Function.update_of_ne hq] at hj
  | runClosure =>
    have hf := step_frozen rfl hs
    simp only [Kernel.step] at hs
    split at hs
    · obtain ⟨k1,h1,rfl⟩ := withLock_ok hs
      obtain ⟨hw,hc⟩ := wake_ok h1
      exact .quiet he.1 hf (fun q j hj => hw ▸ hj) (Or.inl (hc.trans he.1))
    · cases hs
      exact .quiet he.1 hf (fun q j hj => hj) (Or.inl he.1)
  | timerReturn =>
    have hf := step_frozen rfl hs
    obtain ⟨hw,hc⟩ := intReturn_ok hs
    exact .quiet he.1 hf (fun q j hj => hw ▸ hj) hc
  | pageFaultReturn =>
    have hf := step_frozen rfl hs
    obtain ⟨hw,hc⟩ := intReturn_ok hs
    exact .quiet he.1 hf (fun q j hj => hw ▸ hj) hc
  | popClosure =>
    have hf := step_frozen rfl hs
    simp only [Kernel.step] at hs
    split at hs <;> cases hs <;> exact .quiet he.1 hf (fun q j hj => hj) (Or.inl he.1)
  | syscall =>
    have hf := step_frozen rfl hs
    simp only [Kernel.step, bind, Except.bind, assert] at hs
    split_ifs at hs
    cases hs
    exact .quiet he.1 hf (fun q j hj => hj) (Or.inl he.1)
  | pageFault =>
    have hf := step_frozen rfl hs
    cases hs
    exact .quiet he hf (fun q j hj => hj) (Or.inl he)
  | lock | unlock | runLater _ | launch | sysret | timerInterrupt =>
    have hf := step_frozen rfl hs
    cases hs
    exact .quiet he.1 hf (fun q j hj => hj) (Or.inl he.1)

end Lilith.Sched
