import Lilith.Tasks.Executor
import Lilith.Sched.Effects

/-! No wake-up is lost between tasks, the executor thread and its wait queue. -/
namespace Lilith.Tasks
open Sched (stateOf viewOf)

variable {F : Type} {s s' : System F} {k : Sched.Kernel} {f : F} {id : ℕ}

/-- The lock of the executor makes no difference to what `wake_one` does. -/
lemma withLock_wakeOne (h : Sched.Inv k) (hc : k.control = .run) (q : ℕ) :
    ∃ k', k.step (.wakeOne q) = .ok k' ∧ k.withLock (·.step (.wakeOne q)) = .ok k' ∧ Sched.Inv k' := by
  have hs := (h.run hc).2.2
  cases hq : k.waiters q with
  | nil =>
    exact ⟨k,Sched.wakeOne_nil hs hq,
      Sched.withLock_eq hs (Sched.wakeOne_nil (Sched.synced_enter k) hq),h⟩
  | cons id ids =>
    obtain ⟨t,ht,hts,hinv⟩ := h.wakeWaiter hc hq
    exact ⟨_,Sched.wakeOne_cons hs hq ht hts,
      Sched.withLock_eq (by exact hs) (Sched.wakeOne_cons (Sched.synced_enter k) hq ht hts),hinv⟩

lemma withLock_ok_self (h : Sched.Inv k) (hc : k.control = .run) : k.withLock .ok = .ok k :=
  Sched.withLock_eq (h.run hc).2.2 rfl

/-- A thread waits in the queue of the executor only, and does not sleep. -/
def WaitsHere (k : Sched.Kernel) (thread : ℕ) : Prop :=
  (∀ q, q ≠ EXECUTOR_WAIT → thread ∉ k.waiters q) ∧ (viewOf k).intent thread ≠ some .sleeping

lemma WaitsHere.step {e : Sched.Event} {k' : Sched.Kernel} {thread : ℕ} (h : WaitsHere k thread) (hi : Sched.Inv k)
    (he : k.Enabled e) (hs : k.step e = .ok k')
    (hidle : k.mach.currentThreadId = thread → e.reason? = none ∨ e = .sleepUntil EXECUTOR_WAIT) :
    WaitsHere k' thread := by
  have heff := hi.effect he hs
  refine ⟨fun q hq hm => ?_,fun hsl => ?_⟩
  · rcases heff.waiters q _ hm with hm | ⟨rfl,hcur⟩
    · exact h.1 q hq hm
    · rcases hidle hcur.symm with hr | hr
      · simp [Sched.Event.reason?] at hr
      · exact hq (by simpa using hr)
  · rcases Sched.sleeping_of_intent hsl with hst | ⟨c,hc,hcur⟩
    · exact h.2 (heff.sleeping _ hst)
    · rcases heff.control _ c hc with hy | ⟨hr,hsame⟩
      · simp at hy
      · rcases hidle (hsame.symm.trans hcur.symm) with hn | rfl
        · simp [hn] at hr
        · simp [Sched.Event.reason?] at hr

lemma WaitsHere.wakeOne {k' : Sched.Kernel} {thread q : ℕ} (h : WaitsHere k thread) (hi : Sched.Inv k) (hc : k.control = .run)
    (hin : k.inKernel = true) (hk : k.withLock (·.step (.wakeOne q)) = .ok k') : WaitsHere k' thread := by
  obtain ⟨k1,hstep,hlock,_⟩ := withLock_wakeOne hi hc q
  obtain rfl : k1 = k' := Except.ok.inj (hlock.symm.trans hk)
  have he : k.Enabled (.wakeOne q) := ⟨hc,hin⟩
  exact h.step hi he hstep fun _ => Or.inl rfl

namespace System

structure Inv (s : System F) : Prop where
  kernel : Sched.Inv s.kernel
  tasks : s.tasks.Inv
  alive : (s.kernel.threads.get s.thread).isSome
  busy : s.thread ≠ Sched.IDLE_THREAD_ID
  exits : ∀ c, s.kernel.control = .sched .exiting c → s.kernel.mach.currentThreadId ≠ s.thread
  kept : s.kernel.control ≠ .resumed (.cleanup s.thread)
  queue : ∀ j ∈ s.kernel.waiters EXECUTOR_WAIT, j = s.thread
  awake : s.tasks.executor.ready ≠ [] → s.thread ∉ s.kernel.waiters EXECUTOR_WAIT
  /-- outside of a poll the executor thread waits in its own queue only -/
  idle : s.tasks.pc = .idle → WaitsHere s.kernel s.thread

/-- The running thread is in no wait queue. -/
lemma Inv.current (h : Inv s) (hc : s.kernel.control = .run) (ht : s.kernel.mach.currentThreadId = s.thread) :
    (∀ q, s.thread ∉ s.kernel.waiters q) ∧ (viewOf s.kernel).intent s.thread ≠ some .sleeping := by
  have hcons := h.kernel.consistent hc
  have hrun := (hcons.running s.thread).mpr ht.symm
  refine ⟨fun q hq => ?_,fun hsl => ?_⟩
  · have := hcons.waiters q _ hq
    simp [hrun] at this
  · rw [Sched.intent_run hc, hrun] at hsl
    simp at hsl

/-- A step of the scheduler. -/
lemma Inv.kernelStep {e : Sched.Event} {k' : Sched.Kernel} (h : Inv s) (he : s.kernel.Enabled e)
    (hs : s.kernel.step e = .ok k') (hexit : e = .threadExit → s.kernel.mach.currentThreadId ≠ s.thread)
    (hwait : e = .sleepUntil EXECUTOR_WAIT →
      s.kernel.mach.currentThreadId = s.thread ∧ s.tasks.executor.ready = [])
    (hidle : s.tasks.pc = .idle → s.kernel.mach.currentThreadId = s.thread →
      e.reason? = none ∨ e = .sleepUntil EXECUTOR_WAIT) : Inv { s with kernel := k' } := by
  obtain ⟨k1,hk1,hinv⟩ := h.kernel.step he
  obtain rfl : k1 = k' := Except.ok.inj (hk1.symm.trans hs)
  have heff := h.kernel.effect he hs
  refine ⟨hinv,h.tasks,?_,h.busy,fun c hc hcur => ?_,fun hc => ?_,fun j hj => ?_,fun hr hm => ?_,
    fun hpc => (h.idle hpc).step h.kernel he hs (hidle hpc)⟩
  · rw [Option.isSome_iff_ne_none]
    exact fun hgone => h.kept (h.kernel.removed he hs h.alive hgone)
  · rcases heff.control _ c hc with hy | ⟨hr,hsame⟩
    · simp at hy
    · have : e = .threadExit := by cases e <;> simp_all [Sched.Event.reason?]
      exact hexit this (hsame.symm.trans hcur)
  · obtain ⟨c,hc',hcur⟩ := heff.cleanup _ hc
    exact h.exits c hc' hcur.symm
  · rcases heff.waiters _ j hj with hj | ⟨rfl,rfl⟩
    · exact h.queue j hj
    · exact (hwait rfl).1
  · rcases heff.waiters _ _ hm with hm | ⟨rfl,_⟩
    · exact h.awake hr hm
    · exact hr (hwait rfl).2

/-- A change of the tasks. -/
lemma Inv.tasksStep {tasks : TaskSystem F} (h : Inv s) (hi : tasks.Inv)
    (hawake : tasks.executor.ready ≠ [] → s.thread ∉ s.kernel.waiters EXECUTOR_WAIT)
    (hidle : tasks.pc = .idle → s.tasks.pc = .idle ∨
      s.kernel.control = .run ∧ s.kernel.mach.currentThreadId = s.thread) : Inv { s with tasks := tasks } := by
  refine { h with tasks := hi, awake := hawake, idle := fun hpc => ?_ }
  rcases hidle hpc with hpc | ⟨hc,ht⟩
  · exact h.idle hpc
  · exact ⟨fun q _ => (h.current hc ht).1 q,(h.current hc ht).2⟩

/-- `wake_one` leaves no one in the queue of the executor. -/
lemma Inv.wakeExecutor (h : Inv s) (hc : s.kernel.control = .run) (hk : s.kernel.inKernel = true) :
    ∃ k', s.withExecutor (·.step (.wakeOne EXECUTOR_WAIT)) = .ok k' ∧ Inv { s with kernel := k' } ∧
      s.thread ∉ k'.waiters EXECUTOR_WAIT := by
  obtain ⟨k',hk',hlock,_⟩ := withLock_wakeOne h.kernel hc EXECUTOR_WAIT
  have he : s.kernel.Enabled (.wakeOne EXECUTOR_WAIT) := ⟨hc,hk⟩
  refine ⟨k',hlock,h.kernelStep he hk' (by simp) (by simp) (fun _ _ => Or.inl rfl),fun hm => ?_⟩
  rw [(Sched.wakeOne_waiters hk').1, Function.update_self] at hm
  have hnd := h.kernel.view.waiters_nodup EXECUTOR_WAIT
  rw [show (viewOf s.kernel).waiters = s.kernel.waiters from rfl] at hnd
  cases hw : s.kernel.waiters EXECUTOR_WAIT with
  | nil => simp [hw] at hm
  | cons j ids =>
    have hj := h.queue j (by simp [hw])
    rw [hw, List.nodup_cons] at hnd
    rw [hw, List.tail_cons] at hm
    exact hnd.1 (hj ▸ hm)

lemma Inv.taskSpawn (h : Inv s) (he : s.Enabled (.taskSpawn f)) :
    ∃ s', s.step (.taskSpawn f) = .ok s' ∧ Inv s' ∧ s.tasks.step (.spawn f) = .ok s'.tasks := by
  obtain ⟨hc,hk,hf⟩ := he
  obtain ⟨tasks,hts,hti⟩ := h.tasks.step hf
  obtain ⟨k',hk',hinv,hnot⟩ := h.wakeExecutor hc hk
  refine ⟨⟨k',tasks,s.thread⟩,?_,hinv.tasksStep hti (fun _ => hnot) fun hpc => Or.inl ?_,hts⟩
  · simp [step, hts, hk', bind, Except.bind, pure, Except.pure]
  · obtain ⟨x,_,hx⟩ : ∃ x, s.tasks.executor.spawn f = .ok x ∧
        { s.tasks with executor := x, spawned := f :: s.tasks.spawned } = tasks := by
      simp only [TaskSystem.step, bind, Except.bind] at hts
      split at hts
      · simp at hts
      · rename_i x hx
        exact ⟨x,hx,Except.ok.inj hts⟩
    rw [← hx] at hpc
    exact hpc

lemma Inv.wake (h : Inv s) (he : s.Enabled (.wake id)) : ∃ s', s.step (.wake id) = .ok s' ∧ Inv s' ∧
    s'.tasks = { s.tasks with executor := (s.tasks.executor.wake id).1 } := by
  obtain ⟨hc,hk⟩ := he
  have hti := h.tasks.wake id
  by_cases hw : (s.tasks.executor.wake id).2 = true
  · obtain ⟨k',hk',hinv,hnot⟩ := h.wakeExecutor hc hk
    refine ⟨⟨k',_,s.thread⟩,?_,hinv.tasksStep hti (fun _ => hnot) Or.inl,rfl⟩
    simp [step, TaskSystem.step, hw, hk', bind, Except.bind, pure, Except.pure]
  · have hsame : (s.tasks.executor.wake id).1.ready = s.tasks.executor.ready := by
      unfold Executor.wake at hw ⊢
      split at hw <;> simp at hw <;> rfl
    refine ⟨⟨s.kernel,_,s.thread⟩,?_,h.tasksStep hti (fun hr => h.awake (hsame ▸ hr)) Or.inl,rfl⟩
    have hlock := withLock_ok_self h.kernel hc
    simp only [step, TaskSystem.step, hw, withExecutor, bind, Except.bind, pure, Except.pure]
    simp [hlock]

lemma Inv.sleepEnabled (h : Inv s) (he : s.executorRuns) : s.kernel.Enabled (.sleepUntil EXECUTOR_WAIT) := by
  obtain ⟨hc,ht,hfs⟩ := he
  refine ⟨hc,by simp [Sched.Kernel.inKernel, hfs, Sched.Frame.isKernel],by simp [hfs, Sched.Frame.liveGuards, Sched.Frame.guards],?_⟩
  rw [ht]
  exact h.busy

lemma Inv.check (h : Inv s) (he : s.Enabled .check) : ∃ s', s.step .check = .ok s' ∧ Inv s' := by
  obtain ⟨⟨hc,ht,hfs⟩,hpc⟩ := he
  by_cases hr : s.tasks.executor.ready = []
  · have he := h.sleepEnabled ⟨hc,ht,hfs⟩
    obtain ⟨k',hk',_⟩ := h.kernel.step he
    refine ⟨⟨k',s.tasks,s.thread⟩,by simp [step, hr, hk', bind, Except.bind, pure, Except.pure],?_⟩
    exact h.kernelStep he hk' (by simp) (fun _ => ⟨ht,hr⟩) (fun _ _ => Or.inr rfl)
  · obtain ⟨tasks,hts,hti⟩ := h.tasks.take hpc hr
    refine ⟨⟨s.kernel,tasks,s.thread⟩,?_,h.tasksStep hti (fun _ => (h.current hc ht).1 _) fun _ => Or.inr ⟨hc,ht⟩⟩
    simp [step, hr, hts, withExecutor, withLock_ok_self h.kernel hc, bind, Except.bind, pure, Except.pure]

lemma Inv.finish (h : Inv s) {result : Poll} (he : s.Enabled (.finish result)) :
    ∃ s', s.step (.finish result) = .ok s' ∧ Inv s' ∧ s.tasks.step (.finish result) = .ok s'.tasks := by
  obtain ⟨⟨hc,ht,_⟩,hpc⟩ := he
  obtain ⟨tasks,hts,hti⟩ := h.tasks.finish hpc result
  refine ⟨⟨s.kernel,tasks,s.thread⟩,?_,h.tasksStep hti (fun _ => (h.current hc ht).1 _) (fun _ => Or.inr ⟨hc,ht⟩),hts⟩
  simp [step, hts, withExecutor, withLock_ok_self h.kernel hc, bind, Except.bind, pure, Except.pure]

lemma Inv.other {e : Sched.Event} (h : Inv s) (he : s.Enabled (.kernel e)) :
    ∃ s', s.step (.kernel e) = .ok s' ∧ Inv s' ∧ s'.tasks = s.tasks := by
  obtain ⟨he,hal⟩ := he
  obtain ⟨k',hk',_⟩ := h.kernel.step he
  refine ⟨⟨k',s.tasks,s.thread⟩,by simp [step, hk', bind, Except.bind, pure, Except.pure],
    h.kernelStep he hk' ?_ ?_ ?_,rfl⟩
  · rintro rfl
    exact hal
  · rintro rfl
    exact absurd rfl hal.1
  · intro hpc ht
    cases e with
    | threadExit => exact absurd ht hal
    | threadSleep d => exact absurd hpc (hal ht)
    | sleepUntil q => exact absurd hpc (hal.2 ht)
    | _ => exact Or.inl rfl

theorem Inv.step (h : Inv s) {e : Event F} (he : s.Enabled e) : ∃ s', s.step e = .ok s' ∧ Inv s' := by
  cases e with
  | kernel e =>
    obtain ⟨s',hs',hinv,_⟩ := h.other he
    exact ⟨s',hs',hinv⟩
  | taskSpawn f =>
    obtain ⟨s',hs',hinv,_⟩ := h.taskSpawn he
    exact ⟨s',hs',hinv⟩
  | wake id =>
    obtain ⟨s',hs',hinv,_⟩ := h.wake he
    exact ⟨s',hs',hinv⟩
  | check => exact h.check he
  | finish result =>
    obtain ⟨s',hs',hinv,_⟩ := h.finish he
    exact ⟨s',hs',hinv⟩

lemma inv_started {thread : ℕ} (h : Started k thread) : Inv (⟨k,.new,thread⟩ : System F) := by
  obtain ⟨k0,hr,he,hs,hnone,hsome,hw⟩ := h.before
  have h0 := Sched.inv_of_reach hr
  obtain ⟨k1,hk1,hinv⟩ := h0.step he
  obtain rfl : k1 = k := Except.ok.inj (hk1.symm.trans hs)
  obtain ⟨id,hid,_,hc,hget⟩ := h0.spawned he hs
  have hrun : k1.control = .run := hc.trans he.1
  obtain rfl : thread = id := by
    by_contra hne
    simp [hget, hne, hnone] at hsome
  have hst : stateOf k1 thread = some .ready := by simp [stateOf, hget]
  have hcons := hinv.consistent hrun
  have hout : ∀ q, thread ∉ k1.waiters q := fun q hq => by
    have := hcons.waiters q _ hq
    simp [hst] at this
  have heff := h0.effect he hs
  refine ⟨hinv,TaskSystem.inv_new,hsome,?_,by simp [hrun],by simp [hrun],fun j hj => ?_,fun hr => ?_,
    fun _ => ⟨fun q _ => hout q,?_⟩⟩
  · rintro rfl
    have := h0.view.idle
    simp [viewOf, hnone] at this
  · rcases heff.waiters _ j hj with hj | hj
    · simp [hw] at hj
    · simp at hj
  · exact absurd rfl hr
  · rw [Sched.intent_run hrun, hst]
    simp

theorem inv_of_reach (h : Reach s) : Inv s := by
  induction h with
  | init h => exact inv_started h
  | step e _ he hs ih =>
    obtain ⟨s',hs',hinv⟩ := ih.step he
    obtain rfl := Except.ok.inj (hs'.symm.trans hs)
    exact hinv

end System

/-- A run of events that can happen one after the other. -/
inductive Steps : System F → List (Event F) → System F → Prop where
  | nil (s : System F) : Steps s [] s
  | cons {s s1 s' : System F} {e : Event F} {es : List (Event F)} (he : s.Enabled e) (hs : s.step e = .ok s1)
      (h : Steps s1 es s') : Steps s (e :: es) s'

/-- The executor thread polls the task, which has been woken. -/
def Awoken (s : TaskSystem F) (id : ℕ) (f : F) : Prop :=
  s.pc = .polling id f ∧ s.stateOf id = some .executingAndAwoken

namespace TaskSystem
variable {t t' : TaskSystem F}

lemma spawn_keeps (h : t.Inv) {g : F} (hs : t.step (.spawn g) = .ok t') {u : TaskState F}
    (hid : t.stateOf id = some u) : t'.pc = t.pc ∧ t'.stateOf id = some u := by
  obtain ⟨id',v,hins,_,hnone,hget⟩ := h.valid.insert (.ready g)
  have hne : id ≠ id' := fun he => by simp [stateOf, he, hnone] at hid
  simp only [step, Executor.spawn, hins, bind, Except.bind, pure, Except.pure, Except.ok.injEq] at hs
  rw [← hs]
  refine ⟨rfl,?_⟩
  simpa [stateOf, hget, hne] using hid

lemma wake_polled (h : t.Inv) (hpc : t.pc = .polling id f) :
    stateOf { t with executor := (t.executor.wake id).1 } id = some .executingAndAwoken := by
  obtain ⟨u,hu,hx⟩ := (h.executing id).mpr ⟨f,hpc⟩
  have hu' : t.executor.tasks.get id = some u := hu
  cases u with
  | ready _ | paused _ => simp [TaskState.isExecuting] at hx
  | executing | executingAndAwoken => simp [stateOf, Executor.wake, hu', IdSparseVec.get_set hu']

lemma wake_other {j : ℕ} (hj : j ≠ id) :
    stateOf { t with executor := (t.executor.wake j).1 } id = t.stateOf id := by
  cases hu : t.executor.tasks.get j with
  | none => simp [stateOf, Executor.wake, hu]
  | some u => cases u <;> simp [stateOf, Executor.wake, hu, IdSparseVec.get_set hu, Ne.symm hj]

lemma wake_awoken (h : t.Inv) (ha : Awoken t id f) (j : ℕ) :
    Awoken { t with executor := (t.executor.wake j).1 } id f := by
  refine ⟨ha.1,?_⟩
  by_cases hj : j = id
  · rw [hj]
    exact wake_polled h ha.1
  · rw [wake_other hj]
    exact ha.2

lemma finish_awoken (ha : Awoken t id f) (hs : t.step (.finish .pending) = .ok t') :
    id ∈ t'.executor.ready := by
  have hget : t.executor.tasks.get id = some .executingAndAwoken := ha.2
  simp only [step, ha.1, Executor.finish, hget, Executor.unwrap, bind, Except.bind, pure, Except.pure,
    Except.ok.injEq] at hs
  rw [← hs]
  simp

end TaskSystem

namespace System

/-- While a task is polled, only the end of the poll changes what the executor thread has in hand. -/
lemma Inv.polling_step (h : Inv s) (hpc : s.tasks.pc = .polling id f) {e : Event F}
    (he : s.Enabled e) (hs : s.step e = .ok s') (hne : ∀ r, e ≠ .finish r) :
    s'.tasks.pc = .polling id f ∧ (Awoken s.tasks id f ∨ e = .wake id → Awoken s'.tasks id f) := by
  cases e with
  | kernel e =>
    obtain ⟨s1,hs1,_,ht⟩ := h.other he
    obtain rfl := Except.ok.inj (hs1.symm.trans hs)
    rw [ht]
    exact ⟨hpc,fun ha => ha.resolve_right (by simp)⟩
  | taskSpawn g =>
    obtain ⟨s1,hs1,_,ht⟩ := h.taskSpawn he
    obtain rfl := Except.ok.inj (hs1.symm.trans hs)
    obtain ⟨u,hu,_⟩ := (h.tasks.executing id).mpr ⟨f,hpc⟩
    have hpc' := (TaskSystem.spawn_keeps h.tasks ht hu).1
    refine ⟨hpc'.trans hpc,fun ha => ⟨hpc'.trans hpc,?_⟩⟩
    exact (TaskSystem.spawn_keeps h.tasks ht (ha.resolve_right (by simp)).2).2
  | wake j =>
    obtain ⟨s1,hs1,_,ht⟩ := h.wake he
    obtain rfl := Except.ok.inj (hs1.symm.trans hs)
    rw [ht]
    refine ⟨hpc,fun ha => ?_⟩
    rcases ha with ha | ha
    · exact TaskSystem.wake_awoken h.tasks ha j
    · obtain rfl : j = id := by simpa using ha
      exact ⟨hpc,TaskSystem.wake_polled h.tasks hpc⟩
  | check => simp [Enabled, hpc] at he
  | finish r => exact absurd rfl (hne r)

lemma Inv.polling_steps {es : List (Event F)} (h : Inv s) (hpc : s.tasks.pc = .polling id f)
    (hrun : Steps s es s') (hne : ∀ r, .finish r ∉ es) :
    Inv s' ∧ (Awoken s.tasks id f ∨ .wake id ∈ es → Awoken s'.tasks id f) := by
  induction hrun with
  | nil s => exact ⟨h,fun ha => ha.resolve_right (by simp)⟩
  | cons he hs hrun ih =>
    obtain ⟨s1,hs1,hinv⟩ := h.step he
    obtain rfl := Except.ok.inj (hs1.symm.trans hs)
    obtain ⟨hpc1,ha1⟩ := h.polling_step hpc he hs fun r hr => hne r (by simp [hr])
    obtain ⟨hinv',ha'⟩ := ih hinv hpc1 fun r hr => hne r (List.mem_cons_of_mem _ hr)
    refine ⟨hinv',fun ha => ha' ?_⟩
    rcases ha with ha | ha
    · exact Or.inl (ha1 (Or.inl ha))
    · rcases List.mem_cons.mp ha with ha | ha
      · exact Or.inl (ha1 (Or.inr ha.symm))
      · exact Or.inr ha

/-- Where the executor thread is when a task is ready and no lock is held. -/
lemma Inv.awake_state (h : Inv s) (hc : s.kernel.control = .run) (hr : s.tasks.executor.ready ≠ []) :
    stateOf s.kernel s.thread = some .running ∨ stateOf s.kernel s.thread = some .ready ∨
      s.tasks.pc ≠ .idle ∧ ((∃ q, q ≠ EXECUTOR_WAIT ∧ s.thread ∈ s.kernel.waiters q) ∨
        stateOf s.kernel s.thread = some .sleeping) := by
  have hcons := h.kernel.consistent hc
  obtain ⟨t,ht⟩ := Option.isSome_iff_exists.mp h.alive
  have hst : stateOf s.kernel s.thread = some t.state := by simp [stateOf, ht]
  cases hs : t.state with
  | running => exact Or.inl (hs ▸ hst)
  | ready => exact Or.inr (Or.inl (hs ▸ hst))
  | exiting =>
    have := (h.kernel.view.exiting s.thread).mp (hs ▸ hst)
    exact absurd this h.kept
  | waiting =>
    obtain ⟨q,hq,_⟩ := hcons.waiting s.thread (hs ▸ hst)
    have hm : s.thread ∈ s.kernel.waiters q := List.count_pos_iff.mp (by omega)
    have hq : q ≠ EXECUTOR_WAIT := fun he => h.awake hr (he ▸ hm)
    exact Or.inr (Or.inr ⟨fun hpc => (h.idle hpc).1 q hq hm,Or.inl ⟨q,hq,hm⟩⟩)
  | sleeping =>
    refine Or.inr (Or.inr ⟨fun hpc => (h.idle hpc).2 ?_,Or.inr (hs ▸ hst)⟩)
    rw [Sched.intent_run hc, hst, hs]

/-- The executor thread goes to sleep, or to another queue: it does so in polls only. -/
def Blocks (s : System F) : Event F → Prop
  | .kernel (.threadSleep _) | .kernel (.sleepUntil _) => s.kernel.mach.currentThreadId = s.thread
  | _ => False

lemma Inv.waitsHere_step (h : Inv s) (hw : WaitsHere s.kernel s.thread) {e : Event F} (he : s.Enabled e)
    (hb : ¬ s.Blocks e) (hs : s.step e = .ok s') : WaitsHere s'.kernel s'.thread := by
  have hsame : ∀ {k'}, s.kernel.control = .run → s.kernel.withLock .ok = .ok k' → k' = s.kernel := fun hc hk =>
    Except.ok.inj (hk.symm.trans (withLock_ok_self h.kernel hc))
  cases e with
  | kernel e =>
    obtain ⟨k',hk,hs⟩ := bind_ok hs
    cases hs
    refine hw.step h.kernel he.1 hk fun ht => ?_
    cases e with
    | threadExit => exact absurd ht he.2
    | threadSleep _ | sleepUntil _ => exact absurd ht hb
    | _ => exact Or.inl rfl
  | taskSpawn f =>
    obtain ⟨_,_,hs⟩ := bind_ok hs
    obtain ⟨k',hk,hs⟩ := bind_ok hs
    cases hs
    exact hw.wakeOne h.kernel he.1 he.2.1 hk
  | wake id =>
    obtain ⟨_,_,hs⟩ := bind_ok hs
    obtain ⟨k',hk,hs⟩ := bind_ok hs
    cases hs
    by_cases hwake : (s.tasks.executor.wake id).2 = true
    · simp only [hwake, if_true] at hk
      exact hw.wakeOne h.kernel he.1 he.2 hk
    · simp only [hwake] at hk
      obtain rfl := hsame he.1 hk
      exact hw
  | check =>
    unfold System.step at hs
    split_ifs at hs
    · obtain ⟨k',hk,hs⟩ := bind_ok hs
      cases hs
      exact hw.step h.kernel (h.sleepEnabled he.1) hk fun _ => Or.inr rfl
    · obtain ⟨_,_,hs⟩ := bind_ok hs
      obtain ⟨k',hk,hs⟩ := bind_ok hs
      cases hs
      obtain rfl := hsame he.1.1 hk
      exact hw
  | finish result =>
    obtain ⟨_,_,hs⟩ := bind_ok hs
    obtain ⟨k',hk,hs⟩ := bind_ok hs
    cases hs
    obtain rfl := hsame he.1.1 hk
    exact hw

end System

/-- The states of the runs in which no poll blocks. -/
inductive Unblocked : System F → Prop where
  | init {k : Sched.Kernel} {thread : ℕ} (h : Started k thread) : Unblocked ⟨k,.new,thread⟩
  | step {s s' : System F} (e : Event F) (h : Unblocked s) (he : s.Enabled e) (hb : ¬ s.Blocks e)
      (hs : s.step e = .ok s') : Unblocked s'

lemma Unblocked.reach (h : Unblocked s) : Reach s := by
  induction h with
  | init h => exact .init h
  | step e _ he _ hs ih => exact .step e ih he hs

lemma Unblocked.waitsHere (h : Unblocked s) : WaitsHere s.kernel s.thread := by
  induction h with
  | init h => exact (System.inv_started h).idle rfl
  | step e hrun he hb hs ih => exact (System.inv_of_reach hrun.reach).waitsHere_step ih he hb hs

/-- If no poll blocks, the executor thread runs or is ready when a task is. -/
lemma Unblocked.awake_state (h : Unblocked s) (hc : s.kernel.control = .run) (hr : s.tasks.executor.ready ≠ []) :
    stateOf s.kernel s.thread = some .running ∨ stateOf s.kernel s.thread = some .ready := by
  rcases (System.inv_of_reach h.reach).awake_state hc hr with hrun | hready | ⟨_,⟨q,hq,hm⟩ | hsl⟩
  · exact Or.inl hrun
  · exact Or.inr hready
  · exact absurd hm (h.waitsHere.1 q hq)
  · refine absurd ?_ h.waitsHere.2
    rw [Sched.intent_run hc, hsl]

/-- A task that is woken while it is polled is ready after a poll that is pending, a paused task that
is woken becomes ready, and while a task is ready the executor thread is not in its wait queue: it is
running or ready, unless a poll has put it to sleep elsewhere; in the runs in which no poll blocks it is
running or ready. -/
theorem no_lost_wakeup (h : Reach s) :
    (∀ id f es s', s.tasks.pc = .polling id f → Steps s es s' → .wake id ∈ es → (∀ r, .finish r ∉ es) →
      s'.Enabled (.finish .pending) →
      ∃ s'', s'.step (.finish .pending) = .ok s'' ∧ id ∈ s''.tasks.executor.ready) ∧
    (∀ id f, s.tasks.stateOf id = some (.paused f) → s.Enabled (.wake id) →
      ∃ s', s.step (.wake id) = .ok s' ∧ id ∈ s'.tasks.executor.ready) ∧
    (s.kernel.control = .run → s.tasks.executor.ready ≠ [] →
      s.thread ∉ s.kernel.waiters EXECUTOR_WAIT ∧
      (stateOf s.kernel s.thread = some .running ∨ stateOf s.kernel s.thread = some .ready ∨
        s.tasks.pc ≠ .idle ∧ ((∃ q, q ≠ EXECUTOR_WAIT ∧ s.thread ∈ s.kernel.waiters q) ∨
          stateOf s.kernel s.thread = some .sleeping)) ∧
      (Unblocked s → stateOf s.kernel s.thread = some .running ∨ stateOf s.kernel s.thread = some .ready)) := by
  have hinv := System.inv_of_reach h
  refine ⟨fun id f es s' hpc hrun hw hne he => ?_,fun id f hp he => ?_,fun hc hr =>
    ⟨hinv.awake hr,hinv.awake_state hc hr,fun hun => hun.awake_state hc hr⟩⟩
  · obtain ⟨hinv',ha⟩ := hinv.polling_steps hpc hrun hne
    obtain ⟨s'',hs'',_,ht⟩ := hinv'.finish he
    exact ⟨s'',hs'',TaskSystem.finish_awoken (ha (Or.inr hw)) ht⟩
  · obtain ⟨s',hs',_,ht⟩ := hinv.wake he
    have hget : s.tasks.executor.tasks.get id = some (.paused f) := hp
    exact ⟨s',hs',by simp [ht, Executor.wake, hget]⟩

/-- The kernel in which `tasks::init` has spawned the executor thread. -/
lemma started : ∃ k, Started k 1 ∧ Sched.Kernel.start.run [.unlock,.spawn] = some k := by
  refine ⟨_,⟨_,Sched.reach_run Sched.reach_start (rfl : Sched.Kernel.start.run [.unlock] = some _),?_,rfl,rfl,rfl,rfl⟩,rfl⟩
  exact ⟨rfl,rfl⟩

/-- The executor thread polls its first task when the task is woken. -/
theorem no_lost_wakeup_polled : ∃ s : System ℕ, Reach s ∧ s.tasks.pc = .polling 0 7 ∧
    ∃ s', s.step (.wake 0) = .ok s' ∧
      ∃ s'', s'.step (.finish .pending) = .ok s'' ∧ 0 ∈ s''.tasks.executor.ready := by
  obtain ⟨k,hk,hrun⟩ := started
  obtain rfl := Option.some.inj hrun
  have h1 : Reach _ := .step (.taskSpawn 7) (.init hk) ⟨rfl,rfl,List.not_mem_nil⟩ rfl
  have h2 : Reach _ := .step (.kernel .threadYield) h1 ⟨by decide,trivial⟩ rfl
  have h3 : Reach _ := .step (.kernel .pass) h2 ⟨⟨_,_,rfl⟩,trivial⟩ rfl
  have h4 : Reach _ := .step (.kernel .resume) h3 ⟨⟨_,rfl⟩,trivial⟩ rfl
  have h5 : Reach _ := .step .check h4 ⟨⟨rfl,rfl,rfl⟩,rfl⟩ rfl
  refine ⟨_,h5,rfl,_,rfl,?_⟩
  refine (no_lost_wakeup h5).1 0 7 [.wake 0] _ rfl (.cons ⟨rfl,rfl⟩ rfl (.nil _)) (by simp) (by simp) ?_
  exact ⟨⟨rfl,rfl,rfl⟩,by simp⟩

end Lilith.Tasks
