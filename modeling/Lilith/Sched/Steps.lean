import Lilith.Sched.Threads

/-! Every step of the machine succeeds and keeps its invariant. -/
namespace Lilith.Sched
open Kernel

variable {k k' : Kernel} {fs : List Frame} {c : Caller} {r : SchedReason} {id q : ℕ}

def Closure.target : Closure → Option ℕ
  | .wake id => some id
  | .other => none

def Frame.popped : Frame → Option Closure
  | .handler _ _ _ c => c
  | _ => none

def timerIds (ts : List (TimerEvent Closure)) : List ℕ := ts.filterMap fun t => t.closure.target

def poppedIds (fs : List Frame) : List ℕ := fs.filterMap fun f => f.popped.bind Closure.target

/-- The threads that a closure of `thread_sleep` will wake: one in the timer queue, or one that a
handler has popped and not run yet. -/
def wakeIds (k : Kernel) : List ℕ := timerIds k.timers ++ poppedIds k.frames

def viewOf (k : Kernel) : SchedView where
  state id := (k.threads.get id).map SchedThread.state
  current := k.mach.currentThreadId
  ready := k.ready
  waiters := k.waiters
  sleepers := wakeIds k
  control := k.control

/-- The thread is not running, or it was just switched to. -/
def Parked (k : Kernel) (t : SchedThread) : Prop := t.state ≠ .running ∨ ∃ a, k.control = .resumed a

/-- A thread that is not running has somewhere to go on, and the idle thread is in `sched()` to
yield. -/
structure RegsOk (k : Kernel) : Prop where
  some_regs : ∀ id t, k.threads.get id = some t → Parked k t → t.regs ≠ .default
  idle : ∀ t, k.threads.get IDLE_THREAD_ID = some t → Parked k t → ∃ c fs, t.regs = .sched .yielding c fs

structure Inv (k : Kernel) : Prop where
  irq : IrqInv k
  view : (viewOf k).Inv
  regs : RegsOk k

lemma popped_of_liveGuards (h : liveGuards fs = 0) : poppedIds fs = [] := by
  induction fs with
  | nil => rfl
  | cons f fs ih =>
    rw [liveGuards_cons] at h
    have hf : f.popped = none := by
      cases f <;> simp [Frame.liveGuards, Frame.popped] at h ⊢
    simp only [poppedIds, List.filterMap_cons, hf, Option.bind_none]
    exact ih (by omega)

lemma Suspended.popped (h : Suspended c fs) : poppedIds fs = [] := by
  cases c with
  | thread => exact popped_of_liveGuards h.guards
  | handler =>
    obtain ⟨kind,fs',rfl,h0⟩ := h.guards
    have := popped_of_liveGuards h0
    simpa [poppedIds, Frame.popped] using this

lemma timerIds_cons (t : TimerEvent Closure) (ts : List (TimerEvent Closure)) :
    timerIds (t :: ts) = t.closure.target.toList ++ timerIds ts := by
  cases h : t.closure.target <;> simp [timerIds, h]

lemma timerIds_insert (n : ℕ) (cl : Closure) (ts : List (TimerEvent Closure)) :
    (timerIds (TimerQueue.insert n cl ts)).Perm (cl.target.toList ++ timerIds ts) := by
  induction ts generalizing n with
  | nil => simp [TimerQueue.insert, timerIds_cons]
  | cons t ts ih =>
    unfold TimerQueue.insert
    split_ifs with h
    · simp only [timerIds_cons]
      exact List.Perm.refl _
    · simp only [timerIds_cons]
      refine ((ih (n - t.delta)).append_left _).trans ?_
      rw [← List.append_assoc, ← List.append_assoc]
      exact List.perm_append_comm.append_right _

lemma timerIds_tick (ts : List (TimerEvent Closure)) : timerIds (TimerQueue.tick ts) = timerIds ts := by
  cases ts with
  | nil => rfl
  | cons t ts => simp [TimerQueue.tick, timerIds_cons]

/-- A step outside of `sched()` that leaves the threads alone. -/
lemma Inv.quiet (h : Inv k) (hc : k.control = .run) (ht : k'.threads = k.threads)
    (hr : k'.ready = k.ready) (hw : k'.waiters = k.waiters)
    (hcur : k'.mach.currentThreadId = k.mach.currentThreadId) (hc' : k'.control = .run)
    (hs : (wakeIds k').Perm (wakeIds k))
    (hirq : Grounded k'.frames ∧ k'.mach.irqLockCount = liveGuards k'.frames ∧ Synced k') : Inv k' := by
  refine ⟨⟨ht ▸ h.irq.valid,ht ▸ h.irq.saved,by simpa only [hc'] using hirq⟩,?_,?_⟩
  · have : viewOf k' = { viewOf k with sleepers := wakeIds k' } := by
      simp [viewOf, ht, hr, hw, hcur, hc', hc]
    rw [this]
    exact h.view.perm hs
  · have hp : ∀ t, Parked k' t → Parked k t := fun t ht' => by simpa [Parked, hc, hc'] using ht'
    exact ⟨fun id t h1 h2 => h.regs.some_regs id t (ht ▸ h1) (hp t h2),
      fun t h1 h2 => h.regs.idle t (ht ▸ h1) (hp t h2)⟩

lemma Inv.run (h : Inv k) (hc : k.control = .run) :
    Grounded k.frames ∧ k.mach.irqLockCount = liveGuards k.frames ∧ Synced k := by
  have := h.irq.here
  simpa only [hc] using this

lemma poppedIds_cons (f : Frame) (fs : List Frame) :
    poppedIds (f :: fs) = (f.popped.bind Closure.target).toList ++ poppedIds fs := by
  cases h : f.popped.bind Closure.target <;> simp [poppedIds, h]

lemma Grounded.withGuards {f : Frame} (h : Grounded (f :: fs)) (n : ℕ) : Grounded (f.withGuards n :: fs) := by
  cases h with
  | body => exact .body n
  | user => exact .user
  | syscall => exact .syscall n
  | handler h kind _ c hs => exact .handler h kind n c hs

lemma Frame.popped_withGuards (f : Frame) (n : ℕ) : (f.withGuards n).popped = f.popped := by
  cases f <;> rfl

lemma Frame.liveGuards_withGuards {f : Frame} (h : f.isKernel = true) (n : ℕ) :
    (f.withGuards n).liveGuards + f.guards = f.liveGuards + n := by
  cases f <;> simp [Frame.isKernel, Frame.withGuards, Frame.liveGuards, Frame.guards] at h ⊢ <;> omega

/-- Taking a guard in kernel code. -/
lemma Inv.lock (h : Inv k) (hc : k.control = .run) (hk : k.inKernel = true) :
    Inv (k.enter.mapGuards (· + 1)) := by
  obtain ⟨hg,hn,_⟩ := h.run hc
  cases hfs : k.frames with
  | nil => simp [inKernel, hfs] at hk
  | cons f fs =>
    have hfk : f.isKernel = true := by simpa [inKernel, hfs] using hk
    have hlive := Frame.liveGuards_withGuards hfk (f.guards + 1)
    rw [hfs] at hg hn
    rw [liveGuards_cons] at hn
    refine h.quiet hc rfl rfl rfl rfl hc ?_ ⟨?_,?_,?_⟩
    · simp [wakeIds, mapGuards, enter, hfs, poppedIds_cons, Frame.popped_withGuards]
    · simpa [mapGuards, enter, hfs] using hg.withGuards _
    · simp only [mapGuards, enter, hfs, liveGuards_cons]
      omega
    · simp [Synced, mapGuards, enter]

/-- Dropping a guard. -/
lemma Inv.unlock {f : Frame} (h : Inv k) (hc : k.control = .run) (hfs : k.frames = f :: fs)
    (hpos : 0 < f.guards) : Inv (k.leave.mapGuards (· - 1)) := by
  obtain ⟨hg,hn,hf⟩ := h.run hc
  have hfk : f.isKernel = true := by cases f <;> simp [Frame.guards, Frame.isKernel] at hpos ⊢
  have hlive := Frame.liveGuards_withGuards hfk (f.guards - 1)
  rw [hfs] at hg hn
  rw [liveGuards_cons] at hn
  refine h.quiet hc rfl rfl rfl rfl hc ?_ ⟨?_,?_,?_⟩
  · simp [wakeIds, mapGuards, leave, hfs, poppedIds_cons, Frame.popped_withGuards]
  · simpa [mapGuards, leave, hfs] using hg.withGuards _
  · simp only [mapGuards, leave, hfs, liveGuards_cons]
    omega
  · have hle : f.guards ≤ f.liveGuards := by cases f <;> simp [Frame.guards, Frame.liveGuards]
    have hcount : 0 < k.mach.irqLockCount := by omega
    unfold Synced at hf
    simp only [Synced, mapGuards, leave]
    split_ifs with h1
    · simp [h1]
    · rw [hf]
      omega

lemma Inv.enterInt (h : Inv k) (hc : k.control = .run) (kind : Interrupt) : Inv (k.enterInt kind) := by
  obtain ⟨hg,hn,hf⟩ := h.run hc
  refine h.quiet hc rfl rfl rfl rfl hc ?_ ⟨?_,?_,?_⟩
  · simp [wakeIds, Kernel.enterInt, enter, poppedIds_cons, Frame.popped]
  · refine .handler hg kind 0 none ?_
    rw [Bool.eq_iff_iff, decide_eq_true_iff, ← hn]
    exact hf
  · simp [Kernel.enterInt, enter, Frame.liveGuards, hn, add_comm]
  · simp [Synced, Kernel.enterInt, enter]

/-! The threads that become ready. -/

lemma withLock_eq {f : Kernel → Except Fault Kernel} (hs : Synced k') (hf : f k.enter = .ok k'.enter) :
    k.withLock f = .ok k' := by
  simp [withLock, hf, leave_enter hs, bind, Except.bind, pure, Except.pure]

lemma SavedOk.set {v : IdSparseVec SchedThread} {t t' : SchedThread} (h : SavedOk v)
    (ht : v.get id = some t) (hr : t'.regs = t.regs) : SavedOk (v.set id t') := by
  intro j u hu
  rw [IdSparseVec.get_set ht] at hu
  split_ifs at hu with hj
  · cases hu
    rw [hr]
    exact h id t ht
  · exact h j u hu

/-- The kernel with thread `id` made ready. -/
def readied (k : Kernel) (id : ℕ) (t : SchedThread) : Kernel :=
  { k with threads := k.threads.set id { t with state := .ready }, ready := k.ready ++ [id] }

lemma wake_eq {t : SchedThread} (ht : k.threads.get id = some t)
    (hs : t.state = .waiting ∨ t.state = .sleeping) : k.wake id = .ok (readied k id t) := by
  simp [Kernel.wake, ht, unwrap, hs, bind, Except.bind, pure, Except.pure, readied]

lemma viewOf_readied {t : SchedThread} (ht : k.threads.get id = some t) :
    viewOf (readied k id t) = (viewOf k).makeReady id := by
  have hst : (fun j => ((k.threads.set id { t with state := .ready }).get j).map SchedThread.state) =
      Function.update (fun j => (k.threads.get j).map SchedThread.state) id (some .ready) := by
    funext j
    rw [IdSparseVec.get_set ht, Function.update_apply]
    split_ifs <;> rfl
  simp only [viewOf, readied, SchedView.makeReady, hst]
  rfl

/-- A thread that is not running becomes ready. -/
lemma Inv.readied {t : SchedThread} (h : Inv k) (hc : k.control = .run) (ht : k.threads.get id = some t)
    (hst : t.state ≠ .running) (hk : k' = readied { k with waiters := k'.waiters, frames := k'.frames } id t)
    (hirq : Grounded k'.frames ∧ k.mach.irqLockCount = liveGuards k'.frames ∧ Synced k)
    (hv : (viewOf k').Inv) : Inv k' := by
  have hth : k'.threads = k.threads.set id { t with state := .ready } := by rw [hk]; rfl
  have hc' : k'.control = .run := by rw [hk]; exact hc
  have hm : k'.mach = k.mach := by rw [hk]; rfl
  have hp : ∀ u, Parked k' u ↔ u.state ≠ .running := fun u => by simp [Parked, hc']
  have hp' : ∀ u, Parked k u ↔ u.state ≠ .running := fun u => by simp [Parked, hc]
  refine ⟨⟨hth ▸ IdSparseVec.valid_set h.irq.valid ht,hth ▸ h.irq.saved.set ht rfl,?_⟩,hv,⟨?_,?_⟩⟩
  · simp only [hc', Synced, hm]
    exact hirq
  · intro j u hu hpu
    rw [hth, IdSparseVec.get_set ht] at hu
    split_ifs at hu with hj
    · cases hu
      exact h.regs.some_regs id t ht ((hp' t).mpr hst)
    · exact h.regs.some_regs j u hu ((hp' u).mpr ((hp u).mp hpu))
  · intro u hu hpu
    rw [hth, IdSparseVec.get_set ht] at hu
    split_ifs at hu with hj
    · cases hu
      exact h.regs.idle t (hj ▸ ht) ((hp' t).mpr hst)
    · exact h.regs.idle u hu ((hp' u).mpr ((hp u).mp hpu))

lemma thread_of_state {s : ThreadState} (h : (viewOf k).state id = some s) :
    ∃ t, k.threads.get id = some t ∧ t.state = s := by
  simpa [viewOf] using h

lemma Inv.spawn (h : Inv k) (hc : k.control = .run) :
    ∃ k', k.withLock spawnInner = .ok k' ∧ Inv k' ∧ k'.mach = k.mach ∧ k'.control = k.control ∧
      ∃ id, k.threads.get id = none ∧ ∀ j, k'.threads.get j =
        if j = id then some ⟨.entry,none,.ready⟩ else k.threads.get j := by
  obtain ⟨id,v',hins,hval,hnone,hget⟩ := h.irq.valid.insert ⟨.entry,none,.ready⟩
  have hirq := h.run hc
  refine ⟨{ k with threads := v', ready := k.ready ++ [id] },withLock_eq hirq.2.2 ?_,⟨⟨hval,?_,?_⟩,?_,⟨?_,?_⟩⟩,
    rfl,rfl,id,hnone,hget⟩
  · simp [spawnInner, enter, hins, bind, Except.bind, pure, Except.pure]
  · intro j u hu r c fs hr
    simp only [hget] at hu
    split_ifs at hu with hj
    · cases hu
      simp at hr
    · exact h.irq.saved j u hu r c fs hr
  · simp only [hc]
    exact hirq
  · have hst : (fun j => (v'.get j).map SchedThread.state) =
        Function.update (fun j => (k.threads.get j).map SchedThread.state) id (some .ready) := by
      funext j
      rw [hget, Function.update_apply]
      split_ifs <;> rfl
    have : viewOf { k with threads := v', ready := k.ready ++ [id] } = (viewOf k).makeReady id := by
      simp only [viewOf, SchedView.makeReady, hst]
      rfl
    rw [this]
    exact h.view.spawn hc (by simp [viewOf, hnone])
  · intro j u hu hpu
    simp only [hget] at hu
    split_ifs at hu with hj
    · cases hu
      simp
    · exact h.regs.some_regs j u hu hpu
  · intro u hu hpu
    simp only [hget] at hu
    split_ifs at hu with hj
    · have : (viewOf k).state IDLE_THREAD_ID = none := by simp [viewOf, hj, hnone]
      simpa [this] using h.view.idle
    · exact h.regs.idle u hu hpu

/-- The first thread of a wait queue wakes up. -/
lemma Inv.wakeWaiter {ids : List ℕ} (h : Inv k) (hc : k.control = .run) (hq : k.waiters q = id :: ids) :
    ∃ t, k.threads.get id = some t ∧ t.state = .waiting ∧
      Inv (Sched.readied { k with waiters := Function.update k.waiters q ids } id t) := by
  have hst := h.view.of_waiting hc (show id ∈ (viewOf k).waiters q by simp [viewOf, hq])
  obtain ⟨t,ht,hts⟩ := thread_of_state hst
  refine ⟨t,ht,hts,h.readied hc ht (by simp [hts]) rfl (h.run hc) ?_⟩
  rw [viewOf_readied (k := { k with waiters := Function.update k.waiters q ids }) ht]
  exact h.view.wakeWaiter hc hq

lemma wakeOne_nil (hs : Synced k) (hq : k.waiters q = []) : k.step (.wakeOne q) = .ok k := by
  refine withLock_eq (by exact hs) (withLock_eq (by simp [Synced, enter]) ?_)
  simp only [enter, hq]

lemma wakeOne_cons {ids : List ℕ} {t : SchedThread} (hs : Synced k) (hq : k.waiters q = id :: ids)
    (ht : k.threads.get id = some t) (hts : t.state = .waiting) : k.step (.wakeOne q) =
      .ok (readied { k with waiters := Function.update k.waiters q ids } id t) := by
  refine withLock_eq (by exact hs) (withLock_eq (by simp [Synced, enter]) ?_)
  simp only [enter, hq]
  exact wake_eq (k := { k.enter.enter with waiters := Function.update k.waiters q ids }) ht (Or.inl hts)

lemma Inv.wakeOne (h : Inv k) (hc : k.control = .run) (q : ℕ) :
    ∃ k', k.step (.wakeOne q) = .ok k' ∧ Inv k' := by
  have hirq := h.run hc
  cases hq : k.waiters q with
  | nil => exact ⟨k,wakeOne_nil hirq.2.2 hq,h⟩
  | cons id ids =>
    obtain ⟨t,ht,hts,hinv⟩ := h.wakeWaiter hc hq
    exact ⟨_,wakeOne_cons hirq.2.2 hq ht hts,hinv⟩

lemma wakeList_enter (l : List ℕ) (k : Kernel) : k.enter.wakeList l = (k.wakeList l).map enter := by
  induction l generalizing k with
  | nil => rfl
  | cons id ids ih =>
    have hw : k.enter.wake id = (k.wake id).map enter := by
      simp only [Kernel.wake, enter]
      cases k.threads.get id with
      | none => rfl
      | some t => by_cases ht : t.state = .waiting ∨ t.state = .sleeping <;>
          simp [unwrap, assert, ht, bind, Except.bind, pure, Except.pure, Except.map, enter]
    simp only [wakeList, hw]
    cases k.wake id with
    | error e => rfl
    | ok k1 => exact ih k1

/-- The threads of a wait queue wake up, the first one first. -/
lemma Inv.wakeList {ids : List ℕ} (h : Inv k) (hc : k.control = .run) (hq : k.waiters q = ids) :
    ∃ k', { k with waiters := Function.update k.waiters q [] }.wakeList ids = .ok k' ∧ Inv k' ∧
      k'.control = .run := by
  induction ids generalizing k with
  | nil =>
    refine ⟨_,rfl,?_,hc⟩
    rw [← hq, Function.update_eq_self]
    exact h
  | cons id ids ih =>
    obtain ⟨t,ht,hts,hinv⟩ := h.wakeWaiter hc hq
    obtain ⟨k',hk',hinv'⟩ := ih hinv hc (by simp [Sched.readied])
    refine ⟨k',?_,hinv'⟩
    rw [Kernel.wakeList, wake_eq (k := { k with waiters := Function.update k.waiters q [] }) ht (Or.inl hts)]
    rw [← hk']
    simp [Sched.readied, bind, Except.bind]

lemma Inv.wakeAll (h : Inv k) (hc : k.control = .run) (q : ℕ) :
    ∃ k', k.step (.wakeAll q) = .ok k' ∧ Inv k' := by
  obtain ⟨k',hk',hinv,hrun⟩ := h.wakeList hc rfl (q := q)
  refine ⟨k',withLock_eq (hinv.run hrun).2.2 (withLock_eq (by simp [Synced, enter]) ?_),hinv⟩
  change ({ k with waiters := Function.update k.waiters q [] }.enter.enter).wakeList (k.waiters q) = _
  rw [wakeList_enter, wakeList_enter, hk']
  rfl

/-- A sleeping thread wakes up. -/
lemma Inv.runClosure {cl : Closure} (h : Inv k) (hc : k.control = .run) (hp : k.poppedClosure = some cl) :
    ∃ k', k.step .runClosure = .ok k' ∧ Inv k' := by
  obtain ⟨hg,hn,hf⟩ := h.run hc
  unfold poppedClosure at hp
  split at hp
  · rename_i kind s c fs hfs
    subst hp
    have hg' : Grounded (.handler kind s 0 none :: fs) := by
      rw [hfs] at hg
      cases hg with
      | handler hg _ _ _ hs => exact .handler hg kind 0 none hs
    have hn' : k.mach.irqLockCount = liveGuards (.handler kind s 0 none :: fs) := by
      rw [hn, hfs]
      rfl
    have hset : k.setClosure none = { k with frames := .handler kind s 0 none :: fs } := by
      simp [setClosure, hfs]
    cases cl with
    | other =>
      refine ⟨k.setClosure none,by simp [Kernel.step, poppedClosure, hfs],?_⟩
      rw [hset]
      refine h.quiet hc rfl rfl rfl rfl hc ?_ ⟨hg',hn',hf⟩
      simp [wakeIds, hfs, poppedIds_cons, Frame.popped, Closure.target]
    | wake id =>
      have hsl : (viewOf k).sleepers = timerIds k.timers ++ id :: poppedIds fs := by
        simp [viewOf, wakeIds, hfs, poppedIds_cons, Frame.popped, Closure.target]
      have hmem : id ∈ (viewOf k).sleepers := by simp [hsl]
      obtain ⟨t,ht,hts⟩ := thread_of_state (h.view.of_sleeping hc hmem)
      refine ⟨Sched.readied (k.setClosure none) id t,?_,h.readied hc ht (by simp [hts]) ?_ ?_ ?_⟩
      · simp only [Kernel.step, poppedClosure, hfs]
        refine withLock_eq ?_ ?_
        · rw [hset]
          exact hf
        · rw [hset]
          exact wake_eq (k := { k with frames := .handler kind s 0 none :: fs }.enter) ht (Or.inr hts)
      · rw [hset]
        rfl
      · rw [hset]
        exact ⟨hg',hn',hf⟩
      · rw [hset, viewOf_readied (k := { k with frames := .handler kind s 0 none :: fs }) ht]
        have hv : viewOf { k with frames := .handler kind s 0 none :: fs } =
            { viewOf k with sleepers := timerIds k.timers ++ poppedIds fs } := by
          simp [viewOf, wakeIds, poppedIds_cons, Frame.popped]
        rw [hv]
        exact h.view.wakeSleeper hc (hsl ▸ List.perm_middle)
  · simp at hp

/-- A thread enters `sched()` with the scheduler lock as its only guard. -/
lemma Inv.enterSched (h : Inv k) (hc : k.control = .run) (hs : Suspended c k'.frames)
    (ht : k'.threads = k.threads) (hn : k'.mach.irqLockCount = 1) (hf : k'.mach.interruptFlag = false)
    (hc' : k'.control = .sched r c) (hv : (viewOf k').Inv) : Inv k' := by
  refine ⟨⟨ht ▸ h.irq.valid,ht ▸ h.irq.saved,by simpa only [hc'] using ⟨hs,hn,hf⟩⟩,hv,?_⟩
  have hp : ∀ t, Parked k' t → Parked k t := fun t ht' => by simpa [Parked, hc, hc'] using ht'
  exact ⟨fun id t h1 h2 => h.regs.some_regs id t (ht ▸ h1) (hp t h2),
    fun t h1 h2 => h.regs.idle t (ht ▸ h1) (hp t h2)⟩

lemma Inv.suspended (h : Inv k) (hc : k.control = .run) (h0 : liveGuards k.frames = 0) :
    Suspended .thread k.frames ∧ k.mach.irqLockCount = 0 :=
  ⟨⟨(h.run hc).1,h0⟩,(h.run hc).2.1.trans h0⟩

/-! The steps of `sched()`. -/

/-- `sched()` returns to the current thread. -/
lemma Inv.back (h : Inv k) (hs : Suspended c k'.frames) (ht : k'.threads = k.threads)
    (hp : ∀ t, t.state ≠ .running → Parked k t) (hv : (viewOf (Sched.back k' c)).Inv) :
    Inv (Sched.back k' c) := by
  have hr := back_here hs
  refine ⟨⟨?_,?_,hr⟩,hv,⟨fun id t h1 h2 => ?_,fun t h1 h2 => ?_⟩⟩
  · exact (ht ▸ h.irq.valid : k'.threads.Valid)
  · exact (ht ▸ h.irq.saved : SavedOk k'.threads)
  all_goals
    have h3 : t.state ≠ .running := by simpa [Parked, Sched.back] using h2
    rw [show (Sched.back k' c).threads = k.threads from ht] at h1
  · exact h.regs.some_regs id t h1 (hp t h3)
  · exact h.regs.idle t h1 (hp t h3)

lemma viewOf_back (h : Suspended c k.frames) : viewOf (Sched.back k c) =
    { (viewOf k).setControl .run with sleepers := timerIds k.timers } := by
  have hpop : poppedIds (Sched.back k c).frames = [] := by
    cases c with
    | thread => exact popped_of_liveGuards h.guards
    | handler =>
      obtain ⟨kind,fs',hfs,h0⟩ := h.guards
      simpa [Sched.back, hfs] using popped_of_liveGuards h0
  simp only [viewOf, wakeIds, hpop]
  simp [Sched.back, SchedView.setControl]

/-- A yielding thread goes on at once when no other thread is ready. -/
lemma Inv.stay (h : Inv k) (hc : k.control = .sched .yielding c) : Inv (Sched.back k c) := by
  have hh := h.irq.here
  simp only [hc] at hh
  refine h.back hh.1 rfl (fun t ht => Or.inl ht) ?_
  rw [viewOf_back hh.1]
  have hs : (viewOf k).sleepers = timerIds k.timers := by simp [viewOf, wakeIds, hh.1.popped]
  have := h.view.leaveSched (Or.inl ⟨c,hc⟩)
  rwa [show (viewOf k).setControl .run = { (viewOf k).setControl .run with sleepers := timerIds k.timers } by
    simp [SchedView.setControl, ← hs]] at this

/-- The next thread is ready, and the others stay in the queue. -/
lemma SchedView.Inv.next (h : (viewOf k).Inv) (hc : k.control = .sched r c)
    (hr : ¬ (r = .yielding ∧ k.ready = [])) :
    (viewOf k).state (k.nextThread r).1 = some .ready ∧ (k.nextThread r).2.Nodup ∧
      (∀ j, j ∈ (k.nextThread r).2 ↔ j ∈ k.ready ∧ j ≠ (k.nextThread r).1) ∧
      (r = .exiting → (k.nextThread r).1 = IDLE_THREAD_ID) := by
  have hidle : r ≠ .yielding → (viewOf k).state IDLE_THREAD_ID = some .ready := fun hy =>
    h.idle.resolve_left fun hrun => h.busy r c hc hy ((h.running _).mp hrun).symm
  have hnot : IDLE_THREAD_ID ∉ k.ready := fun hm => ((h.mem_ready _).mp hm).2 rfl
  have hnd := h.ready_nodup
  unfold nextThread
  split_ifs with hex
  · refine ⟨hidle (by simp [hex]),h.ready_nodup,fun j => ?_,fun _ => rfl⟩
    exact ⟨fun hj => ⟨hj,fun he => hnot (by rwa [he] at hj)⟩,And.left⟩
  · cases hready : k.ready with
    | nil => exact ⟨hidle fun hy => hr ⟨hy,hready⟩,List.nodup_nil,by simp,fun he => absurd he hex⟩
    | cons n ids =>
      have hn : n ∈ (viewOf k).ready := by simp [viewOf, hready]
      rw [show (viewOf k).ready = n :: ids from hready, List.nodup_cons] at hnd
      refine ⟨((h.mem_ready n).mp hn).1,hnd.2,fun j => ?_,fun he => absurd he hex⟩
      simp only [List.mem_cons]
      exact ⟨fun hj => ⟨Or.inr hj,fun he => hnd.1 (he ▸ hj)⟩,fun hj => hj.1.resolve_left hj.2⟩

lemma activate_eq (k : Kernel) (p : ℕ) (hn : k.mach.irqLockCount = 1) (hf : k.mach.interruptFlag = false) :
    k.activate p = { k with mach := { k.mach with currentProc := some p } } := by
  simp [activate, enter, leave, hn, hf]

/-- The threads after a switch. -/
def switchedThreads (k : Kernel) (r : SchedReason) (c : Caller) (n : ℕ) (t : SchedThread)
    (s : ThreadState) : IdSparseVec SchedThread :=
  (k.threads.set k.mach.currentThreadId ⟨.sched r c k.frames,k.mach.currentProc,s⟩).set n
    { t with state := .running }

lemma switchTo_eq {n : ℕ} {l : List ℕ} {t : SchedThread} (hn : k.mach.irqLockCount = 1)
    (hf : k.mach.interruptFlag = false) : k.switchTo r c n l t =
      { k with
        mach := { k.mach with currentThreadId := n, currentProc := t.proc <|> k.mach.currentProc }
        threads := switchedThreads k r c n t (outgoing k.mach.currentThreadId l r).1
        ready := (outgoing k.mach.currentThreadId l r).2.1, frames := []
        control := .resumed (outgoing k.mach.currentThreadId l r).2.2 } := by
  obtain ⟨regs,proc,state⟩ := t
  cases proc with
  | none => simp [switchTo, switchedThreads]
  | some p => simp [switchTo, activate_eq, hn, hf, switchedThreads]

lemma get_switchedThreads {n j : ℕ} {t u : SchedThread} {s : ThreadState}
    (hcur : k.threads.get k.mach.currentThreadId = some u) (ht : k.threads.get n = some t)
    (hne : k.mach.currentThreadId ≠ n) : (switchedThreads k r c n t s).get j =
      if j = n then some { t with state := .running }
      else if j = k.mach.currentThreadId then some ⟨.sched r c k.frames,k.mach.currentProc,s⟩
      else k.threads.get j := by
  have ht' : (k.threads.set k.mach.currentThreadId ⟨.sched r c k.frames,k.mach.currentProc,s⟩).get n =
      some t := by rw [IdSparseVec.get_set hcur, if_neg (Ne.symm hne), ht]
  rw [switchedThreads, IdSparseVec.get_set ht', IdSparseVec.get_set hcur]

/-- A pass through the loop of `sched()` that switches to another thread. -/
lemma Inv.switch {t : SchedThread} (h : Inv k) (hc : k.control = .sched r c)
    (hr : ¬ (r = .yielding ∧ k.ready = [])) (ht : k.threads.get (k.nextThread r).1 = some t) :
    k.schedPass r c = .ok (k.switchTo r c (k.nextThread r).1 (k.nextThread r).2 t) ∧
      Inv (k.switchTo r c (k.nextThread r).1 (k.nextThread r).2 t) := by
  have hh := h.irq.here
  simp only [hc] at hh
  obtain ⟨hsus,hn,hf⟩ := hh
  obtain ⟨hnext,hnd,hmem,hidle⟩ := h.view.next hc hr
  obtain ⟨u,hu,hus⟩ := thread_of_state h.view.current_state
  have hu : k.threads.get k.mach.currentThreadId = some u := hu
  have hne : k.mach.currentThreadId ≠ (k.nextThread r).1 := fun he => by
    have h1 := h.view.current_state
    rw [show (viewOf k).current = (k.nextThread r).1 from he, hnext] at h1
    simp at h1
  have hbusy : r = .exiting → k.mach.currentThreadId ≠ IDLE_THREAD_ID := fun he =>
    h.view.busy r c hc (by simp [he])
  have hts : t.state = .ready := by simpa [viewOf, ht] using hnext
  have hold : ∀ j w, k.threads.get j = some w → j ≠ k.mach.currentThreadId → w.state ≠ .running :=
    fun j w hw hj hrun => hj ((h.view.running j).mp (by simp [viewOf, hw, hrun]))
  refine ⟨?_,?_⟩
  · simp [schedPass, hn, hr, hne, IdSparseVec.getMut2_of hu ht hne, unwrap, hus, assert_of hbusy, bind,
      Except.bind, pure, Except.pure]
  · rw [switchTo_eq hn hf]
    set s := (outgoing k.mach.currentThreadId (k.nextThread r).2 r).1 with hs
    have hget : ∀ j, (switchedThreads k r c (k.nextThread r).1 t s).get j = _ := fun j =>
      get_switchedThreads hu ht hne
    have hval : (switchedThreads k r c (k.nextThread r).1 t s).Valid := by
      refine IdSparseVec.valid_set (y := t) (IdSparseVec.valid_set h.irq.valid hu) ?_
      rw [IdSparseVec.get_set hu, if_neg (Ne.symm hne), ht]
    refine ⟨⟨hval,?_,⟨rfl,hn,hf⟩⟩,?_,⟨?_,?_⟩⟩
    · intro j w hw r' c' fs hrc
      simp only [hget] at hw
      split_ifs at hw with h1 h2
      · cases hw
        exact h.irq.saved _ t ht r' c' fs hrc
      · cases hw
        obtain ⟨rfl,rfl,rfl⟩ : r = r' ∧ c = c' ∧ k.frames = fs := by simpa using hrc
        exact hsus
      · exact h.irq.saved j w hw r' c' fs hrc
    · have := h.view.switch hc hnext hnd hmem hidle
      convert this using 1
      have hpop := hsus.popped
      have hst : (fun j => ((switchedThreads k r c (k.nextThread r).1 t s).get j).map SchedThread.state) =
          (SchedView.Inv.switched (viewOf k) r (k.nextThread r).1 (k.nextThread r).2).state := by
        funext j
        rw [hget, SchedView.Inv.switch_state]
        simp only [viewOf, ← hs]
        split_ifs <;> rfl
      simp only [viewOf, wakeIds, hst]
      simp [SchedView.Inv.switched, hpop, show poppedIds [] = [] from rfl]
    · intro j w hw _
      simp only [hget] at hw
      split_ifs at hw with h1 h2
      · cases hw
        exact h.regs.some_regs _ t ht (Or.inl (by simp [hts]))
      · cases hw
        simp
      · exact h.regs.some_regs j w hw (Or.inl (hold j w hw h2))
    · intro w hw _
      simp only [hget] at hw
      split_ifs at hw with h1 h2
      · cases hw
        exact h.regs.idle t (h1 ▸ ht) (Or.inl (by simp [hts]))
      · cases hw
        have hy : r = .yielding := by
          by_contra hne'
          exact h.view.busy r c hc hne' h2.symm
        exact ⟨c,k.frames,by rw [hy]⟩
      · exact h.regs.idle w hw (Or.inl (hold _ w hw h2))

end Lilith.Sched
