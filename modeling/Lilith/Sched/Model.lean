import Lilith.IdVec

/-! The scheduler (`sched.rs`), the interrupt entry points (`interrupts.rs`) and the interrupt
guards (`sync.rs`) on one processor.

A step of the machine is a piece of kernel code that no interrupt can split: the kernel runs with
interrupts masked whenever a lock is held. The code of `sched()` is several steps, since a switch
continues in the middle of another thread's call. What a thread does between these steps is not
fixed: any event that its code could cause may come next. -/
namespace Lilith.Sched

def IDLE_THREAD_ID : ℕ := 0

def PIT_FREQUENCY : ℕ := 1193182
def DESIRED_HZ : ℕ := 100
def DIVISOR : ℕ := PIT_FREQUENCY / DESIRED_HZ
def TICK_NS : ℕ := 1000000000 * DIVISOR / PIT_FREQUENCY

inductive ThreadState where
  | running
  | ready
  | exiting
  | waiting
  | sleeping
  deriving DecidableEq, Repr

inductive SchedReason where
  | yielding
  | exiting
  | waiting
  | sleeping
  deriving DecidableEq, Repr

inductive DeferredAction where
  | none
  | cleanup (id : ℕ)
  deriving DecidableEq, Repr

/-- A closure given to `run_later`: the one of `thread_sleep`, or any other. -/
inductive Closure where
  | wake (id : ℕ)
  | other
  deriving DecidableEq, Repr

structure TimerEvent (C : Type) where
  delta : ℕ
  closure : C
  deriving DecidableEq, Repr

inductive Interrupt where
  | pageFault
  | timer
  deriving DecidableEq, Repr

/-- The calls a thread is in, as far as the scheduler can tell them apart, each with the number of
guards that its code holds. -/
inductive Frame where
  /-- the thread's own kernel code -/
  | body (guards : ℕ)
  /-- user code -/
  | user
  | syscall (guards : ℕ)
  /-- `int_handler` with the saved interrupt flag; besides `guards` it holds its interrupt guard.
  `closure` is what `timer_interrupt` popped last and has not run yet. -/
  | handler (kind : Interrupt) (savedFlag : Bool) (guards : ℕ) (closure : Option Closure)
  deriving DecidableEq, Repr

/-- Who called `sched()`: code that drops the guard it gets back, or the end of `int_handler`. -/
inductive Caller where
  | thread
  | handler
  deriving DecidableEq, Repr

/-- Where the saved registers of a thread continue. -/
inductive SwitchFrame where
  /-- `SwitchFrame::default()`, which is nowhere -/
  | default
  /-- `thread_entry_stub` -/
  | entry
  /-- after the call of `switch()` in `sched()`, with the local variables of that call -/
  | sched (reason : SchedReason) (caller : Caller) (frames : List Frame)
  deriving DecidableEq, Repr

structure SchedThread where
  regs : SwitchFrame
  proc : Option ℕ
  state : ThreadState
  deriving DecidableEq, Repr

/-- The processor: the fields of `Mach` and the interrupt flag. -/
structure Mach where
  currentThreadId : ℕ
  currentProc : Option ℕ
  irqLockCount : ℕ
  irqNeedResched : Bool
  ticks : ℕ
  interruptFlag : Bool
  deriving DecidableEq, Repr

/-- Where the processor is: outside of `sched()`, at the head of its loop, or behind `switch()`. -/
inductive Control where
  | run
  | sched (reason : SchedReason) (caller : Caller)
  | resumed (action : DeferredAction)
  deriving DecidableEq, Repr

structure Kernel where
  mach : Mach
  threads : IdSparseVec SchedThread
  ready : List ℕ
  timers : List (TimerEvent Closure)
  /-- the wait queues -/
  waiters : ℕ → List ℕ
  /-- the calls of the running thread, the innermost first -/
  frames : List Frame
  control : Control

namespace Frame

/-- The code of the frame is kernel code that can take locks. -/
def isKernel : Frame → Bool
  | user => false
  | _ => true

def guards : Frame → ℕ
  | body g => g
  | user => 0
  | syscall g => g
  | handler _ _ g _ => g

def withGuards (n : ℕ) : Frame → Frame
  | body _ => body n
  | user => user
  | syscall _ => syscall n
  | handler k s _ c => handler k s n c

/-- The live guards of a frame, with the interrupt guard of a handler. -/
def liveGuards : Frame → ℕ
  | handler _ _ g _ => g + 1
  | f => f.guards

end Frame

def liveGuards (fs : List Frame) : ℕ := (fs.map Frame.liveGuards).sum

namespace TimerQueue
variable {C : Type}

/-- `TimerQueue::insert`. -/
def insert (ticks : ℕ) (closure : C) : List (TimerEvent C) → List (TimerEvent C)
  | [] => [⟨ticks,closure⟩]
  | t :: ts =>
    if ticks < t.delta then ⟨ticks,closure⟩ :: ⟨t.delta - ticks,t.closure⟩ :: ts
    else t :: insert (ticks - t.delta) closure ts

/-- `TimerQueue::tick`. -/
def tick : List (TimerEvent C) → List (TimerEvent C)
  | [] => []
  | t :: ts => ⟨t.delta - 1,t.closure⟩ :: ts

/-- `TimerQueue::pop_closure`. -/
def popClosure : List (TimerEvent C) → Option (C × List (TimerEvent C))
  | [] => none
  | t :: ts => if t.delta = 0 then some (t.closure,ts) else none

end TimerQueue

namespace Kernel

/-- `InterruptGuard::enter`. -/
def enter (k : Kernel) : Kernel :=
  { k with mach := { k.mach with interruptFlag := false, irqLockCount := k.mach.irqLockCount + 1 } }

/-- `InterruptGuard::leave`. -/
def leave (k : Kernel) : Kernel :=
  { k with mach := { k.mach with
      irqLockCount := k.mach.irqLockCount - 1,
      interruptFlag := if k.mach.irqLockCount = 1 then true else k.mach.interruptFlag } }

/-- `InterruptGuard::drop_without_disabling`. -/
def dropWithoutDisabling (k : Kernel) : Kernel :=
  { k with mach := { k.mach with irqLockCount := k.mach.irqLockCount - 1 } }

/-- A call of `f` with one more lock held. -/
def withLock (f : Kernel → Except Fault Kernel) (k : Kernel) : Except Fault Kernel := do
  return (← f k.enter).leave

/-- A change of the number of guards that the innermost code holds. -/
def mapGuards (f : ℕ → ℕ) (k : Kernel) : Kernel :=
  { k with frames := match k.frames with
      | [] => []
      | fr :: fs => fr.withGuards (f fr.guards) :: fs }

/-- `Scheduler::spawn_inner`, as far as it changes the scheduler. -/
def spawnInner (k : Kernel) : Except Fault Kernel := do
  let (id,threads) ← k.threads.insert ⟨.entry,none,.ready⟩
  return { k with threads := threads, ready := k.ready ++ [id] }

def unwrap {α : Type} : Option α → Except Fault α
  | some a => .ok a
  | none => .error (.panic "called `Option::unwrap()` on a `None` value")

/-- `Scheduler::clean_up`. -/
def cleanUp (k : Kernel) (id : ℕ) : Except Fault Kernel := do
  let thread ← unwrap (k.threads.get id)
  assert (thread.state = .exiting) "assertion failed: thread.state == Exiting"
  let (_,threads) ← k.threads.remove id
  return { k with threads := threads }

/-- `Scheduler::wake`. -/
def wake (k : Kernel) (id : ℕ) : Except Fault Kernel := do
  let thread ← unwrap (k.threads.get id)
  assert (thread.state = .waiting ∨ thread.state = .sleeping)
    "assertion failed: thread.state == Waiting || thread.state == Sleeping"
  return { k with threads := k.threads.set id { thread with state := .ready }, ready := k.ready ++ [id] }

/-- `run_later`, under the lock of the timer queue. -/
def runLater (k : Kernel) (delayNs : ℕ) (closure : Closure) : Kernel :=
  { k.enter with timers := TimerQueue.insert ((delayNs + TICK_NS - 1) / TICK_NS) closure k.timers }.leave

/-- `Proc::activate`, with its interrupt guard and the lock of the process memory. -/
def activate (k : Kernel) (proc : ℕ) : Kernel :=
  let k := k.enter
  { k with mach := { k.mach with currentProc := some proc } }.enter.leave.leave

/-- The end of `int_handler` after its last `sched()`, and the return from the interrupt. -/
def finishInt (k : Kernel) : Except Fault Kernel :=
  match k.frames with
  | .handler _ savedFlag _ _ :: fs => do
    let k := k.dropWithoutDisabling
    assert (decide (k.mach.irqLockCount = 0) = savedFlag) "mismatch between irq_lock_count and interrupt flag"
    return { k with
      mach := { k.mach with interruptFlag := savedFlag }, frames := fs, control := .run }
  | _ => .error .dangling

/-- The end of `int_handler` from the check for rescheduling on. -/
def intReturn (k : Kernel) : Except Fault Kernel :=
  if k.mach.irqLockCount = 1 then
    let k' := { k with mach := { k.mach with irqNeedResched := false } }
    if k.mach.irqNeedResched then .ok { k' with control := .sched .yielding .handler }
    else k'.finishInt
  else k.finishInt

/-- `sched()` returns the guard of the scheduler lock to its caller. -/
def schedReturn (k : Kernel) : Caller → Except Fault Kernel
  | .thread => .ok { k.leave with control := .run }
  | .handler => k.finishInt

/-- The next thread and the ready queue without it. -/
def nextThread (k : Kernel) (reason : SchedReason) : ℕ × List ℕ :=
  if reason = .exiting then (IDLE_THREAD_ID,k.ready)
  else match k.ready with
    | [] => (IDLE_THREAD_ID,[])
    | id :: ids => (id,ids)

/-- What becomes of the current thread: its state, the ready queue and the deferred action. -/
def outgoing (currentId : ℕ) (ready : List ℕ) : SchedReason → ThreadState × List ℕ × DeferredAction
  | .yielding => (.ready,if currentId ≠ IDLE_THREAD_ID then ready ++ [currentId] else ready,.none)
  | .exiting => (.exiting,ready,.cleanup currentId)
  | .waiting => (.waiting,ready,.none)
  | .sleeping => (.sleeping,ready,.none)

/-- The change of threads up to `switch()`. The process of the next thread is activated if it has
one. -/
def switchTo (k : Kernel) (reason : SchedReason) (caller : Caller) (nextId : ℕ) (ready : List ℕ)
    (nextThread : SchedThread) : Kernel :=
  let (state,ready,action) := outgoing k.mach.currentThreadId ready reason
  let saved : SchedThread := ⟨.sched reason caller k.frames,k.mach.currentProc,state⟩
  let k := { k with
    mach := { k.mach with currentThreadId := nextId }
    threads := (k.threads.set k.mach.currentThreadId saved).set nextId { nextThread with state := .running }
    ready := ready, frames := [], control := .resumed action }
  match nextThread.proc with
  | some proc => k.activate proc
  | none => k

/-- One pass through the loop of `sched()`, up to `switch()`. -/
def schedPass (k : Kernel) (reason : SchedReason) (caller : Caller) : Except Fault Kernel := do
  assert (k.mach.irqLockCount = 1) "sched() called in invalid context"
  let currentId := k.mach.currentThreadId
  if reason = .yielding ∧ k.ready = [] then k.schedReturn caller
  else
    let (nextId,ready) := k.nextThread reason
    assert (currentId ≠ nextId) "assertion failed: current_id != next_id"
    let (currentThread,nextThread) ← unwrap (k.threads.getMut2 currentId nextId)
    assert (currentThread.state = .running) "assertion failed: current_thread.state == Running"
    assert (reason = .exiting → currentId ≠ IDLE_THREAD_ID)
      "assertion failed: current_id != IDLE_THREAD_ID"
    return k.switchTo reason caller nextId ready nextThread

/-- The code behind `switch()`, in the thread that was switched to. -/
def resume (k : Kernel) (action : DeferredAction) : Except Fault Kernel := do
  let thread ← unwrap (k.threads.get k.mach.currentThreadId)
  match thread.regs with
  | .default => .error .dangling
  -- `thread_entry` knows nothing of deferred actions
  | .entry => return { k.leave with frames := [.body 0], control := .run }
  | .sched reason caller frames =>
    let k := { k with frames := frames }
    match action with
    | .none => k.schedReturn caller
    | .cleanup id =>
      assert (k.mach.currentThreadId = IDLE_THREAD_ID) "assertion failed: current_thread_id == IDLE_THREAD_ID"
      let k ← k.cleanUp id
      return { k with control := .sched reason caller }

end Kernel

inductive Event where
  /-- taking and dropping a guard or a lock other than the scheduler's -/
  | lock
  | unlock
  | spawn
  | threadYield
  | threadExit
  | threadSleep (delayNs : ℕ)
  /-- `WaitQueue::sleep_until` on a queue, with a condition that is false -/
  | sleepUntil (queue : ℕ)
  | wakeOne (queue : ℕ)
  | wakeAll (queue : ℕ)
  | runLater (delayNs : ℕ)
  | activate (proc : ℕ)
  | launch
  | syscall
  | sysret
  | timerInterrupt
  | pageFault
  | popClosure
  | runClosure
  /-- the end of `timer_interrupt` and of `int_handler` -/
  | timerReturn
  | pageFaultReturn
  /-- inside of `sched()` -/
  | pass
  | resume
  deriving DecidableEq, Repr

namespace Kernel

def inKernel (k : Kernel) : Bool :=
  match k.frames with
  | [] => false
  | fr :: _ => fr.isKernel

/-- The guards that the innermost code holds. -/
def topGuards (k : Kernel) : ℕ :=
  match k.frames with
  | [] => 0
  | fr :: _ => fr.guards

/-- The innermost code is an interrupt handler of this kind that is between two closures. -/
def inHandler (k : Kernel) (kind : Interrupt) : Bool :=
  match k.frames with
  | .handler kind' _ 0 none :: _ => kind = kind'
  | _ => false

def poppedClosure (k : Kernel) : Option Closure :=
  match k.frames with
  | .handler _ _ 0 c :: _ => c
  | _ => none

/-- When an event can happen. A thread that gives up the processor holds no lock, and the idle
thread never sleeps, waits or exits. -/
def Enabled (k : Kernel) : Event → Prop
  | .lock => k.control = .run ∧ k.inKernel
  | .unlock => k.control = .run ∧ 0 < k.topGuards
  | .spawn => k.control = .run ∧ k.inKernel
  | .threadYield => k.control = .run ∧ k.inKernel ∧ liveGuards k.frames = 0
  | .threadExit | .threadSleep _ | .sleepUntil _ =>
    k.control = .run ∧ k.inKernel ∧ liveGuards k.frames = 0 ∧ k.mach.currentThreadId ≠ IDLE_THREAD_ID
  | .wakeOne _ | .wakeAll _ | .runLater _ | .activate _ => k.control = .run ∧ k.inKernel
  | .launch => k.control = .run ∧ k.frames = [.body 0]
  | .syscall => k.control = .run ∧ k.frames.head? = some .user
  | .sysret => k.control = .run ∧ k.frames.head? = some (.syscall 0)
  | .timerInterrupt => k.control = .run ∧ k.mach.interruptFlag
  | .pageFault => k.control = .run
  | .popClosure => k.control = .run ∧ k.inHandler .timer ∧ (TimerQueue.popClosure k.timers).isSome
  | .runClosure => k.control = .run ∧ k.poppedClosure.isSome
  | .timerReturn => k.control = .run ∧ k.inHandler .timer ∧ TimerQueue.popClosure k.timers = none
  | .pageFaultReturn => k.control = .run ∧ k.inHandler .pageFault
  | .pass => ∃ reason caller, k.control = .sched reason caller
  | .resume => ∃ action, k.control = .resumed action

instance (k : Kernel) : (e : Event) → Decidable (k.Enabled e)
  | .lock | .unlock | .spawn | .wakeOne _ | .wakeAll _ | .runLater _ | .activate _ | .launch | .syscall
  | .sysret | .timerInterrupt | .runClosure | .pageFaultReturn => inferInstanceAs (Decidable (_ ∧ _))
  | .threadYield | .popClosure | .timerReturn => inferInstanceAs (Decidable (_ ∧ _ ∧ _))
  | .threadExit | .threadSleep _ | .sleepUntil _ => inferInstanceAs (Decidable (_ ∧ _ ∧ _ ∧ _))
  | .pageFault => inferInstanceAs (Decidable (k.control = .run))
  | .pass => match h : k.control with
    | .sched reason caller => isTrue ⟨reason,caller,h⟩
    | .run | .resumed _ => isFalse fun ⟨_,_,h'⟩ => by simp [h] at h'
  | .resume => match h : k.control with
    | .resumed action => isTrue ⟨action,h⟩
    | .run | .sched _ _ => isFalse fun ⟨_,h'⟩ => by simp [h] at h'

/-- The entry of `int_handler`: the processor saves the interrupt flag and masks interrupts. -/
def enterInt (k : Kernel) (kind : Interrupt) : Kernel :=
  { k.enter with frames := .handler kind k.mach.interruptFlag 0 none :: k.frames }

/-- The closure that the innermost handler popped last. -/
def setClosure (k : Kernel) (c : Option Closure) : Kernel :=
  { k with frames := match k.frames with
      | .handler kind s g _ :: fs => .handler kind s g c :: fs
      | fs => fs }

def wakeList (k : Kernel) : List ℕ → Except Fault Kernel
  | [] => .ok k
  | id :: ids => do (← k.wake id).wakeList ids

/-- What an event does. -/
def step (k : Kernel) : Event → Except Fault Kernel
  | .lock => .ok (k.enter.mapGuards (· + 1))
  | .unlock => .ok (k.leave.mapGuards (· - 1))
  | .spawn => k.withLock spawnInner
  | .threadYield => .ok { k.enter with control := .sched .yielding .thread }
  | .threadExit => .ok { k.enter with control := .sched .exiting .thread }
  | .threadSleep delayNs =>
    .ok { k.enter.runLater delayNs (.wake k.mach.currentThreadId) with control := .sched .sleeping .thread }
  | .sleepUntil q =>
    -- the object of the condition, the scheduler and the queue are locked
    let k := k.enter.enter.enter
    let k := { k with waiters := Function.update k.waiters q (k.waiters q ++ [k.mach.currentThreadId]) }
    .ok { k.leave.leave with control := .sched .waiting .thread }
  | .wakeOne q => k.withLock (withLock fun k =>
    match k.waiters q with
    | [] => .ok k
    | id :: ids => { k with waiters := Function.update k.waiters q ids }.wake id)
  | .wakeAll q => k.withLock (withLock fun k =>
    { k with waiters := Function.update k.waiters q [] }.wakeList (k.waiters q))
  | .runLater delayNs => .ok (k.runLater delayNs .other)
  | .activate proc => .ok (k.activate proc)
  | .launch =>
    let k := k.enter.enter.leave.dropWithoutDisabling
    .ok { k with frames := [.user], mach := { k.mach with interruptFlag := true } }
  | .syscall => do
    assert (k.mach.irqLockCount = 0) "assertion failed: irq_lock_count == 0"
    return { k with frames := .syscall 0 :: k.frames, mach := { k.mach with interruptFlag := true } }
  | .sysret => .ok { k with frames := k.frames.tail, mach := { k.mach with interruptFlag := true } }
  | .timerInterrupt =>
    let k := k.enterInt .timer
    let k := { k with mach := { k.mach with ticks := k.mach.ticks + 1 } }
    .ok { k.enter with timers := TimerQueue.tick k.timers }.leave
  | .pageFault => .ok (k.enterInt .pageFault)
  | .popClosure =>
    match TimerQueue.popClosure k.timers with
    | some (c,timers) => .ok ({ k.enter with timers := timers }.leave.setClosure (some c))
    | none => .ok k
  | .runClosure =>
    match k.poppedClosure with
    | some (.wake id) => (k.setClosure none).withLock (·.wake id)
    | _ => .ok (k.setClosure none)
  | .timerReturn => { k with mach := { k.mach with irqNeedResched := true } }.enter.leave.intReturn
  | .pageFaultReturn => k.intReturn
  | .pass =>
    match k.control with
    | .sched reason caller => k.schedPass reason caller
    | _ => .ok k
  | .resume =>
    match k.control with
    | .resumed action => k.resume action
    | _ => .ok k

/-- The kernel in `main` before `sched::init`, with its first interrupt guard. -/
def boot : Kernel where
  mach := ⟨0,none,1,false,0,false⟩
  threads := .new
  ready := []
  timers := []
  waiters _ := []
  frames := [.body 1]
  control := .run

/-- `sched::init`. -/
def init (k : Kernel) : Except Fault Kernel := do
  let (id,threads) ← k.threads.insert ⟨.default,none,.running⟩
  assert (id = IDLE_THREAD_ID) "assertion failed: id == IDLE_THREAD_ID"
  return { k with threads := threads }

/-- A run of events that can happen one after the other. -/
def run (k : Kernel) : List Event → Option Kernel
  | [] => some k
  | e :: es =>
    if k.Enabled e then
      match k.step e with
      | .ok k' => k'.run es
      | .error _ => none
    else none

end Kernel

/-- The states of all runs after `sched::init`. -/
inductive Reach : Kernel → Prop where
  | init {k : Kernel} (h : Kernel.boot.init = .ok k) : Reach k
  | step {k k' : Kernel} (e : Event) (h : Reach k) (he : k.Enabled e) (hs : k.step e = .ok k') : Reach k'

end Lilith.Sched
