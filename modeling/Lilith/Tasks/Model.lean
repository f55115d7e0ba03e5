import Lilith.Sched.Model

/-! Tasks and their executor (`tasks.rs`). The executor thread polls one task at a time without
holding the lock of the executor, so that any number of spawns and wakes, from the poll itself or
from elsewhere, can come between the start of a poll and its end. -/
namespace Lilith.Tasks

inductive TaskState (F : Type) where
  | executing
  | executingAndAwoken
  | ready (future : F)
  | paused (future : F)
  deriving DecidableEq, Repr

structure Executor (F : Type) where
  tasks : IdSparseVec (TaskState F)
  ready : List ℕ
  deriving DecidableEq, Repr

inductive Poll where
  | ready
  | pending
  deriving DecidableEq, Repr

/-- Where the executor thread is: in `sleep_until` or on its way there, or in a poll. -/
inductive Pc (F : Type) where
  | idle
  | polling (id : ℕ) (future : F)
  deriving DecidableEq, Repr

variable {F : Type}

namespace Executor

def new : Executor F := ⟨.new,[]⟩

/-- `Executor::spawn` up to the call of `EXECUTOR_WAIT.wake_one`. -/
def spawn (x : Executor F) (f : F) : Except Fault (Executor F) := do
  let (id,tasks) ← x.tasks.insert (.ready f)
  return ⟨tasks,x.ready ++ [id]⟩

/-- `Executor::wake`, and whether it calls `EXECUTOR_WAIT.wake_one`. -/
def wake (x : Executor F) (id : ℕ) : Executor F × Bool :=
  match x.tasks.get id with
  -- a spurious wake
  | none => (x,false)
  | some .executing | some .executingAndAwoken => (⟨x.tasks.set id .executingAndAwoken,x.ready⟩,false)
  | some (.paused future) => (⟨x.tasks.set id (.ready future),x.ready ++ [id]⟩,true)
  | some (.ready future) => (⟨x.tasks.set id (.ready future),x.ready⟩,false)

def unwrap {α : Type} : Option α → Except Fault α
  | some a => .ok a
  | none => .error (.panic "called `Option::unwrap()` on a `None` value")

/-- The part of `executor_thread` from the end of `sleep_until` to the poll. -/
def take (x : Executor F) : Except Fault (Executor F × ℕ × F) := do
  let (id,ids) ← unwrap (match x.ready with
    | [] => none
    | id :: ids => some (id,ids))
  let task ← unwrap (x.tasks.get id)
  match task with
  | .ready future => return (⟨x.tasks.set id .executing,ids⟩,id,future)
  | _ => .error (.panic "task in ready list not actually ready")

/-- The part of `executor_thread` after the poll. -/
def finish (x : Executor F) (id : ℕ) (future : F) : Poll → Except Fault (Executor F)
  | .ready => do
    let (_,tasks) ← x.tasks.remove id
    return ⟨tasks,x.ready⟩
  | .pending => do
    let task ← unwrap (x.tasks.get id)
    match task with
    | .executing => return ⟨x.tasks.set id (.paused future),x.ready⟩
    | .executingAndAwoken => return ⟨x.tasks.set id (.ready future),x.ready ++ [id]⟩
    | .paused _ | .ready _ => .error (.panic "double-pause ?")

end Executor

/-- What the executor lock protects, what the executor thread has in hand, and the futures that were
given to `spawn` and those that are done. -/
structure TaskSystem (F : Type) where
  executor : Executor F
  pc : Pc F
  spawned : List F
  finished : List F

inductive TaskEvent (F : Type) where
  | spawn (f : F)
  | wake (id : ℕ)
  /-- the executor thread finds a ready task and begins to poll it -/
  | take
  /-- the poll ends, with any result -/
  | finish (result : Poll)

namespace TaskSystem

def new : TaskSystem F := ⟨.new,.idle,[],[]⟩

/-- A future is given away to `spawn` once. -/
def Enabled (s : TaskSystem F) : TaskEvent F → Prop
  | .spawn f => f ∉ s.spawned
  | .wake _ => True
  | .take => s.pc = .idle ∧ s.executor.ready ≠ []
  | .finish _ => s.pc ≠ .idle

def step (s : TaskSystem F) : TaskEvent F → Except Fault (TaskSystem F)
  | .spawn f => do return { s with executor := ← s.executor.spawn f, spawned := f :: s.spawned }
  | .wake id => .ok { s with executor := (s.executor.wake id).1 }
  | .take => do
    let (x,id,future) ← s.executor.take
    return { s with executor := x, pc := .polling id future }
  | .finish result =>
    match s.pc with
    | .idle => .ok s
    | .polling id future => do
      let x ← s.executor.finish id future result
      return { s with executor := x, pc := .idle, finished := match result with
        | .ready => future :: s.finished
        | .pending => s.finished }

end TaskSystem

/-- The states of all interleavings of spawns, wakes and the steps of the executor thread. -/
inductive TaskReach : TaskSystem F → Prop where
  | new : TaskReach .new
  | step {s s' : TaskSystem F} (e : TaskEvent F) (h : TaskReach s) (he : s.Enabled e)
      (hs : s.step e = .ok s') : TaskReach s'

/-- The wait queue `EXECUTOR_WAIT`. -/
def EXECUTOR_WAIT : ℕ := 0

/-- The executor together with the scheduler. -/
structure System (F : Type) where
  kernel : Sched.Kernel
  tasks : TaskSystem F
  /-- the executor thread -/
  thread : ℕ

inductive Event (F : Type) where
  /-- an event of the scheduler or of an interrupt that is not one of the following -/
  | kernel (e : Sched.Event)
  | taskSpawn (f : F)
  | wake (id : ℕ)
  /-- the executor thread checks the condition of `sleep_until` -/
  | check
  | finish (result : Poll)

namespace System

/-- The executor thread runs its own code, and holds no lock. -/
def executorRuns (s : System F) : Prop :=
  s.kernel.control = .run ∧ s.kernel.mach.currentThreadId = s.thread ∧ s.kernel.frames = [.body 0]

/-- What other code can do: the executor's wait queue is private to the executor. A poll may put the
executor thread to sleep, but does not end it. -/
def Allowed (s : System F) : Sched.Event → Prop
  | .wakeOne q | .wakeAll q => q ≠ EXECUTOR_WAIT
  | .sleepUntil q => q ≠ EXECUTOR_WAIT ∧ (s.kernel.mach.currentThreadId = s.thread → s.tasks.pc ≠ .idle)
  | .threadSleep _ => s.kernel.mach.currentThreadId = s.thread → s.tasks.pc ≠ .idle
  | .threadExit => s.kernel.mach.currentThreadId ≠ s.thread
  | _ => True

def Enabled (s : System F) : Event F → Prop
  | .kernel e => s.kernel.Enabled e ∧ s.Allowed e
  | .taskSpawn f => s.kernel.control = .run ∧ s.kernel.inKernel ∧ s.tasks.Enabled (.spawn f)
  | .wake _ => s.kernel.control = .run ∧ s.kernel.inKernel
  | .check => s.executorRuns ∧ s.tasks.pc = .idle
  | .finish _ => s.executorRuns ∧ s.tasks.pc ≠ .idle

/-- A call of `f` under the lock of the executor. -/
def withExecutor (s : System F) (f : Sched.Kernel → Except Fault Sched.Kernel) : Except Fault Sched.Kernel :=
  s.kernel.withLock f

def step (s : System F) : Event F → Except Fault (System F)
  | .kernel e => do return { s with kernel := ← s.kernel.step e }
  | .taskSpawn f => do
    let tasks ← s.tasks.step (.spawn f)
    let kernel ← s.withExecutor (·.step (.wakeOne EXECUTOR_WAIT))
    return { s with kernel := kernel, tasks := tasks }
  | .wake id => do
    let tasks ← s.tasks.step (.wake id)
    let kernel ← s.withExecutor fun k =>
      if (s.tasks.executor.wake id).2 then k.step (.wakeOne EXECUTOR_WAIT) else .ok k
    return { s with kernel := kernel, tasks := tasks }
  | .check =>
    if s.tasks.executor.ready = [] then
      -- `sleep_until` takes the lock of the executor itself
      do return { s with kernel := ← s.kernel.step (.sleepUntil EXECUTOR_WAIT) }
    else do
      let tasks ← s.tasks.step .take
      return { s with kernel := ← s.withExecutor .ok, tasks := tasks }
  | .finish result => do
    let tasks ← s.tasks.step (.finish result)
    return { s with kernel := ← s.withExecutor .ok, tasks := tasks }

end System

/-- `tasks::init`: a kernel in which the executor thread has just been spawned. -/
structure Started (k : Sched.Kernel) (thread : ℕ) : Prop where
  before : ∃ k0 : Sched.Kernel, Sched.Reach k0 ∧ k0.Enabled .spawn ∧ k0.step .spawn = .ok k ∧
    k0.threads.get thread = none ∧ (k.threads.get thread).isSome ∧ k0.waiters EXECUTOR_WAIT = []

inductive Reach : System F → Prop where
  | init {k : Sched.Kernel} {thread : ℕ} (h : Started k thread) : Reach ⟨k,.new,thread⟩
  | step {s s' : System F} (e : Event F) (h : Reach s) (he : s.Enabled e) (hs : s.step e = .ok s') : Reach s'

end Lilith.Tasks
