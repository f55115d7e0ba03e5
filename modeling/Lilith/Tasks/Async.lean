import Lilith.Tasks.Executor
import Lilith.Sched.Timers

/-! Asynchronous code on the executor and the timer queue: tasks that await `task_yield` and
`task_sleep`. A future is a box, whose contents the executor thread changes when it polls it; the
polls are interleaved with timer interrupts and with whatever else wakes tasks or registers closures. -/
namespace Lilith.Tasks
open Sched (TimerEvent TimerQueue.insert TimerQueue.tick TimerQueue.popClosure TICK_NS SleepFuture)

inductive YieldFuture where
  | notYielded
  | yielded
  deriving DecidableEq, Repr

/-- The future that an `.await` in the body of a task waits for. -/
inductive Await where
  | yields (future : YieldFuture)
  | sleeps (future : SleepFuture)
  deriving DecidableEq, Repr

def Await.isNew : Await → Bool
  | yields .notYielded => true
  | sleeps (.notYet _) => true
  | _ => false

/-- A closure given to `run_later`: the one of `SleepFuture` wakes the task, and any other can do
anything. -/
inductive Closure where
  | wake (id : ℕ)
  | other
  deriving DecidableEq, Repr

/-- Where the processor is: outside of `timer_interrupt`, in its loop, or in a closure. -/
inductive InterruptPc where
  | outside
  | loop
  | closure (c : Closure)
  deriving DecidableEq, Repr

structure Async where
  tasks : TaskSystem ℕ
  /-- what the body in a box still has to await; what comes first is polled first -/
  body : ℕ → List Await
  /-- the running poll has met a future that is pending -/
  pending : Bool
  /-- `mach().ticks()` -/
  ticks : ℕ
  timers : List (TimerEvent Closure)
  pc : InterruptPc
  /-- the bodies as they were given to `task_spawn`, with `mach().ticks()` at that time -/
  spawned : ℕ → List Await × ℕ
  /-- the futures that are done, with `mach().ticks()` at the end of their last poll -/
  done : List (ℕ × ℕ)

inductive AsyncEvent where
  /-- `task_spawn` of a new box -/
  | spawn (f : ℕ) (body : List Await)
  /-- a wake of any task, by anyone who has a waker -/
  | wake (id : ℕ)
  /-- `run_later` with a closure that is not the one of a `SleepFuture` -/
  | runLater (delayNs : ℕ)
  /-- the executor thread begins a poll -/
  | take
  /-- the body polls the future that it awaits -/
  | poll
  /-- the poll of the body ends -/
  | finish
  /-- `timer_interrupt` up to its loop -/
  | interrupt
  /-- the loop pops a closure and calls it -/
  | call
  /-- the closure returns -/
  | return
  /-- the loop finds no more closures -/
  | done
  deriving DecidableEq, Repr

namespace Async

def new : Async := ⟨.new,fun _ => [],false,0,[],.outside,fun _ => ([],0),[]⟩

/-- The executor thread does not run while an interrupt is handled, and the loop of `timer_interrupt`
does nothing but call closures. -/
def Enabled (s : Async) : AsyncEvent → Prop
  | .spawn f body => s.pc ≠ .loop ∧ f ∉ s.tasks.spawned ∧ ∀ a ∈ body, a.isNew
  | .wake _ | .runLater _ => s.pc ≠ .loop
  | .take => s.pc = .outside ∧ s.tasks.Enabled .take
  | .poll => s.pc = .outside ∧ s.pending = false ∧ ∃ id f, s.tasks.pc = .polling id f ∧ s.body f ≠ []
  | .finish => s.pc = .outside ∧ ∃ id f, s.tasks.pc = .polling id f ∧ (s.pending = true ∨ s.body f = [])
  | .interrupt => s.pc = .outside
  | .call => s.pc = .loop ∧ (TimerQueue.popClosure s.timers).isSome
  | .return => ∃ c, s.pc = .closure c
  | .done => s.pc = .loop ∧ TimerQueue.popClosure s.timers = none

/-- `run_later`, with the number of ticks until the closure is due. -/
def runLater (s : Async) (delayNs : ℕ) (c : Closure) : ℕ × Async :=
  let ticks := (delayNs + TICK_NS - 1) / TICK_NS
  (s.ticks + ticks,{ s with timers := TimerQueue.insert ticks c s.timers })

def wake (s : Async) (id : ℕ) : Async := { s with tasks := { s.tasks with executor := (s.tasks.executor.wake id).1 } }

/-- The poll of the future that the body in the box `f` of the task `id` awaits. A body goes on to its
next await when the future is ready. -/
def pollAwait (s : Async) (id f : ℕ) : Async :=
  match s.body f with
  | [] => s
  | .yields .notYielded :: rest =>
    -- `cx.waker().wake_by_ref()`
    { s.wake id with body := Function.update s.body f (.yields .yielded :: rest), pending := true }
  | .yields .yielded :: rest => { s with body := Function.update s.body f rest }
  | .sleeps (.notYet delayNs) :: rest =>
    let (target_ticks,s) := s.runLater delayNs (.wake id)
    { s with body := Function.update s.body f (.sleeps (.yet target_ticks) :: rest), pending := true }
  | .sleeps (.yet target_ticks) :: rest =>
    if target_ticks ≤ s.ticks then { s with body := Function.update s.body f rest }
    else { s with pending := true }

def step (s : Async) : AsyncEvent → Except Fault Async
  | .spawn f body => do
    let tasks ← s.tasks.step (.spawn f)
    return { s with
      tasks := tasks, body := Function.update s.body f body
      spawned := Function.update s.spawned f (body,s.ticks) }
  | .wake id => .ok (s.wake id)
  | .runLater delayNs => .ok (s.runLater delayNs .other).2
  | .take => do return { s with tasks := ← s.tasks.step .take, pending := false }
  | .poll =>
    match s.tasks.pc with
    | .polling id f => .ok (s.pollAwait id f)
    | .idle => .ok s
  | .finish =>
    match s.tasks.pc with
    | .polling _ f => do
      let tasks ← s.tasks.step (.finish (if s.pending then .pending else .ready))
      return { s with tasks := tasks, pending := false, done := if s.pending then s.done else (f,s.ticks) :: s.done }
    | .idle => .ok s
  | .interrupt => .ok { s with ticks := s.ticks + 1, timers := TimerQueue.tick s.timers, pc := .loop }
  | .call =>
    match TimerQueue.popClosure s.timers with
    | some (c,timers) => .ok { s with timers := timers, pc := .closure c }
    | none => .ok s
  | .return =>
    match s.pc with
    | .closure (.wake id) => .ok { s.wake id with pc := .loop }
    | _ => .ok { s with pc := .loop }
  | .done => .ok { s with pc := .outside }

end Async

inductive AsyncReach : Async → Prop where
  | new : AsyncReach .new
  | step {s s' : Async} (e : AsyncEvent) (h : AsyncReach s) (he : s.Enabled e) (hs : s.step e = .ok s') :
      AsyncReach s'

end Lilith.Tasks
