import Lilith.Tasks.Executor
import Lilith.Theory.Fifo

/-! The executor polls the tasks in the order in which they became ready, so that a task that yields
lets all others that are ready go first. -/
namespace Lilith.Tasks
open Theory

namespace TaskSystem
variable {F : Type} {s s' : TaskSystem F} {e : TaskEvent F} {f : F} {id : ℕ}

/-- A step that can be made. -/
def Makes (s : TaskSystem F) (e : TaskEvent F) (s' : TaskSystem F) : Prop := s.Enabled e ∧ s.step e = .ok s'

lemma Inv.makes (h : Inv s) (hm : s.Makes e s') : Inv s' := by
  obtain ⟨s1,h1,h2⟩ := h.step hm.1
  rw [hm.2] at h1
  cases h1
  exact h2

/-- The task that the executor thread begins to poll in a step. -/
def polled (t : Step (TaskSystem F) (TaskEvent F)) : Option ℕ :=
  match t.event, t.after.pc with
  | .take, .polling id _ => some id
  | _, _ => none

/-- Waking a task leaves it where it is in the ready queue, or puts it at the end. -/
lemma wake_joins (x : Executor F) (id : ℕ) : ∃ j, (x.wake id).1.ready = x.ready ++ j := by
  unfold Executor.wake
  split
  · exact ⟨[],by simp⟩
  · exact ⟨[],by simp⟩
  · exact ⟨[],by simp⟩
  · exact ⟨[id],rfl⟩
  · exact ⟨[],by simp⟩

/-- The end of a poll puts no other task than its own into the ready queue. -/
lemma finish_ok {x x' : Executor F} {result : Poll} (h : x.finish id f result = .ok x') :
    x'.ready = x.ready ∨ x'.ready = x.ready ++ [id] ∧ result = .pending := by
  cases result with
  | ready =>
    simp only [Executor.finish, bind, Except.bind, pure, Except.pure] at h
    split at h
    · simp at h
    · cases h
      exact Or.inl rfl
  | pending =>
    simp only [Executor.finish, bind, Except.bind, pure, Except.pure] at h
    cases ht : x.tasks.get id with
    | none => simp [ht, Executor.unwrap] at h
    | some t =>
      simp only [ht, Executor.unwrap] at h
      cases t <;> cases h
      · exact Or.inl rfl
      · exact Or.inr ⟨rfl,rfl⟩

/-- Only the beginning of a poll takes a task from the ready queue, and it takes the first. -/
lemma makes_serves (hm : s.Makes e s') :
    ∃ j, Serves s.executor.ready (polled ⟨s,e,s'⟩).toList j s'.executor.ready := by
  obtain ⟨he,hs⟩ := hm
  cases e with
  | spawn f =>
    simp only [step, Executor.spawn, bind, Except.bind, pure, Except.pure] at hs
    cases hi : s.executor.tasks.insert (.ready f) with
    | error f => simp [hi] at hs
    | ok x =>
      simp only [hi, Except.ok.injEq] at hs
      exact ⟨[x.1],hs ▸ rfl⟩
  | wake id =>
    cases hs
    obtain ⟨j,hj⟩ := wake_joins s.executor id
    exact ⟨j,hj.symm⟩
  | take =>
    simp only [step, Executor.take, bind, Except.bind, pure, Except.pure] at hs
    cases hr : s.executor.ready with
    | nil => exact absurd hr he.2
    | cons id ids =>
      simp only [hr, Executor.unwrap] at hs
      cases ht : s.executor.tasks.get id with
      | none => simp [ht] at hs
      | some t =>
        simp only [ht] at hs
        cases t <;> cases hs
        exact ⟨[],List.append_nil _⟩
  | finish result =>
    simp only [step] at hs
    cases hp : s.pc with
    | idle => exact absurd hp he
    | polling id f =>
      simp only [hp, bind, Except.bind, pure, Except.pure] at hs
      cases hf : s.executor.finish id f result with
      | error f => simp [hf] at hs
      | ok x =>
        simp only [hf, Except.ok.injEq] at hs
        subst hs
        rcases finish_ok hf with hx | ⟨hx,_⟩
        · exact ⟨[],(List.append_nil _).trans hx.symm⟩
        · exact ⟨[id],hx.symm⟩

/-- In every run the tasks are polled in the order in which they became ready. -/
lemma trace_serves {l : List (Step (TaskSystem F) (TaskEvent F))} (h : Trace Makes s l s') :
    ∃ j, Serves s.executor.ready (l.filterMap polled) j s'.executor.ready :=
  h.serves (I := fun _ => True) (fun _ _ _ _ _ => trivial) (fun _ _ _ _ hm => makes_serves hm) trivial

/-- A task that is woken in its own poll is put at the end of the ready queue when the poll ends. -/
lemma finish_requeues (h : Inv s) (hp : s.pc = .polling id f) (hx : s.stateOf id = some .executingAndAwoken)
    (hs : s.step (.finish .pending) = .ok s') : s'.executor.ready = s.executor.ready ++ [id] ∧
      id ∉ s.executor.ready := by
  refine ⟨?_,h.not_mem_ready fun t ht => ?_⟩
  · have hx' : s.executor.tasks.get id = some .executingAndAwoken := hx
    simp only [step, hp, Executor.finish, hx', Executor.unwrap, bind, Except.bind, pure, Except.pure] at hs
    cases hs
    rfl
  · cases hx.symm.trans ht
    rfl

end TaskSystem

open TaskSystem

/-- In every run from any reachable state the ready tasks are polled in their order: until a ready task is
polled, only tasks before it in the ready queue are, each of them once, so that it is polled next after
them. A task that was woken during its own poll and pends, as one that yields does, is polled again only
after every task that was ready when its poll ended, each of which is polled once in between. -/
theorem tasks_polled_in_order {F : Type} {s s' : TaskSystem F} (h : TaskReach s) :
    (∀ l ahead id behind, Trace Makes s l s' → s.executor.ready = ahead ++ id :: behind →
      (id ∉ l.filterMap polled → l.filterMap polled <+: ahead ∧
        ∃ joined, s'.executor.ready = ahead.drop (l.filterMap polled).length ++ id :: behind ++ joined) ∧
      (ahead.length < (l.filterMap polled).length → ahead ++ [id] <+: l.filterMap polled)) ∧
    ∀ id f s1 l before, s.pc = .polling id f → s.stateOf id = some .executingAndAwoken →
      s.step (.finish .pending) = .ok s1 → Trace Makes s1 l s' → l.filterMap polled = before ++ [id] →
      id ∉ before → before = s.executor.ready := by
  have hi := inv_of_reach h
  refine ⟨fun l ahead id behind hrun hq => ⟨fun hwait => ?_,fun hlt => ?_⟩,
    fun id f s1 l before hp hx hs hrun hl hb => ?_⟩
  · obtain ⟨j,hserves⟩ := trace_serves hrun
    rw [hq] at hserves
    exact ⟨hserves.served_prefix hwait,j,hserves.waiting hwait⟩
  · obtain ⟨j,hserves⟩ := trace_serves hrun
    rw [hq] at hserves
    have h1 : l.filterMap polled <+: ahead ++ [id] ++ (behind ++ j) := ⟨s'.executor.ready,by rw [← hserves]; simp⟩
    refine List.prefix_of_prefix_length_le (List.prefix_append _ _) h1 ?_
    simpa using hlt
  · obtain ⟨hready,hid⟩ := finish_requeues hi hp hx hs
    obtain ⟨j,hserves⟩ := trace_serves hrun
    rw [hready, hl] at hserves
    exact Serves.served_eq hserves hb hid

/-- A woken task is polled again after the one that became ready during its poll. -/
theorem tasks_polled_in_order_woken : ∃ s1 s' l, wokenInPoll.step (.finish .pending) = .ok s1 ∧
    Trace Makes s1 l s' ∧ l.filterMap polled = [1] ++ [0] ∧ [1] = wokenInPoll.executor.ready := by
  set s1 : TaskSystem ℕ := { wokenInPoll with
    executor := ⟨⟨[some (.ready 7),some (.ready 8)],[]⟩,[1,0]⟩, pc := .idle } with hs1
  set s2 : TaskSystem ℕ := { s1 with
    executor := ⟨⟨[some (.ready 7),some .executing],[]⟩,[0]⟩, pc := .polling 1 8 } with hs2
  have h2 : Trace Makes s1 _ s2 := Trace.nil.snoc (show Makes s1 .take s2 from ⟨And.intro rfl (by simp [hs1]),rfl⟩)
  have h3 := h2.snoc (show Makes s2 (.finish .ready) _ from ⟨by simp [Enabled, hs2],rfl⟩)
  have h4 := h3.snoc (show Makes _ .take _ from ⟨And.intro rfl (by simp [hs2]),rfl⟩)
  exact ⟨s1,_,_,rfl,h4,rfl,(tasks_polled_in_order reach_wokenInPoll).2 0 7 s1 _ [1] rfl rfl rfl h4 rfl (by simp)⟩

end Lilith.Tasks
