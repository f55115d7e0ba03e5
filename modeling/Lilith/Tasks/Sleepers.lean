import Lilith.Tasks.Async

/-! Tasks that sleep are not forgotten, and do not wake too early. -/
namespace Lilith.Tasks
open Sched (TimerEvent TICK_NS SleepFuture expiries)
open Sched.TimerQueue (tick popClosure)

/-- The state of a task after a wake. -/
def TaskState.woken {F : Type} : TaskState F → TaskState F
  | executing | executingAndAwoken => .executingAndAwoken
  | ready f | paused f => .ready f

namespace TaskSystem
variable {F : Type} {s s' : TaskSystem F} {f g : F} {id j : ℕ}

/-- The future `f` belongs to the task `id`, which is not done. -/
def Owns (s : TaskSystem F) (id : ℕ) (f : F) : Prop :=
  s.stateOf id = some (.ready f) ∨ s.stateOf id = some (.paused f) ∨ s.pc = .polling id f

lemma Inv.owns_mem (h : Inv s) (ho : s.Owns id f) : f ∈ s.spawned := by
  have hplace : ∃ p, s.holds p = some f := by
    rcases ho with ho | ho | ho
    · exact ⟨.slot id,by simp [holds, ho, TaskState.future?]⟩
    · exact ⟨.slot id,by simp [holds, ho, TaskState.future?]⟩
    · exact ⟨.hand,by simp [holds, ho]⟩
  exact ((h.placed.live_iff f).mpr hplace).1

/-- The future that is polled belongs to no other task. -/
lemma Inv.owns_polling (h : Inv s) (hp : s.pc = .polling id f) (ho : s.Owns j f) : j = id := by
  have hhand : s.holds .hand = some f := by simp [holds, hp]
  rcases ho with ho | ho | ho
  · have hslot : s.holds (.slot j) = some f := by simp [holds, ho, TaskState.future?]
    simpa using h.placed.injective _ _ f hslot hhand
  · have hslot : s.holds (.slot j) = some f := by simp [holds, ho, TaskState.future?]
    simpa using h.placed.injective _ _ f hslot hhand
  · cases hp.symm.trans ho
    rfl

lemma Inv.spawn_effect (h : Inv s) (hs : s.step (.spawn f) = .ok s') :
    s'.pc = s.pc ∧ s'.spawned = f :: s.spawned ∧ s'.finished = s.finished ∧
      ∃ id, ∀ j, s'.stateOf j = if j = id then some (.ready f) else s.stateOf j := by
  obtain ⟨id,v,hins,_,_,hget⟩ := h.valid.insert (.ready f)
  simp only [TaskSystem.step, Executor.spawn, hins, bind, Except.bind, pure, Except.pure, Except.ok.injEq] at hs
  subst hs
  exact ⟨rfl,rfl,rfl,id,hget⟩

/-- A wake makes a paused task ready, and tells one that is executing to become so. -/
lemma wake_effect (s : TaskSystem F) (id j : ℕ) :
    stateOf { s with executor := (s.executor.wake id).1 } j = if j = id then (s.stateOf id).map TaskState.woken else s.stateOf j := by
  have hset : ∀ t t' : TaskState F, s.executor.tasks.get id = some t →
      (s.executor.tasks.set id t').get j = if j = id then some t' else s.executor.tasks.get j :=
    fun t t' ht => IdSparseVec.get_set ht j
  simp only [stateOf]
  cases ht : s.executor.tasks.get id with
  | none =>
    simp only [Executor.wake, ht]
    split_ifs with hj
    · rw [hj, ht]
      rfl
    · rfl
  | some t => cases t <;> simp only [Executor.wake, ht] <;> rw [hset _ _ ht] <;> rfl

lemma take_effect (hs : s.step .take = .ok s') : ∃ id f, s'.pc = .polling id f ∧
    s.stateOf id = some (.ready f) ∧ s'.spawned = s.spawned ∧ s'.finished = s.finished ∧
      ∀ j, s'.stateOf j = if j = id then some .executing else s.stateOf j := by
  simp only [TaskSystem.step, Executor.take, bind, Except.bind, pure, Except.pure] at hs
  cases hr : s.executor.ready with
  | nil => simp [hr, Executor.unwrap] at hs
  | cons id ids =>
    simp only [hr, Executor.unwrap] at hs
    cases ht : s.executor.tasks.get id with
    | none => simp [ht] at hs
    | some t =>
      simp only [ht] at hs
      cases t <;> cases hs
      exact ⟨id,_,rfl,ht,rfl,rfl,fun j => IdSparseVec.get_set ht j⟩

lemma Inv.finish_effect {result : Poll} (h : Inv s) (hp : s.pc = .polling id f) (hs : s.step (.finish result) = .ok s') :
    s'.pc = .idle ∧ s'.spawned = s.spawned ∧
      (result = .ready ∧ s'.finished = f :: s.finished ∧ (∀ j, s'.stateOf j = if j = id then none else s.stateOf j) ∨
      result = .pending ∧ s'.finished = s.finished ∧ ∃ t, (t = .ready f ∨ t = .paused f ∧
        s.stateOf id = some .executing) ∧ ∀ j, s'.stateOf j = if j = id then some t else s.stateOf j) := by
  obtain ⟨t,ht,htx⟩ := (h.executing id).mpr ⟨f,hp⟩
  have ht' : s.executor.tasks.get id = some t := ht
  cases result with
  | ready =>
    obtain ⟨v,hrem,_,hget⟩ := h.valid.remove ht'
    simp only [TaskSystem.step, hp, Executor.finish, hrem, bind, Except.bind, pure, Except.pure, Except.ok.injEq] at hs
    subst hs
    exact ⟨rfl,rfl,Or.inl ⟨rfl,rfl,hget⟩⟩
  | pending =>
    simp only [TaskSystem.step, hp, Executor.finish, ht', Executor.unwrap, bind, Except.bind, pure, Except.pure] at hs
    cases t with
    | ready _ | paused _ => simp [TaskState.isExecuting] at htx
    | executing =>
      cases hs
      exact ⟨rfl,rfl,Or.inr ⟨rfl,rfl,.paused f,Or.inr ⟨rfl,ht⟩,fun j => IdSparseVec.get_set ht' j⟩⟩
    | executingAndAwoken =>
      cases hs
      exact ⟨rfl,rfl,Or.inr ⟨rfl,rfl,.ready f,Or.inl rfl,fun j => IdSparseVec.get_set ht' j⟩⟩

end TaskSystem

/-- The ticks of the sleeps that were not begun yet. -/
def remaining (body : List Await) : ℕ :=
  (body.map fun
    | .sleeps (.notYet delayNs) => (delayNs + TICK_NS - 1) / TICK_NS
    | _ => 0).sum

namespace Async
variable {s s' : Async} {id f g t : ℕ} {c : Closure} {e : AsyncEvent}

/-- A closure that wakes the task is in the timer queue, and expires at `t` at the earliest. -/
def Due (s : Async) (id t : ℕ) : Prop := ∃ x ∈ expiries s.ticks s.timers, x.2 = .wake id ∧ t ≤ x.1

/-- A closure that wakes the task has yet to be run. -/
def Registered (s : Async) (id : ℕ) : Prop := s.Due id 0 ∨ s.pc = .closure (.wake id)

/-- The body in the box `f` awaits the end of a sleep at `t`. -/
def Sleeping (s : Async) (f t : ℕ) : Prop := ∃ rest, s.body f = .sleeps (.yet t) :: rest

/-- The time at which the body in the box `f` goes on at the earliest. -/
def resumesAt (s : Async) (f : ℕ) : ℕ :=
  match s.body f with
  | .sleeps (.yet t) :: _ => t
  | _ => s.ticks

structure Inv (s : Async) : Prop where
  tasks : s.tasks.Inv
  new : ∀ f ∈ s.tasks.spawned, ∀ a ∈ (s.body f).tail, a.isNew
  slept : ∀ f ∈ s.tasks.spawned,
    (s.spawned f).2 + remaining (s.spawned f).1 ≤ s.resumesAt f + remaining (s.body f)
  due : ∀ id f t, s.tasks.Owns id f → s.Sleeping f t → t ≤ s.ticks ∨ s.Due id t
  paused : ∀ id f, s.tasks.stateOf id = some (.paused f) → s.Registered id ∧ ∃ t, s.Sleeping f t
  /-- a poll that pends leaves its task paused only if the task sleeps -/
  pending : s.pending = true → ∀ id f, s.tasks.pc = .polling id f → s.tasks.stateOf id = some .executing →
    s.Registered id ∧ ∃ t, s.Sleeping f t
  done : ∀ x ∈ s.done, (s.spawned x.1).2 + remaining (s.spawned x.1).1 ≤ x.2
  finished : s.done.map Prod.fst = s.tasks.finished

lemma inv_new : Inv new where
  tasks := TaskSystem.inv_new
  new := by simp [Async.new, TaskSystem.new]
  slept := by simp [Async.new, TaskSystem.new]
  due := by
    rintro id f t _ ⟨rest,hb⟩
    simp [Async.new] at hb
  paused := by
    intro id f hp
    simp [Async.new, TaskSystem.new, TaskSystem.stateOf, Executor.new, IdSparseVec.get_new] at hp
  pending := by simp [Async.new]
  done := by simp [Async.new]
  finished := rfl

/-! The closures in the timer queue. -/

lemma Due.mono {t' : ℕ} (h : s.Due id t) (ht : t' ≤ t) : s.Due id t' := by
  obtain ⟨x,hx,hid,hle⟩ := h
  exact ⟨x,hx,hid,ht.trans hle⟩

lemma Due.runLater (h : s.Due id t) (d : ℕ) (c : Closure) : (s.runLater d c).2.Due id t := by
  obtain ⟨x,hx,hid,hle⟩ := h
  obtain ⟨l,r,h1,h2,_⟩ := Sched.expiries_insert s.ticks ((d + TICK_NS - 1) / TICK_NS) c s.timers
  refine ⟨x,?_,hid,hle⟩
  change x ∈ expiries s.ticks (Sched.TimerQueue.insert _ c s.timers)
  rw [h1] at hx
  rw [h2]
  simp only [List.mem_append, List.mem_cons] at hx ⊢
  tauto

lemma due_runLater (s : Async) (d id : ℕ) : (s.runLater d (.wake id)).2.Due id (s.runLater d (.wake id)).1 := by
  obtain ⟨l,r,_,h2,_⟩ := Sched.expiries_insert s.ticks ((d + TICK_NS - 1) / TICK_NS) (.wake id) s.timers
  refine ⟨(s.ticks + (d + TICK_NS - 1) / TICK_NS,.wake id),?_,rfl,le_rfl⟩
  change _ ∈ expiries s.ticks (Sched.TimerQueue.insert _ _ s.timers)
  rw [h2]
  simp

lemma Due.tick (h : s.Due id t) :
    Due { s with ticks := s.ticks + 1, timers := tick s.timers, pc := .loop } id t := by
  obtain ⟨x,hx,hid,hle⟩ := h
  cases hq : s.timers with
  | nil => simp [hq, expiries] at hx
  | cons e es =>
    rw [hq] at hx
    rcases Nat.eq_zero_or_pos e.delta with hz | hp
    · refine ⟨(x.1 + 1,x.2),?_,hid,Nat.le_succ_of_le hle⟩
      change _ ∈ expiries (s.ticks + 1) (Sched.TimerQueue.tick (e :: es))
      rw [Sched.expiries_tick_of_zero hz]
      exact List.mem_map_of_mem (f := fun x => (x.1 + 1,x.2)) hx
    · refine ⟨x,?_,hid,hle⟩
      change _ ∈ expiries (s.ticks + 1) (Sched.TimerQueue.tick (e :: es))
      rw [Sched.expiries_tick_of_pos hp]
      exact hx

/-- A closure that is called is due now. -/
lemma Due.call {q : List (TimerEvent Closure)} (h : s.Due id t) (hq : popClosure s.timers = some (c,q)) :
    c = .wake id ∧ t ≤ s.ticks ∨ Due { s with timers := q, pc := .closure c } id t := by
  obtain ⟨x,hx,hid,hle⟩ := h
  rw [(Sched.popClosure_eq_some (b := s.ticks) hq).1] at hx
  rcases List.mem_cons.mp hx with rfl | hx
  · exact Or.inl ⟨hid,hle⟩
  · exact Or.inr ⟨x,hx,hid,hle⟩

/-! What each kind of step keeps. -/

/-- A step of the tasks that changes no body. -/
lemma Inv.retask {tasks : TaskSystem ℕ} {pending : Bool} {done : List (ℕ × ℕ)} (h : Inv s) (hi : tasks.Inv)
    (hspawned : tasks.spawned = s.tasks.spawned) (hfin : done.map Prod.fst = tasks.finished)
    (hdone : ∀ x ∈ done, (s.spawned x.1).2 + remaining (s.spawned x.1).1 ≤ x.2)
    (howns : ∀ id f, tasks.Owns id f → s.tasks.Owns id f)
    (hpaused : ∀ id f, tasks.stateOf id = some (.paused f) → s.Registered id ∧ ∃ t, s.Sleeping f t)
    (hpending : pending = true → ∀ id f, tasks.pc = .polling id f → tasks.stateOf id = some .executing →
      s.Registered id ∧ ∃ t, s.Sleeping f t) : Inv { s with tasks := tasks, pending := pending, done := done } where
  tasks := hi
  new := hspawned ▸ h.new
  slept := hspawned ▸ h.slept
  due id f t ho hb := h.due id f t (howns id f ho) hb
  paused := hpaused
  pending := hpending
  done := hdone
  finished := hfin

lemma resumesAt_mono {ticks : ℕ} {timers : List (TimerEvent Closure)} {pc : InterruptPc} (h : s.ticks ≤ ticks) (f : ℕ) :
    s.resumesAt f ≤ resumesAt { s with ticks := ticks, timers := timers, pc := pc } f := by
  unfold resumesAt
  dsimp only
  split
  · exact le_rfl
  · exact h

/-- A step of the clock, of the timer queue or of the interrupt. -/
lemma Inv.retime {ticks : ℕ} {timers : List (TimerEvent Closure)} {pc : InterruptPc} (h : Inv s)
    (hle : s.ticks ≤ ticks)
    (hdue : ∀ id t, s.Due id t → t ≤ ticks ∨ Due { s with ticks := ticks, timers := timers, pc := pc } id t)
    (hreg : ∀ id, s.Registered id → Registered { s with ticks := ticks, timers := timers, pc := pc } id) :
    Inv { s with ticks := ticks, timers := timers, pc := pc } where
  tasks := h.tasks
  new := h.new
  slept f hf := (h.slept f hf).trans (Nat.add_le_add_right (resumesAt_mono hle f) _)
  due id f t ho hb := (h.due id f t ho hb).elim (fun ht => Or.inl (ht.trans hle)) (hdue id t)
  paused id f hp := (h.paused id f hp).imp_left (hreg id)
  pending hp id f hpc hx := (h.pending hp id f hpc hx).imp_left (hreg id)
  done := h.done
  finished := h.finished

lemma Inv.wake (h : Inv s) (id : ℕ) : Inv (s.wake id) := by
  have hstate := TaskSystem.wake_effect s.tasks id
  refine h.retask (h.tasks.wake id) rfl h.finished h.done (fun j f ho => ?_) (fun j f hp => ?_) fun hp j f hpc hx => ?_
  · unfold TaskSystem.Owns at ho ⊢
    rw [hstate] at ho
    split_ifs at ho with hj
    · subst hj
      cases ht : s.tasks.stateOf j with
      | none => simpa [ht] using ho
      | some t => cases t <;> simp_all [TaskState.woken]
    · exact ho
  · rw [hstate] at hp
    split_ifs at hp with hj
    · cases ht : s.tasks.stateOf id with
      | none => simp [ht] at hp
      | some t => cases t <;> simp [ht, TaskState.woken] at hp
    · exact h.paused j f hp
  · rw [hstate] at hx
    split_ifs at hx with hj
    · cases ht : s.tasks.stateOf id with
      | none => simp [ht] at hx
      | some t => cases t <;> simp [ht, TaskState.woken] at hx
    · exact h.pending hp j f hpc hx

/-- After a wake the task is neither paused nor executing unawoken. -/
lemma wake_state (s : Async) (id : ℕ) : (∀ f, (s.wake id).tasks.stateOf id ≠ some (.paused f)) ∧
    (s.wake id).tasks.stateOf id ≠ some .executing := by
  have hstate := TaskSystem.wake_effect s.tasks id id
  rw [if_pos rfl] at hstate
  have hstate : (s.wake id).tasks.stateOf id = (s.tasks.stateOf id).map TaskState.woken := hstate
  rw [hstate]
  cases s.tasks.stateOf id with
  | none => simp
  | some t => cases t <;> simp [TaskState.woken]

lemma Inv.spawn {body : List Await} (h : Inv s) (hf : f ∉ s.tasks.spawned) (hnew : ∀ a ∈ body, a.isNew = true) :
    ∃ s', s.step (.spawn f body) = .ok s' ∧ Inv s' := by
  obtain ⟨tasks,hs,hi⟩ := h.tasks.spawn hf
  obtain ⟨hpc,hspawned,hfin,id,hstate⟩ := h.tasks.spawn_effect hs
  set s' : Async := { s with
    tasks := tasks, body := Function.update s.body f body
    spawned := Function.update s.spawned f (body,s.ticks) } with hs'
  have hne : ∀ g ∈ s.tasks.spawned, g ≠ f := by
    rintro g hg rfl
    exact hf hg
  have hbody : ∀ g ∈ s.tasks.spawned, s'.body g = s.body g := fun g hg => Function.update_of_ne (hne g hg) _ _
  have hlog : ∀ g ∈ s.tasks.spawned, s'.spawned g = s.spawned g := fun g hg => Function.update_of_ne (hne g hg) _ _
  have hsleep : ∀ g ∈ s.tasks.spawned, ∀ t, s'.Sleeping g t ↔ s.Sleeping g t := fun g hg t => by
    unfold Sleeping
    rw [hbody g hg]
  have hself : s'.body f = body := Function.update_self _ _ _
  have howns : ∀ j g, tasks.Owns j g → g = f ∨ s.tasks.Owns j g := by
    intro j g ho
    unfold TaskSystem.Owns at ho ⊢
    rw [hstate, hpc] at ho
    split_ifs at ho with hj
    · rcases ho with ho | ho | ho
      · simp at ho
        exact Or.inl ho.symm
      · simp at ho
      · exact Or.inr (Or.inr (Or.inr ho))
    · exact Or.inr ho
  refine ⟨s',by simp [step, hs, bind, Except.bind, pure, Except.pure, hs'],hi,fun g hg a ha => ?_,fun g hg => ?_,
    fun j g t ho hb => ?_,fun j g hp => ?_,fun hp j g hpc' hx => ?_,fun x hx => ?_,h.finished.trans hfin.symm⟩
  · rw [show s'.tasks.spawned = f :: s.tasks.spawned from hspawned] at hg
    rcases List.mem_cons.mp hg with rfl | hg
    · exact hnew a (List.mem_of_mem_tail (hself ▸ ha))
    · exact h.new g hg a (hbody g hg ▸ ha)
  · rw [show s'.tasks.spawned = f :: s.tasks.spawned from hspawned] at hg
    rcases List.mem_cons.mp hg with rfl | hg
    · have hlogf : s'.spawned g = (body,s.ticks) := Function.update_self _ _ _
      have hres : s'.resumesAt g = s.ticks := by
        unfold resumesAt
        rw [hself]
        split
        · next t _ => simpa [Await.isNew] using hnew (.sleeps (.yet t))
        · rfl
      rw [hlogf, hself, hres]
    · rw [hlog g hg, hbody g hg]
      have hres : s'.resumesAt g = s.resumesAt g := by
        unfold resumesAt
        rw [hbody g hg]
      rw [hres]
      exact h.slept g hg
  · rcases howns j g ho with rfl | ho
    · obtain ⟨rest,hb⟩ := hb
      rw [hself] at hb
      simpa [Await.isNew] using hnew (.sleeps (.yet t)) (by simp [hb])
    · exact h.due j g t ho ((hsleep g (h.tasks.owns_mem ho) t).mp hb)
  · rw [show s'.tasks.stateOf j = _ from hstate j] at hp
    split_ifs at hp
    · simp at hp
    · have hg := h.tasks.owns_mem (Or.inr (Or.inl hp))
      exact (h.paused j g hp).imp_right (Exists.imp fun t => (hsleep g hg t).mpr)
  · have hpc0 : s.tasks.pc = .polling j g := hpc.symm.trans hpc'
    have hg := h.tasks.owns_mem (Or.inr (Or.inr hpc0))
    rw [show s'.tasks.stateOf j = _ from hstate j] at hx
    split_ifs at hx
    · simp at hx
    · exact (h.pending hp j g hpc0 hx).imp_right (Exists.imp fun t => (hsleep g hg t).mpr)
  · have hmem : x.1 ∈ s.tasks.spawned := h.tasks.finished _ (h.finished ▸ List.mem_map_of_mem hx)
    rw [hlog x.1 hmem]
    exact h.done x hx

lemma Inv.take (h : Inv s) (he : s.tasks.Enabled .take) : ∃ s', s.step .take = .ok s' ∧ Inv s' := by
  obtain ⟨tasks,hs,hi⟩ := h.tasks.step he
  obtain ⟨id,f,hpc,hid,hspawned,hfin,hstate⟩ := TaskSystem.take_effect hs
  refine ⟨{ s with tasks := tasks, pending := false },by simp [step, hs, bind, Except.bind, pure, Except.pure],
    h.retask hi hspawned (h.finished.trans hfin.symm) h.done (fun j g ho => ?_) (fun j g hp => ?_) (by simp)⟩
  · unfold TaskSystem.Owns at ho ⊢
    rw [hstate, hpc] at ho
    rcases ho with ho | ho | ho
    · split_ifs at ho
      · simp at ho
      · exact Or.inl ho
    · split_ifs at ho
      · simp at ho
      · exact Or.inr (Or.inl ho)
    · obtain ⟨rfl,rfl⟩ : id = j ∧ f = g := by simpa using ho
      exact Or.inl hid
  · rw [hstate] at hp
    split_ifs at hp
    · simp at hp
    · exact h.paused j g hp

/-- The end of a poll. A task becomes paused only if it sleeps. -/
lemma Inv.finish (h : Inv s) (hp : s.tasks.pc = .polling id f) (hend : s.pending = true ∨ s.body f = []) :
    ∃ s', s.step .finish = .ok s' ∧ Inv s' := by
  obtain ⟨tasks,hs,hi⟩ := h.tasks.finish (by simp [hp]) (if s.pending then Poll.pending else .ready)
  obtain ⟨hpc,hspawned,hcases⟩ := h.tasks.finish_effect hp hs
  have hf := h.tasks.owns_mem (Or.inr (Or.inr hp))
  refine ⟨{ s with
      tasks := tasks, pending := false, done := if s.pending then s.done else (f,s.ticks) :: s.done },
    by simp [step, hp, hs, bind, Except.bind, pure, Except.pure],?_⟩
  cases hpend : s.pending with
  | true =>
    rw [hpend] at hcases
    rcases hcases with ⟨hr,_⟩ | ⟨_,hfin,t,ht,hstate⟩
    · simp at hr
    refine h.retask hi hspawned (h.finished.trans hfin.symm) h.done (fun j g ho => ?_) (fun j g hp' => ?_) (by simp)
    · unfold TaskSystem.Owns at ho ⊢
      rw [hstate, hpc] at ho
      split_ifs at ho with hj
      · subst hj
        obtain rfl : f = g := by rcases ht with rfl | ⟨rfl,_⟩ <;> simpa using ho
        exact Or.inr (Or.inr hp)
      · exact ho.imp_right fun ho => Or.inl (ho.resolve_right (by simp))
    · rw [hstate] at hp'
      split_ifs at hp' with hj
      · rcases ht with rfl | ⟨rfl,hx⟩
        · simp at hp'
        · obtain rfl : f = g := by simpa using hp'
          exact hj ▸ h.pending hpend id f hp hx
      · exact h.paused j g hp'
  | false =>
    rw [hpend] at hcases
    have hempty : s.body f = [] := hend.resolve_left (by simp [hpend])
    rcases hcases with ⟨_,hfin,hstate⟩ | ⟨hr,_⟩
    · have hslept : (s.spawned f).2 + remaining (s.spawned f).1 ≤ s.ticks := by
        simpa [resumesAt, hempty, remaining] using h.slept f hf
      refine h.retask hi hspawned ?_ (fun x hx => ?_) (fun j g ho => ?_) (fun j g hp' => ?_) (by simp)
      · rw [hfin, ← h.finished]
        rfl
      · rcases List.mem_cons.mp hx with rfl | hx
        · exact hslept
        · exact h.done x hx
      · unfold TaskSystem.Owns at ho ⊢
        rw [hstate, hpc] at ho
        split_ifs at ho with hj
        · simp at ho
        · exact ho.imp_right fun ho => Or.inl (ho.resolve_right (by simp))
      · rw [hstate] at hp'
        split_ifs at hp' with hj
        exact h.paused j g hp'
    · simp at hr

/-- A poll changes the body that is polled. -/
lemma Inv.rebody {b : List Await} {pending : Bool} (h : Inv s) (hp : s.tasks.pc = .polling id f)
    (hnew : ∀ a ∈ b.tail, a.isNew = true)
    (hslept : s.resumesAt f + remaining (s.body f) ≤
      resumesAt { s with body := Function.update s.body f b, pending := pending } f + remaining b)
    (hdue : ∀ t rest, b = .sleeps (.yet t) :: rest → t ≤ s.ticks ∨ s.Due id t)
    (hpend : pending = true → s.tasks.stateOf id = some .executing →
      s.Registered id ∧ ∃ t rest, b = .sleeps (.yet t) :: rest) :
    Inv { s with body := Function.update s.body f b, pending := pending } := by
  have hself : Function.update s.body f b f = b := Function.update_self _ _ _
  have hother : ∀ g, g ≠ f → Function.update s.body f b g = s.body g := fun g hg => Function.update_of_ne hg _ _
  refine ⟨h.tasks,fun g hg a ha => ?_,fun g hg => ?_,fun j g t ho hb => ?_,fun j g hpaused => ?_,
    fun hpt j g hpc hx => ?_,h.done,h.finished⟩
  · dsimp only at ha
    by_cases hgf : g = f
    · rw [hgf, hself] at ha
      exact hnew a ha
    · rw [hother g hgf] at ha
      exact h.new g hg a ha
  · by_cases hgf : g = f
    · subst hgf
      dsimp only
      rw [hself]
      exact (h.slept g hg).trans hslept
    · have hres : resumesAt { s with body := Function.update s.body f b, pending := pending } g = s.resumesAt g := by
        unfold resumesAt
        dsimp only
        rw [hother g hgf]
      rw [hres]
      dsimp only
      rw [hother g hgf]
      exact h.slept g hg
  · obtain ⟨rest,hb⟩ := hb
    dsimp only at hb
    by_cases hgf : g = f
    · rw [hgf, hself] at hb
      obtain rfl := h.tasks.owns_polling hp (hgf ▸ ho)
      exact hdue t rest hb
    · rw [hother g hgf] at hb
      exact h.due j g t ho ⟨rest,hb⟩
  · -- the task that is polled is executing
    have hgf : g ≠ f := by
      rintro rfl
      obtain rfl := h.tasks.owns_polling hp (Or.inr (Or.inl hpaused))
      obtain ⟨t,ht,htx⟩ := (h.tasks.executing j).mpr ⟨g,hp⟩
      obtain rfl : t = .paused g := Option.some.inj (ht.symm.trans hpaused)
      simp [TaskState.isExecuting] at htx
    refine (h.paused j g hpaused).imp_right fun ht => ?_
    obtain ⟨t,rest,hb⟩ := ht
    exact ⟨t,rest,(hother g hgf).trans hb⟩
  · obtain ⟨rfl,rfl⟩ : id = j ∧ f = g := by simpa [hp] using hpc
    obtain ⟨hreg,t,rest,hb⟩ := hpend hpt hx
    exact ⟨hreg,t,rest,hself.trans hb⟩

lemma Inv.runLater (h : Inv s) (d : ℕ) (c : Closure) : Inv (s.runLater d c).2 :=
  h.retime le_rfl (fun _ _ hd => Or.inr (hd.runLater d c)) fun _ hr => hr.imp_left fun hd => hd.runLater d c

lemma resumesAt_of_new {b : List Await} (hb : s.body f = b) (hnew : ∀ a ∈ b, a.isNew = true) : s.resumesAt f = s.ticks := by
  unfold resumesAt
  split
  · next t rest hyet =>
    rw [hb] at hyet
    simpa [Await.isNew] using hnew (.sleeps (.yet t)) (by simp [hyet])
  · rfl

/-- A body that has waited for its await goes on to what comes after it. -/
lemma Inv.advance {a : Await} {rest : List Await} (h : Inv s) (hp : s.tasks.pc = .polling id f)
    (hb : s.body f = a :: rest) (hle : s.resumesAt f ≤ s.ticks) (ha : remaining (a :: rest) = remaining rest)
    (hpend : s.pending = false) : Inv { s with body := Function.update s.body f rest } := by
  have hf := h.tasks.owns_mem (Or.inr (Or.inr hp))
  have hrest : ∀ a ∈ rest, a.isNew = true := fun a ha => h.new f hf a (by rw [hb]; exact ha)
  refine h.rebody hp (fun a ha => hrest a (List.mem_of_mem_tail ha)) ?_ (fun t rest' he => ?_) (by simp [hpend])
  · have hself : Function.update s.body f rest f = rest := Function.update_self _ _ _
    rw [hb, ha, resumesAt_of_new (s := { s with body := Function.update s.body f rest }) hself hrest]
    exact Nat.add_le_add_right hle _
  · simpa [Await.isNew] using hrest (.sleeps (.yet t)) (by simp [he])

lemma Inv.pollAwait (h : Inv s) (hp : s.tasks.pc = .polling id f) (hpend : s.pending = false) :
    Inv (s.pollAwait id f) := by
  have hf := h.tasks.owns_mem (Or.inr (Or.inr hp))
  have htail : ∀ a rest, s.body f = a :: rest → ∀ x ∈ rest, x.isNew = true :=
    fun a rest hb x hx => h.new f hf x (by rw [hb]; exact hx)
  unfold Async.pollAwait
  split
  · exact h
  · next rest hb =>
    have hbw : (s.wake id).body f = .yields .notYielded :: rest := hb
    refine (h.wake id).rebody (f := f) hp (htail _ _ hb) ?_ (by simp) fun _ hx => absurd hx (wake_state s id).2
    rw [hbw]
    simp [resumesAt, hbw, remaining]
  · next rest hb =>
    exact h.advance hp hb (by simp [resumesAt, hb]) (by simp [remaining]) hpend
  · next d rest hb =>
    have hr := h.runLater d (.wake id)
    have hbr : (s.runLater d (.wake id)).2.body f = .sleeps (.notYet d) :: rest := hb
    refine hr.rebody (f := f) hp (htail _ _ hb) ?_ ?_ fun _ _ => ?_
    · rw [hbr]
      simp [resumesAt, hb, remaining, Async.runLater]
      omega
    · rintro t rest' he
      obtain ⟨he,_⟩ := List.cons.inj he
      simp only [Await.sleeps.injEq, SleepFuture.yet.injEq] at he
      exact Or.inr (he ▸ due_runLater s d id)
    · exact ⟨Or.inl ((due_runLater s d id).mono (Nat.zero_le _)),_,rest,rfl⟩
  · next t rest hb =>
    split_ifs with hle
    · exact h.advance hp hb (by simpa [resumesAt, hb] using hle) (by simp [remaining]) hpend
    · refine h.retask h.tasks rfl h.finished h.done (fun _ _ ho => ho) h.paused fun _ j g hpc _ => ?_
      obtain ⟨rfl,rfl⟩ : id = j ∧ f = g := by simpa [hp] using hpc
      have hdue := (h.due id f t (Or.inr (Or.inr hp)) ⟨rest,hb⟩).resolve_left hle
      exact ⟨Or.inl (hdue.mono (Nat.zero_le _)),t,rest,hb⟩

/-- Every step that can be made succeeds and keeps the invariant. -/
theorem Inv.step (h : Inv s) (he : s.Enabled e) : ∃ s', s.step e = .ok s' ∧ Inv s' := by
  -- what is registered is in the queue, unless a closure is running
  have hreg : ∀ {ticks timers pc}, (∀ c, s.pc ≠ .closure c) → (∀ id, s.Due id 0 →
      Registered { s with ticks := ticks, timers := timers, pc := pc } id) → ∀ id, s.Registered id →
      Registered { s with ticks := ticks, timers := timers, pc := pc } id :=
    fun hpc hdue id hr => hdue id (hr.resolve_right (hpc _))
  cases e with
  | spawn f body => exact h.spawn he.2.1 he.2.2
  | wake id => exact ⟨_,rfl,h.wake id⟩
  | runLater d => exact ⟨_,rfl,h.runLater d .other⟩
  | take => exact h.take he.2
  | poll =>
    obtain ⟨_,hpend,id,f,hp,_⟩ := he
    exact ⟨s.pollAwait id f,by simp [Async.step, hp],h.pollAwait hp hpend⟩
  | finish =>
    obtain ⟨_,id,f,hp,hend⟩ := he
    exact h.finish hp hend
  | interrupt =>
    have hpc : s.pc = .outside := he
    exact ⟨_,rfl,h.retime (Nat.le_succ _) (fun _ _ hd => Or.inr hd.tick)
      (hreg (by simp [hpc]) fun _ hd => Or.inl hd.tick)⟩
  | call =>
    obtain ⟨hpc,hsome⟩ := he
    obtain ⟨⟨c,q⟩,hq⟩ := Option.isSome_iff_exists.mp hsome
    refine ⟨{ s with timers := q, pc := .closure c },by simp [Async.step, hq],h.retime le_rfl (fun id t hd => ?_)
      (hreg (by simp [hpc]) fun id hd => ?_)⟩
    · exact (hd.call hq).imp_left And.right
    · rcases hd.call hq with ⟨rfl,_⟩ | hd
      · exact Or.inr rfl
      · exact Or.inl hd
  | «return» =>
    obtain ⟨c,hpc⟩ := he
    cases c with
    | other =>
      refine ⟨{ s with pc := .loop },by simp [Async.step, hpc],h.retime le_rfl (fun _ _ hd => Or.inr hd) fun id hr => ?_⟩
      exact Or.inl (hr.resolve_right (by simp [hpc]))
    | wake id =>
      have hw := h.wake id
      refine ⟨{ s.wake id with pc := .loop },by simp [Async.step, hpc],?_⟩
      have hkeep : ∀ j, j ≠ id → (s.wake id).Registered j → Registered { s.wake id with pc := .loop } j := by
        intro j hj hr
        have hpcw : (s.wake id).pc = .closure (.wake id) := hpc
        refine Or.inl (hr.resolve_right ?_)
        rw [hpcw]
        simpa using Ne.symm hj
      refine ⟨hw.tasks,hw.new,hw.slept,hw.due,fun j f hp => ?_,fun hpend j f hp hx => ?_,hw.done,hw.finished⟩
      · have hj : j ≠ id := by
          rintro rfl
          exact (wake_state s j).1 f hp
        exact (hw.paused j f hp).imp_left (hkeep j hj)
      · have hj : j ≠ id := by
          rintro rfl
          exact (wake_state s j).2 hx
        exact (hw.pending hpend j f hp hx).imp_left (hkeep j hj)
  | done =>
    exact ⟨_,rfl,h.retime le_rfl (fun _ _ hd => Or.inr hd) (hreg (by simp [he.1]) fun _ hd => Or.inl hd)⟩

theorem inv_of_reach (h : AsyncReach s) : Inv s := by
  induction h with
  | new => exact inv_new
  | step e _ he hs ih =>
    obtain ⟨s',hs',hinv⟩ := ih.step he
    cases hs.symm.trans hs'
    exact hinv

end Async

/-- In every interleaving of tasks that yield and sleep with timer interrupts, other closures and spurious
wakes, a task is done no earlier than all of its sleeps take one after the other; a paused task awaits the
end of a sleep, and the closure that wakes it is in the timer queue or running; so when nothing is left
to do, neither for the executor nor for the timer queue, every task is done. No step fails. -/
theorem sleeping_tasks_wake {s : Async} (h : AsyncReach s) :
    (∀ x ∈ s.done, (s.spawned x.1).2 + remaining (s.spawned x.1).1 ≤ x.2) ∧
    (∀ id f, s.tasks.stateOf id = some (.paused f) → (∃ t rest, s.body f = .sleeps (.yet t) :: rest) ∧
      ((∃ e ∈ s.timers, e.closure = .wake id) ∨ s.pc = .closure (.wake id))) ∧
    (s.tasks.executor.ready = [] → s.tasks.pc = .idle → s.timers = [] → s.pc = .outside →
      ∀ f ∈ s.tasks.spawned, f ∈ s.done.map Prod.fst) ∧
    ∀ e, s.Enabled e → ∃ s', s.step e = .ok s' := by
  have hi := Async.inv_of_reach h
  have hqueue : ∀ id, s.Due id 0 → ∃ e ∈ s.timers, e.closure = .wake id := by
    rintro id ⟨x,hx,hid,_⟩
    have hmem : Closure.wake id ∈ (expiries s.ticks s.timers).map Prod.snd := hid ▸ List.mem_map_of_mem hx
    rw [Sched.map_snd_expiries] at hmem
    exact List.mem_map.mp hmem
  refine ⟨hi.done,fun id f hp => ?_,fun hready hpc htimers hout f hf => ?_,fun e he => ?_⟩
  · obtain ⟨hreg,hsleep⟩ := hi.paused id f hp
    exact ⟨hsleep,hreg.imp_left (hqueue id)⟩
  · rw [hi.finished]
    by_contra hfin
    obtain ⟨p,hp⟩ := (hi.tasks.placed.live_iff f).mp ⟨hf,hfin⟩
    cases p with
    | hand => simp [TaskSystem.holds, hpc] at hp
    | slot id =>
      obtain ⟨t,ht,htf⟩ := Option.bind_eq_some_iff.mp hp
      cases t with
      | executing | executingAndAwoken => simp [TaskState.future?] at htf
      | ready g =>
        have hmem := (hi.tasks.mem_ready id).mpr ⟨_,ht,rfl⟩
        simp [hready] at hmem
      | paused g =>
        rcases (hi.paused id g ht).1 with hd | hclosure
        · obtain ⟨e,he,_⟩ := hqueue id hd
          simp [htimers] at he
        · simp [hout] at hclosure
  · obtain ⟨s',hs',_⟩ := hi.step he
    exact ⟨s',hs'⟩

/-- A task that sleeps for 15 ms is done at the second timer interrupt. -/
theorem sleeping_tasks_wake_one : ∃ s, AsyncReach s ∧ s.done = [(7,2)] ∧ s.spawned 7 = ([.sleeps (.notYet 15000000)],0) ∧
    0 + remaining [.sleeps (.notYet 15000000)] ≤ 2 := by
  have h1 : AsyncReach _ := .step (.spawn 7 [.sleeps (.notYet 15000000)]) .new
    (by simp [Async.Enabled, Async.new, TaskSystem.new, Await.isNew]) rfl
  have h2 : AsyncReach _ := .step .take h1 ⟨rfl,rfl,List.cons_ne_nil _ _⟩ rfl
  have h3 : AsyncReach _ := .step .poll h2 ⟨rfl,rfl,0,7,rfl,List.cons_ne_nil _ _⟩ rfl
  have h4 : AsyncReach _ := .step .finish h3 ⟨rfl,0,7,rfl,Or.inl rfl⟩ rfl
  have h5 : AsyncReach _ := .step .done (.step .interrupt h4 rfl rfl) ⟨rfl,rfl⟩ rfl
  have h6 : AsyncReach _ := .step .call (.step .interrupt h5 rfl rfl) ⟨rfl,rfl⟩ rfl
  have h7 : AsyncReach _ := .step .done (.step .return h6 ⟨_,rfl⟩ rfl) ⟨rfl,rfl⟩ rfl
  have h8 : AsyncReach _ := .step .take h7 ⟨rfl,rfl,List.cons_ne_nil _ _⟩ rfl
  have h9 : AsyncReach _ := .step .poll h8 ⟨rfl,rfl,0,7,rfl,List.cons_ne_nil _ _⟩ rfl
  have h10 : AsyncReach _ := .step .finish h9 ⟨rfl,0,7,rfl,Or.inr rfl⟩ rfl
  exact ⟨_,h10,rfl,rfl,(sleeping_tasks_wake h10).1 (7,2) List.mem_cons_self⟩

end Lilith.Tasks
