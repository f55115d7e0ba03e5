import Lilith.Sched.Timers

/-! When the closures are run that are registered between two timer interrupts. A closure that has
expired before an interrupt keeps the interrupt from shortening the wait of the others. -/
namespace Lilith.Sched
open TimerQueue hiding insert
open Timers

variable {s s' s'' : Timers} {a : TimerAct} {r : Registration}

/-- The value of `mach().ticks()` at which the closure should be run: at the next interrupt, or when its
ticks have passed. -/
def Registration.due (r : Registration) : ℕ := r.now + max r.ticks 1

/-- Closures were run at their time, and outside of the handler none is overdue. -/
structure Timers.OnTime (s : Timers) : Prop where
  ran : ∀ x ∈ s.ran, x.2 = x.1.due
  missed : s.pc = .outside → ∀ r ∈ s.registered, r.due ≤ s.ticks → (r,r.due) ∈ s.ran

/-- `run_later` is called between timer interrupts only. -/
def BetweenInterrupts (s : Timers) (a : TimerAct) : Prop := ∀ d, a = .runLater d → s.pc = .outside

/-- If the first closure has expired, all have. -/
def Steady {C : Type} (q : List (TimerEvent C)) : Prop :=
  ∀ t ∈ q.head?, t.delta = 0 → ∀ t' ∈ q, t'.delta = 0

instance {C : Type} (q : List (TimerEvent C)) : Decidable (Steady q) :=
  inferInstanceAs (Decidable (∀ t ∈ q.head?, t.delta = 0 → ∀ t' ∈ q, t'.delta = 0))

/-- No interrupt finds a queue where some closures have expired and others have not. -/
def Undisturbed (s : Timers) (a : TimerAct) : Prop :=
  BetweenInterrupts s a ∧ (a = .interrupt → Steady s.queue)

/-- The state of the timers while all closures are on time. -/
structure Timers.Punctual (s : Timers) : Prop where
  ran : ∀ x ∈ s.ran, x.2 = x.1.due
  outside : s.pc = .outside → ∀ x ∈ expiries s.ticks s.queue,
    (x.2.ticks = 0 ∧ x.2.now = s.ticks ∧ x.1 = s.ticks) ∨
    (0 < x.2.ticks ∧ s.ticks < x.1 ∧ x.1 = x.2.targetTicks)
  inside : s.pc ≠ .outside → ∀ x ∈ expiries s.ticks s.queue, x.1 = x.2.due ∧ x.2.now < s.ticks

lemma Registration.due_of_pos (h : 0 < r.ticks) : r.due = r.targetTicks := by
  unfold due targetTicks
  omega

lemma Registration.due_of_zero (h : r.ticks = 0) : r.due = r.now + 1 := by
  unfold due
  omega

lemma expiries_of_zero {C : Type} {b : ℕ} {q : List (TimerEvent C)} (h : ∀ t ∈ q, t.delta = 0) :
    ∀ x ∈ expiries b q, x.1 = b := by
  induction q with
  | nil => simp [expiries]
  | cons t ts ih =>
    have ht : t.delta = 0 := h t List.mem_cons_self
    intro x hx
    simp only [expiries, ht, Nat.add_zero] at hx
    rcases List.mem_cons.mp hx with rfl | hx
    · rfl
    · exact ih (fun t ht => h t (List.mem_cons_of_mem _ ht)) x hx

lemma lt_expiries_of_pos {C : Type} {b : ℕ} {t : TimerEvent C} {ts : List (TimerEvent C)} (h : 0 < t.delta) :
    ∀ x ∈ expiries b (t :: ts), b < x.1 := by
  intro x hx
  apply popClosure_eq_none _ hx
  simp [popClosure, h.ne']

lemma exists_lt_expiries {C : Type} {b : ℕ} {q : List (TimerEvent C)} {t : TimerEvent C} (ht : t ∈ q)
    (h : 0 < t.delta) : ∃ x ∈ expiries b q, b < x.1 := by
  induction q generalizing b with
  | nil => exact absurd ht List.not_mem_nil
  | cons t' ts ih =>
    rcases List.mem_cons.mp ht with rfl | ht
    · exact ⟨_,List.mem_cons_self,Nat.lt_add_of_pos_right h⟩
    · obtain ⟨x,hx,hlt⟩ := ih (b := b + t'.delta) ht
      exact ⟨x,List.mem_cons_of_mem _ hx,(Nat.le_add_right b t'.delta).trans_lt hlt⟩

namespace Timers

/-- An interrupt at a steady queue: either all closures have expired, and the next tick is theirs, or it
shortens the wait of all. -/
lemma Punctual.interrupt (h : s.Punctual) (hi : s.Inv) (hpc : s.pc = .outside) (hst : Steady s.queue) :
    Punctual { s with ticks := s.ticks + 1, queue := tick s.queue, pc := .loop } := by
  refine ⟨h.ran,fun hc => absurd hc (by simp),fun _ => ?_⟩
  intro y hy
  have hnow : y.2.now < s.ticks + 1 := by
    obtain ⟨x,hx,he,_⟩ := mem_expiries_tick hy
    rw [← he]
    exact Nat.lt_succ_of_le (hi.now_le _ (hi.waiting_mem hx))
  refine ⟨?_,hnow⟩
  have hout := h.outside hpc
  cases hq : s.queue with
  | nil => simp [hq, tick, expiries] at hy
  | cons t ts =>
    simp only [hq] at hy hout hst
    rcases Nat.eq_zero_or_pos t.delta with hz | hp
    · have hall := hst t rfl hz
      rw [expiries_tick_of_zero hz] at hy
      obtain ⟨x,hx,rfl⟩ := List.mem_map.mp hy
      have hb := expiries_of_zero hall x hx
      rcases hout x hx with ⟨h1,h2,h3⟩ | ⟨_,h2,_⟩
      · show x.1 + 1 = x.2.due
        rw [Registration.due_of_zero h1, h2, h3]
      · omega
    · rw [expiries_tick_of_pos hp] at hy
      have hb := lt_expiries_of_pos hp y hy
      rcases hout y hy with ⟨_,_,h3⟩ | ⟨h1,_,h3⟩
      · omega
      · rw [Registration.due_of_pos h1, h3]

lemma Punctual.step (h : s.Punctual) (hi : s.Inv) (hc : Undisturbed s a) (hs : s.step a = some s') :
    s'.Punctual := by
  rcases step_cases hs with ⟨d,ha,_,rfl⟩ | ⟨ha,hpc,rfl⟩ | ⟨c,q,_,hpc,hq,rfl⟩ | ⟨_,hpc,rfl⟩ | ⟨_,hpc,hq,rfl⟩
  · have hpc := hc.1 d ha
    refine ⟨h.ran,fun _ => ?_,fun hpc' => absurd hpc hpc'⟩
    intro x hx
    rcases mem_expiries_runLater hx with rfl | hx
    · rcases Nat.eq_zero_or_pos (s.next d).ticks with hz | hp
      · have htarget : s.ticks + (s.next d).ticks = s.ticks := by rw [hz, Nat.add_zero]
        exact Or.inl ⟨hz,rfl,htarget⟩
      · exact Or.inr ⟨hp,Nat.lt_add_of_pos_right hp,rfl⟩
    · exact h.outside hpc x hx
  · exact h.interrupt hi hpc (hc.2 ha)
  · obtain ⟨hexp,_⟩ := popClosure_eq_some (b := s.ticks) hq
    have hin := h.inside (by rw [hpc]; decide)
    refine ⟨?_,fun hc => absurd hc (by simp),fun _ x hx => hin x (hexp ▸ List.mem_cons_of_mem _ hx)⟩
    intro x hx
    rcases List.mem_append.mp hx with hx | hx
    · exact h.ran x hx
    · obtain rfl := List.mem_singleton.mp hx
      exact (hin (s.ticks,c) (hexp ▸ List.mem_cons_self)).1
  · exact ⟨h.ran,fun hc => absurd hc (by simp),fun _ => h.inside (by rw [hpc]; decide)⟩
  · refine ⟨h.ran,fun _ => ?_,fun hc => absurd rfl hc⟩
    intro x hx
    -- what is left was registered before the interrupt and is due later
    obtain ⟨h1,h2⟩ := h.inside (by rw [hpc]; decide) x hx
    have hgt : s.ticks < x.1 := popClosure_eq_none hq hx
    rcases Nat.eq_zero_or_pos x.2.ticks with hz | hp
    · rw [Registration.due_of_zero hz] at h1
      omega
    · exact Or.inr ⟨hp,hgt,h1.trans (Registration.due_of_pos hp)⟩

lemma Punctual.onTime (h : s.Punctual) (hi : s.Inv) : s.OnTime := by
  refine ⟨h.ran,?_⟩
  intro hpc r hr hdue
  rcases List.mem_append.mp (hi.perm.mem_iff.mpr hr) with hran | hwait
  · obtain ⟨x,hx,rfl⟩ := List.mem_map.mp hran
    rw [← h.ran x hx]
    exact hx
  · rw [← map_snd_expiries s.ticks] at hwait
    obtain ⟨x,hx,rfl⟩ := List.mem_map.mp hwait
    rcases h.outside hpc x hx with ⟨h1,h2,_⟩ | ⟨h1,h2,h3⟩
    · rw [Registration.due_of_zero h1] at hdue
      omega
    · rw [Registration.due_of_pos h1] at hdue
      omega

end Timers

lemma TimerRun.trans {C : Timers → TimerAct → Prop} (h : TimerRun C s s') (h' : TimerRun C s' s'') :
    TimerRun C s s'' := by
  induction h' with
  | refl => exact h
  | step _ hc ha ih => exact ih.step hc ha

lemma TimerRun.punctual (h : TimerRun Undisturbed new s) : s.Punctual := by
  induction h with
  | refl => exact ⟨by simp [new],by simp [new, expiries],by simp [new]⟩
  | step h hc ha ih => exact ih.step (h.inv inv_new) hc ha

lemma undisturbed_of_ne (h : ∀ d, a ≠ .runLater d) (h' : a ≠ .interrupt) : Undisturbed s a :=
  ⟨fun d hd => absurd hd (h d),fun hint => absurd hint h'⟩

/-- The loop of `timer_interrupt` ends: each round takes a closure off the queue. -/
lemma loop_ends (n : ℕ) (hn : s.queue.length ≤ n) (hpc : s.pc = .loop) :
    ∃ s', TimerRun Undisturbed s s' ∧ s'.pc = .outside ∧ s'.ticks = s.ticks := by
  induction n generalizing s with
  | zero =>
    have hq : s.queue = [] := List.length_eq_zero_iff.mp (Nat.le_zero.mp hn)
    have hstep : s.step .done = some { s with pc := .outside } := by simp [step, hpc, hq, popClosure]
    exact ⟨_,TimerRun.refl.step (undisturbed_of_ne (by simp) (by simp)) hstep,rfl,rfl⟩
  | succ n ih =>
    cases hq : popClosure s.queue with
    | none =>
      have hstep : s.step .done = some { s with pc := .outside } := by simp [step, hpc, hq]
      exact ⟨_,TimerRun.refl.step (undisturbed_of_ne (by simp) (by simp)) hstep,rfl,rfl⟩
    | some p =>
      obtain ⟨r,q⟩ := p
      have hlen : q.length ≤ n := by
        have hmap := congrArg List.length (popClosure_eq_some (b := 0) hq).2
        simp only [List.length_map, List.length_cons] at hmap
        omega
      have hcall : s.step .call = some { s with queue := q, pc := .closure, ran := s.ran ++ [(r,s.ticks)] } := by
        simp [step, hpc, hq]
      have hround := (TimerRun.refl.step (undisturbed_of_ne (by simp) (by simp)) hcall).step (a := .return)
        (undisturbed_of_ne (by simp) (by simp)) rfl
      obtain ⟨s',h1,h2,h3⟩ := ih (s := ⟨s.ticks,q,.loop,s.registered,s.ran ++ [(r,s.ticks)]⟩) hlen rfl
      exact ⟨s',hround.trans h1,h2,h3⟩

/-- Every handler ends. -/
lemma handler_ends (s : Timers) : ∃ s', TimerRun Undisturbed s s' ∧ s'.pc = .outside ∧ s'.ticks = s.ticks := by
  cases hpc : s.pc with
  | outside => exact ⟨s,.refl,hpc,rfl⟩
  | loop => exact loop_ends _ le_rfl hpc
  | closure =>
    have hret : s.step .return = some { s with pc := .loop } := by simp [step, hpc]
    obtain ⟨s',h1,h2,h3⟩ := loop_ends (s := { s with pc := .loop }) _ le_rfl rfl
    exact ⟨s',(TimerRun.refl.step (undisturbed_of_ne (by simp) (by simp)) hret).trans h1,h2,h3⟩

/-- An interrupt at a queue that is not steady makes a closure late. -/
lemma late_of_not_steady (h : TimerRun Undisturbed new s) (hs : s.step .interrupt = some s')
    (hst : ¬ Steady s.queue) : ∃ r ∈ s.registered, s'.NotBefore r (r.due + 1) := by
  have hi := h.inv inv_new
  have hp := h.punctual
  obtain ⟨hpc,rfl⟩ : s.pc = .outside ∧
      s' = { s with ticks := s.ticks + 1, queue := tick s.queue, pc := .loop } := by
    rcases step_cases hs with ⟨d,ha,_⟩ | ⟨_,h1,h2⟩ | ⟨_,_,ha,_⟩ | ⟨ha,_⟩ | ⟨ha,_⟩
    · exact absurd ha (by simp)
    · exact ⟨h1,h2⟩
    all_goals exact absurd ha (by simp)
  unfold Steady at hst
  push Not at hst
  obtain ⟨t,ht,hz,t',ht',hne⟩ := hst
  obtain ⟨ts,hq⟩ : ∃ ts, s.queue = t :: ts := List.head?_eq_some_iff.mp ht
  obtain ⟨x,hx,hlt⟩ := exists_lt_expiries (b := s.ticks) ht' (Nat.pos_of_ne_zero hne)
  have hpos : ∀ y ∈ expiries s.ticks s.queue, y.2 = x.2 → y.1 = x.2.due ∧ s.ticks < y.1 := by
    have hx2 : 0 < x.2.ticks := by
      rcases hp.outside hpc x hx with ⟨_,_,h3⟩ | ⟨h1,_,_⟩
      · omega
      · exact h1
    intro y hy he
    rcases hp.outside hpc y hy with ⟨h1,_,_⟩ | ⟨h1,h2,h3⟩
    · rw [he] at h1
      omega
    · rw [h3, he, Registration.due_of_pos hx2]
      rw [h3, he] at h2
      exact ⟨rfl,h2⟩
  refine ⟨x.2,hi.waiting_mem hx,?_,?_⟩
  · intro y hy he
    simp only [hq, expiries_tick_of_zero hz] at hy
    obtain ⟨z,hz,rfl⟩ := List.mem_map.mp hy
    rw [← hq] at hz
    exact Nat.succ_le_succ (hpos z hz he).1.ge
  · intro y hy he
    have hran := hp.ran y hy
    have hle := hi.ran_le y hy
    obtain ⟨h1,h2⟩ := hpos x hx rfl
    rw [he] at hran
    omega

/-- While no interrupt finds expired closures before others that wait, every closure is run in the
interrupt that raises `mach().ticks()` to its time, and the handler comes to its end. An interrupt that
finds such a queue makes a closure miss its time. -/
theorem timers_on_time (h : TimerRun Undisturbed new s) :
    s.OnTime ∧
    (∃ s', TimerRun Undisturbed s s' ∧ s'.pc = .outside ∧ s'.ticks = s.ticks) ∧
    ∀ s', s.step .interrupt = some s' → ¬ Steady s.queue → ∃ r ∈ s.registered,
      ∀ s'', TimerRun BetweenInterrupts s' s'' → s''.pc = .outside → r.due ≤ s''.ticks → ¬ s''.OnTime := by
  refine ⟨h.punctual.onTime (h.inv inv_new),handler_ends s,?_⟩
  intro s' hs hst
  obtain ⟨r,hr,hlate⟩ := late_of_not_steady h hs hst
  refine ⟨r,hr,?_⟩
  intro s'' hrun hpc hdue htime
  have hi' : s'.Inv := (h.inv inv_new).step hs
  obtain ⟨hr'',hlate''⟩ := hrun.notBefore hi' (registered_step hs hr) hlate
  have hran := hlate''.ran _ (htime.missed hpc r hr'' hdue) rfl
  exact absurd hran (Nat.not_succ_le_self _)

/-- Two closures of one and of two ticks, registered together. -/
theorem timers_on_time_two : ∃ s, TimerRun Undisturbed new s ∧ s.OnTime ∧
    s.ran = [(⟨1,0,1⟩,1),(⟨0,0,2⟩,2)] := by
  have hlater : ∀ (s : Timers) d, s.pc = .outside → Undisturbed s (.runLater d) :=
    fun s d h => ⟨fun _ _ => h,by simp⟩
  have hint : ∀ (s : Timers), Steady s.queue → Undisturbed s .interrupt :=
    fun s h => ⟨fun d h => absurd h (by simp),fun _ => h⟩
  have h0 : TimerRun Undisturbed new new := .refl
  have h1 := (h0.step (hlater _ 15000000 rfl) rfl).step (hlater _ 5000000 rfl) rfl
  have h2 := (h1.step (hint _ (by decide)) rfl).step (a := .call) (undisturbed_of_ne (by simp) (by simp)) rfl
  have h3 := h2.step (a := .return) (undisturbed_of_ne (by simp) (by simp)) rfl
  have h4 := h3.step (a := .done) (undisturbed_of_ne (by simp) (by simp)) rfl
  have h5 := (h4.step (hint _ (by decide)) rfl).step (a := .call) (undisturbed_of_ne (by simp) (by simp)) rfl
  exact ⟨_,h5,(timers_on_time h5).1,rfl⟩

/-- A closure of one tick is late when another one with no delay is registered with it. -/
theorem timers_disturbed : ∃ s, TimerRun BetweenInterrupts new s ∧ s.pc = .outside ∧
    (⟨0,0,1⟩ : Registration) ∈ s.registered ∧ s.ticks = 1 ∧ ¬ s.OnTime := by
  have hlater : ∀ (s : Timers) d, s.pc = .outside → BetweenInterrupts s (.runLater d) :=
    fun s d h _ _ => h
  have hother : ∀ (s : Timers) (a : TimerAct), (∀ d, a ≠ .runLater d) → BetweenInterrupts s a :=
    fun s a h1 d h => absurd h (h1 d)
  have h0 : TimerRun BetweenInterrupts new new := .refl
  have h1 := (h0.step (hlater _ 5000000 rfl) rfl).step (hlater _ 0 rfl) rfl
  have h2 := (h1.step (hother _ .interrupt (by simp)) rfl).step (hother _ .call (by simp)) rfl
  have h3 := (h2.step (hother _ .return (by simp)) rfl).step (hother _ .done (by simp)) rfl
  refine ⟨_,h3,rfl,by decide,rfl,?_⟩
  intro htime
  have hran := htime.missed rfl ⟨0,0,1⟩ (by decide) (by decide)
  exact absurd hran (by decide)

end Lilith.Sched
