import Lilith.Tasks.Model

/-! The timer queue (`run_later`, `timer_interrupt` and `SleepFuture`). The queue holds the time
between each closure and the one before it. Summed up from `mach().ticks()` on, it is a sorted list
of expiry times, and the operations on it are read on that list. -/
namespace Lilith.Sched
open TimerQueue hiding insert

/-- A call of `run_later`; its closure is what the queue holds. -/
structure Registration where
  /-- the number of calls before it -/
  seq : ℕ
  /-- `mach().ticks()` at the call -/
  now : ℕ
  /-- `delay_ns.div_ceil(TICK_NS)` -/
  ticks : ℕ
  deriving DecidableEq, Repr

/-- The `target_ticks` that `run_later` returns. -/
def Registration.targetTicks (r : Registration) : ℕ := r.now + r.ticks

/-- Where the processor is: outside of `timer_interrupt`, in its loop, or in a closure. -/
inductive TimerPc where
  | outside
  | loop
  | closure
  deriving DecidableEq, Repr

structure Timers where
  /-- `mach().ticks()` -/
  ticks : ℕ
  queue : List (TimerEvent Registration)
  pc : TimerPc
  /-- the calls of `run_later` so far -/
  registered : List Registration
  /-- the closures that were run, in order, with `mach().ticks()` at that time -/
  ran : List (Registration × ℕ)

inductive TimerAct where
  /-- `run_later`, by a thread or by the running closure -/
  | runLater (delayNs : ℕ)
  /-- `timer_interrupt` up to its loop -/
  | interrupt
  /-- the loop pops a closure and calls it -/
  | call
  /-- the closure returns -/
  | return
  /-- the loop finds no more closures -/
  | done
  deriving DecidableEq, Repr

namespace Timers

def new : Timers := ⟨0,[],.outside,[],[]⟩

/-- The registration of the next call of `run_later`. -/
def next (s : Timers) (delayNs : ℕ) : Registration :=
  ⟨s.registered.length,s.ticks,(delayNs + TICK_NS - 1) / TICK_NS⟩

/-- `run_later`, with its result. -/
def runLater (s : Timers) (delayNs : ℕ) : ℕ × Timers :=
  let r := s.next delayNs
  (s.ticks + r.ticks, { s with queue := TimerQueue.insert r.ticks r s.queue, registered := s.registered ++ [r] })

/-- The step, if it can be made: the loop of `timer_interrupt` runs with interrupts masked. -/
def step (s : Timers) : TimerAct → Option Timers
  | .runLater delayNs => if s.pc = .loop then none else some (s.runLater delayNs).2
  | .interrupt =>
    if s.pc = .outside then some { s with ticks := s.ticks + 1, queue := tick s.queue, pc := .loop }
    else none
  | .call =>
    match s.pc, popClosure s.queue with
    | .loop, some (r,queue) => some { s with queue := queue, pc := .closure, ran := s.ran ++ [(r,s.ticks)] }
    | _, _ => none
  | .return => if s.pc = .closure then some { s with pc := .loop } else none
  | .done => if s.pc = .loop ∧ popClosure s.queue = none then some { s with pc := .outside } else none

end Timers

/-- The states after `s` in the runs whose steps `C` allows. -/
inductive TimerRun (C : Timers → TimerAct → Prop) (s : Timers) : Timers → Prop
  | refl : TimerRun C s s
  | step {s1 s2 : Timers} {a : TimerAct} (h : TimerRun C s s1) (hc : C s1 a) (ha : s1.step a = some s2) :
      TimerRun C s s2

/-- `SleepFuture` of `tasks.rs`. -/
inductive SleepFuture where
  | notYet (delayNs : ℕ)
  | yet (targetTicks : ℕ)
  deriving DecidableEq, Repr

/-- `SleepFuture::poll`; the closure that it registers wakes the task. -/
def SleepFuture.poll (s : Timers) : SleepFuture → Tasks.Poll × SleepFuture × Timers
  | .notYet delayNs =>
    let (targetTicks,s) := s.runLater delayNs
    (.pending,.yet targetTicks,s)
  | .yet targetTicks => (if targetTicks ≤ s.ticks then .ready else .pending,.yet targetTicks,s)

section Expiries
variable {C : Type} {b n : ℕ} {q : List (TimerEvent C)}

/-- The expiry times of the queue, when the time is `b`. -/
def expiries (b : ℕ) : List (TimerEvent C) → List (ℕ × C)
  | [] => []
  | t :: ts => (b + t.delta,t.closure) :: expiries (b + t.delta) ts

@[simp] lemma map_snd_expiries (b : ℕ) (q : List (TimerEvent C)) :
    (expiries b q).map Prod.snd = q.map TimerEvent.closure := by
  induction q generalizing b with
  | nil => rfl
  | cons t ts ih => simp [expiries, ih]

lemma le_of_mem_expiries {x : ℕ × C} (h : x ∈ expiries b q) : b ≤ x.1 := by
  induction q generalizing b with
  | nil => exact absurd h List.not_mem_nil
  | cons t ts ih =>
    rcases List.mem_cons.mp h with rfl | h
    · exact Nat.le_add_right b t.delta
    · exact (Nat.le_add_right b t.delta).trans (ih h)

/-- `insert` puts the closure behind all that expire no later. -/
lemma expiries_insert (b n : ℕ) (c : C) (q : List (TimerEvent C)) :
    ∃ l r, expiries b q = l ++ r ∧ expiries b (TimerQueue.insert n c q) = l ++ (b + n,c) :: r ∧
      (∀ x ∈ l, x.1 ≤ b + n) ∧ ∀ x ∈ r, b + n < x.1 := by
  induction q generalizing b n with
  | nil => exact ⟨[],[],rfl,rfl,by simp,by simp⟩
  | cons t ts ih =>
    unfold TimerQueue.insert
    split_ifs with hlt
    · refine ⟨[],expiries b (t :: ts),rfl,?_,by simp,?_⟩
      · have hsum : b + n + (t.delta - n) = b + t.delta := by omega
        simp [expiries, hsum]
      · intro x hx
        rcases List.mem_cons.mp hx with rfl | hx
        · simpa using hlt
        · have hle := le_of_mem_expiries hx
          omega
    · obtain ⟨l,r,h1,h2,h3,h4⟩ := ih (b + t.delta) (n - t.delta)
      have hsum : b + t.delta + (n - t.delta) = b + n := by omega
      rw [hsum] at h2 h3 h4
      refine ⟨(b + t.delta,t.closure) :: l,r,by simp [expiries, h1],by simp [expiries, h2],?_,h4⟩
      intro x hx
      rcases List.mem_cons.mp hx with rfl | hx
      · show b + t.delta ≤ b + n
        omega
      · exact h3 x hx

/-- A tick keeps the expiry times, if it can shorten the wait for the first closure. -/
lemma expiries_tick_of_pos {t : TimerEvent C} {ts : List (TimerEvent C)} (h : 0 < t.delta) :
    expiries (b + 1) (tick (t :: ts)) = expiries b (t :: ts) := by
  have hsum : b + 1 + (t.delta - 1) = b + t.delta := by omega
  simp [tick, expiries, hsum]

lemma expiries_succ (b : ℕ) (q : List (TimerEvent C)) :
    expiries (b + 1) q = (expiries b q).map fun x => (x.1 + 1,x.2) := by
  induction q generalizing b with
  | nil => rfl
  | cons t ts ih =>
    have hsum : b + 1 + t.delta = b + t.delta + 1 := by omega
    simp [expiries, hsum, ih]

/-- Otherwise every expiry time is put off by a tick. -/
lemma expiries_tick_of_zero {t : TimerEvent C} {ts : List (TimerEvent C)} (h : t.delta = 0) :
    expiries (b + 1) (tick (t :: ts)) = (expiries b (t :: ts)).map fun x => (x.1 + 1,x.2) := by
  rw [← expiries_succ]
  simp [tick, expiries, h]

/-- No expiry time becomes earlier with a tick. -/
lemma mem_expiries_tick {y : ℕ × C} (h : y ∈ expiries (b + 1) (tick q)) :
    ∃ x ∈ expiries b q, x.2 = y.2 ∧ x.1 ≤ y.1 := by
  cases q with
  | nil => exact absurd h List.not_mem_nil
  | cons t ts =>
    rcases Nat.eq_zero_or_pos t.delta with hz | hp
    · rw [expiries_tick_of_zero hz] at h
      obtain ⟨x,hx,rfl⟩ := List.mem_map.mp h
      exact ⟨x,hx,rfl,Nat.le_succ x.1⟩
    · rw [expiries_tick_of_pos hp] at h
      exact ⟨y,h,rfl,le_rfl⟩

lemma map_closure_tick (q : List (TimerEvent C)) :
    (tick q).map TimerEvent.closure = q.map TimerEvent.closure := by
  cases q with
  | nil => rfl
  | cons t ts => rfl

/-- `pop_closure` takes the first closure, when its time has come. -/
lemma popClosure_eq_some {c : C} {q' : List (TimerEvent C)} (h : popClosure q = some (c,q')) :
    expiries b q = (b,c) :: expiries b q' ∧ q.map TimerEvent.closure = c :: q'.map TimerEvent.closure := by
  cases q with
  | nil => exact absurd h (by simp [popClosure])
  | cons t ts =>
    simp only [popClosure] at h
    split_ifs at h with hz
    obtain ⟨rfl,rfl⟩ := Prod.mk.inj (Option.some.inj h)
    simp [expiries, hz]

lemma popClosure_eq_none (h : popClosure q = none) {x : ℕ × C} (hx : x ∈ expiries b q) : b < x.1 := by
  cases q with
  | nil => exact absurd hx List.not_mem_nil
  | cons t ts =>
    simp only [popClosure] at h
    split_ifs at h with hz
    rcases List.mem_cons.mp hx with rfl | hx
    · show b < b + t.delta
      omega
    · have hle := le_of_mem_expiries hx
      omega

end Expiries

variable {s s' s'' : Timers} {a : TimerAct} {r r' : Registration}

namespace Timers

/-- All that a step can do. -/
lemma step_cases (h : s.step a = some s') :
    (∃ d, a = .runLater d ∧ s.pc ≠ .loop ∧ s' = (s.runLater d).2) ∨
    (a = .interrupt ∧ s.pc = .outside ∧
      s' = { s with ticks := s.ticks + 1, queue := tick s.queue, pc := .loop }) ∨
    (∃ r queue, a = .call ∧ s.pc = .loop ∧ popClosure s.queue = some (r,queue) ∧
      s' = { s with queue := queue, pc := .closure, ran := s.ran ++ [(r,s.ticks)] }) ∨
    (a = .return ∧ s.pc = .closure ∧ s' = { s with pc := .loop }) ∨
    (a = .done ∧ s.pc = .loop ∧ popClosure s.queue = none ∧ s' = { s with pc := .outside }) := by
  cases a with
  | runLater d =>
    simp only [step] at h
    split_ifs at h with hpc
    exact Or.inl ⟨d,rfl,hpc,(Option.some.inj h).symm⟩
  | interrupt =>
    simp only [step] at h
    split_ifs at h with hpc
    exact Or.inr (Or.inl ⟨rfl,hpc,(Option.some.inj h).symm⟩)
  | call =>
    simp only [step] at h
    split at h
    · next r queue hpc hq => exact Or.inr (Or.inr (Or.inl ⟨r,queue,rfl,hpc,hq,(Option.some.inj h).symm⟩))
    · exact absurd h (by simp)
  | «return» =>
    simp only [step] at h
    split_ifs at h with hpc
    exact Or.inr (Or.inr (Or.inr (Or.inl ⟨rfl,hpc,(Option.some.inj h).symm⟩)))
  | done =>
    simp only [step] at h
    split_ifs at h with hpc
    exact Or.inr (Or.inr (Or.inr (Or.inr ⟨rfl,hpc.1,hpc.2,(Option.some.inj h).symm⟩)))

/-- The closures that were run and those that wait, in the order of their runs. -/
def schedule (s : Timers) : List Registration := s.ran.map Prod.fst ++ s.queue.map TimerEvent.closure

/-- The calls of `run_later` are numbered. -/
def Numbered (s : Timers) : Prop := s.registered.map Registration.seq = List.range s.registered.length

/-- The closure of `r` was not run before `b`, and does not expire before `b`. -/
structure NotBefore (s : Timers) (r : Registration) (b : ℕ) : Prop where
  waits : ∀ x ∈ expiries s.ticks s.queue, x.2 = r → b ≤ x.1
  ran : ∀ x ∈ s.ran, x.1 = r → b ≤ x.2

end Timers

/-- Registered at the same time, and to be run first. -/
def Registration.Before (r r' : Registration) : Prop :=
  r.now = r'.now ∧ (r.ticks < r'.ticks ∨ r.ticks = r'.ticks ∧ r.seq < r'.seq)

namespace Timers

structure Inv (s : Timers) : Prop where
  numbered : s.Numbered
  perm : s.schedule.Perm s.registered
  now_le : ∀ r ∈ s.registered, r.now ≤ s.ticks
  ran_le : ∀ x ∈ s.ran, x.2 ≤ s.ticks
  notBefore : ∀ r ∈ s.registered, s.NotBefore r r.targetTicks
  /-- what was registered since the last interrupt has its full time to wait -/
  fresh : ∀ x ∈ expiries s.ticks s.queue, x.2.now = s.ticks → x.1 = x.2.targetTicks
  ordered : s.schedule.Pairwise fun r r' => ¬ r'.Before r

lemma inv_new : Inv new where
  numbered := rfl
  perm := List.Perm.refl _
  now_le := by simp [new]
  ran_le := by simp [new]
  notBefore := by simp [new]
  fresh := by simp [new, expiries]
  ordered := List.Pairwise.nil

lemma Numbered.seq_lt (h : s.Numbered) (hr : r ∈ s.registered) : r.seq < s.registered.length := by
  have hmem : r.seq ∈ s.registered.map Registration.seq := List.mem_map_of_mem hr
  rw [h] at hmem
  exact List.mem_range.mp hmem

lemma Numbered.next_ne (h : s.Numbered) (hr : r ∈ s.registered) (d : ℕ) : s.next d ≠ r := by
  rintro rfl
  exact absurd (h.seq_lt hr) (lt_irrefl _)

/-- The expiry times after a call of `run_later`. -/
lemma expiries_runLater (s : Timers) (d : ℕ) : ∃ l r, expiries s.ticks s.queue = l ++ r ∧
    expiries s.ticks (s.runLater d).2.queue = l ++ ((s.next d).targetTicks,s.next d) :: r ∧
    (∀ x ∈ l, x.1 ≤ (s.next d).targetTicks) ∧ ∀ x ∈ r, (s.next d).targetTicks < x.1 :=
  expiries_insert s.ticks (s.next d).ticks (s.next d) s.queue

lemma mem_expiries_runLater {d : ℕ} {x : ℕ × Registration}
    (hx : x ∈ expiries (s.runLater d).2.ticks (s.runLater d).2.queue) :
    x = ((s.next d).targetTicks,s.next d) ∨ x ∈ expiries s.ticks s.queue := by
  obtain ⟨l,r,h1,h2,_,_⟩ := s.expiries_runLater d
  change x ∈ expiries s.ticks _ at hx
  rw [h2] at hx
  rw [h1]
  simp only [List.mem_append, List.mem_cons] at hx ⊢
  tauto

lemma NotBefore.runLater {b d : ℕ} (h : s.NotBefore r b) (hr : s.next d ≠ r) :
    (s.runLater d).2.NotBefore r b := by
  refine ⟨?_,h.ran⟩
  intro x hx he
  rcases mem_expiries_runLater hx with rfl | hx
  · exact absurd he hr
  · exact h.waits x hx he

/-- No step brings a closure forward. -/
lemma NotBefore.step {b : ℕ} (h : s.NotBefore r b) (hn : s.Numbered) (hr : r ∈ s.registered)
    (hs : s.step a = some s') : s'.NotBefore r b := by
  rcases step_cases hs with ⟨d,_,_,rfl⟩ | ⟨_,_,rfl⟩ | ⟨c,q,_,_,hq,rfl⟩ | ⟨_,_,rfl⟩ | ⟨_,_,_,rfl⟩
  · exact h.runLater (hn.next_ne hr d)
  · refine ⟨?_,h.ran⟩
    intro y hy he
    obtain ⟨x,hx,h1,h2⟩ := mem_expiries_tick hy
    exact (h.waits x hx (h1.trans he)).trans h2
  · obtain ⟨hexp,_⟩ := popClosure_eq_some (b := s.ticks) hq
    refine ⟨?_,?_⟩
    · intro x hx he
      exact h.waits x (hexp ▸ List.mem_cons_of_mem _ hx) he
    · intro x hx he
      rcases List.mem_append.mp hx with hx | hx
      · exact h.ran x hx he
      · obtain rfl := List.mem_singleton.mp hx
        exact h.waits (s.ticks,c) (hexp ▸ List.mem_cons_self) he
  · exact ⟨h.waits,h.ran⟩
  · exact ⟨h.waits,h.ran⟩

/-- A new closure is put into the schedule behind those that were run and those that wait no longer. -/
lemma schedule_runLater (s : Timers) (d : ℕ) : ∃ l r, expiries s.ticks s.queue = l ++ r ∧
    s.schedule = s.ran.map Prod.fst ++ l.map Prod.snd ++ r.map Prod.snd ∧
    (s.runLater d).2.schedule = s.ran.map Prod.fst ++ l.map Prod.snd ++ s.next d :: r.map Prod.snd ∧
    (∀ x ∈ l, x.1 ≤ (s.next d).targetTicks) ∧ ∀ x ∈ r, (s.next d).targetTicks < x.1 := by
  obtain ⟨l,r,h1,h2,h3,h4⟩ := s.expiries_runLater d
  refine ⟨l,r,h1,?_,?_,h3,h4⟩
  · unfold schedule
    rw [← map_snd_expiries s.ticks, h1, List.map_append, List.append_assoc]
  · unfold schedule
    rw [← map_snd_expiries s.ticks, h2, List.map_append, List.append_assoc]
    rfl

lemma Inv.ran_mem (h : Inv s) {x : Registration × ℕ} (hx : x ∈ s.ran) : x.1 ∈ s.registered :=
  h.perm.mem_iff.mp (List.mem_append_left _ (List.mem_map_of_mem hx))

lemma Inv.waiting_mem (h : Inv s) {x : ℕ × Registration} (hx : x ∈ expiries s.ticks s.queue) :
    x.2 ∈ s.registered := by
  apply h.perm.mem_iff.mp
  apply List.mem_append_right
  rw [← map_snd_expiries s.ticks]
  exact List.mem_map_of_mem hx

/-- What was run in the tick in which it was registered had no time to wait. -/
lemma Inv.ticks_eq_zero (h : Inv s) {x : Registration × ℕ} (hx : x ∈ s.ran) (hnow : x.1.now = s.ticks) :
    x.1.ticks = 0 := by
  have hearly := (h.notBefore x.1 (h.ran_mem hx)).ran x hx rfl
  have hle := h.ran_le x hx
  unfold Registration.targetTicks at hearly
  omega

lemma pairwise_insert {α : Type} {P : α → α → Prop} {l l' : List α} {x : α} (h : (l ++ l').Pairwise P)
    (hl : ∀ y ∈ l, P y x) (hr : ∀ y ∈ l', P x y) : (l ++ x :: l').Pairwise P := by
  obtain ⟨h1,h2,h3⟩ := List.pairwise_append.mp h
  refine List.pairwise_append.mpr ⟨h1,List.pairwise_cons.mpr ⟨hr,h2⟩,?_⟩
  intro y hy z hz
  rcases List.mem_cons.mp hz with rfl | hz
  · exact hl y hy
  · exact h3 y hy z hz

lemma Inv.ordered_runLater (h : Inv s) (d : ℕ) :
    (s.runLater d).2.schedule.Pairwise fun r r' => ¬ r'.Before r := by
  obtain ⟨l,l',h1,h2,h3,h4,h5⟩ := s.schedule_runLater d
  have hord := h.ordered
  rw [h2] at hord
  rw [h3]
  apply pairwise_insert hord
  · rintro r hr ⟨hnow,hlt⟩
    -- the new one is the last that was registered, so it goes first only with fewer ticks
    have hseq : ∀ r ∈ s.registered, ¬ (s.next d).seq < r.seq := fun r hr => (h.numbered.seq_lt hr).not_gt
    rcases List.mem_append.mp hr with hr | hr
    · obtain ⟨x,hx,rfl⟩ := List.mem_map.mp hr
      have hzero := h.ticks_eq_zero hx hnow.symm
      have hlast := hseq _ (h.ran_mem hx)
      omega
    · obtain ⟨x,hx,rfl⟩ := List.mem_map.mp hr
      have hmem : x ∈ expiries s.ticks s.queue := h1 ▸ List.mem_append_left _ hx
      have hfresh := h.fresh x hmem hnow.symm
      have hle := h4 x hx
      have hlast := hseq _ (h.waiting_mem hmem)
      unfold Registration.targetTicks at hfresh hle
      omega
  · rintro r hr ⟨hnow,hlt⟩
    obtain ⟨x,hx,rfl⟩ := List.mem_map.mp hr
    have hmem : x ∈ expiries s.ticks s.queue := h1 ▸ List.mem_append_right _ hx
    have hfresh := h.fresh x hmem hnow
    have hgt := h5 x hx
    unfold Registration.targetTicks at hfresh hgt
    omega

lemma Inv.runLater (h : Inv s) (d : ℕ) : Inv (s.runLater d).2 := by
  obtain ⟨l,l',h1,h2,h3,_,_⟩ := s.schedule_runLater d
  have hreg : ∀ r ∈ (s.runLater d).2.registered, r ∈ s.registered ∨ r = s.next d := by
    intro r hr
    simpa [Timers.runLater] using hr
  refine ⟨?_,?_,?_,h.ran_le,?_,?_,h.ordered_runLater d⟩
  · have hnum := h.numbered
    unfold Numbered at hnum ⊢
    simp [Timers.runLater, hnum, next, List.range_succ]
  · rw [h3]
    have hperm := h.perm
    rw [h2] at hperm
    apply List.perm_middle.trans
    exact (hperm.cons _).trans (List.perm_append_singleton _ _).symm
  · intro r hr
    rcases hreg r hr with hr | rfl
    · exact h.now_le r hr
    · exact le_rfl
  · intro r hr
    rcases hreg r hr with hr | rfl
    · exact (h.notBefore r hr).runLater (h.numbered.next_ne hr d)
    · refine ⟨?_,?_⟩
      · intro x hx he
        rcases mem_expiries_runLater hx with rfl | hx
        · exact le_rfl
        · exact absurd he (h.numbered.next_ne (h.waiting_mem hx) d).symm
      · intro x hx he
        exact absurd he (h.numbered.next_ne (h.ran_mem hx) d).symm
  · intro x hx hnow
    rcases mem_expiries_runLater hx with rfl | hx
    · rfl
    · exact h.fresh x hx hnow

/-- An interrupt or a call moves no closure in the schedule. -/
lemma Inv.step (h : Inv s) (hs : s.step a = some s') : Inv s' := by
  have hnot : ∀ r ∈ s.registered, s'.NotBefore r r.targetTicks :=
    fun r hr => (h.notBefore r hr).step h.numbered hr hs
  rcases step_cases hs with ⟨d,_,_,rfl⟩ | ⟨_,_,rfl⟩ | ⟨c,q,_,_,hq,rfl⟩ | ⟨_,_,rfl⟩ | ⟨_,_,_,rfl⟩
  · exact h.runLater d
  · have hsch : schedule { s with ticks := s.ticks + 1, queue := tick s.queue, pc := .loop } = s.schedule := by
      unfold schedule
      rw [map_closure_tick]
    refine ⟨h.numbered,hsch ▸ h.perm,?_,?_,hnot,?_,hsch ▸ h.ordered⟩
    · exact fun r hr => (h.now_le r hr).trans (Nat.le_succ _)
    · exact fun x hx => (h.ran_le x hx).trans (Nat.le_succ _)
    · intro y hy hnow
      obtain ⟨x,hx,he,_⟩ := mem_expiries_tick hy
      have hle := h.now_le x.2 (h.waiting_mem hx)
      rw [he, hnow] at hle
      exact absurd hle (Nat.not_succ_le_self _)
  · obtain ⟨hexp,hmap⟩ := popClosure_eq_some (b := s.ticks) hq
    have hsch : schedule { s with queue := q, pc := .closure, ran := s.ran ++ [(c,s.ticks)] } = s.schedule := by
      unfold schedule
      rw [hmap, List.map_append, List.append_assoc]
      rfl
    refine ⟨h.numbered,hsch ▸ h.perm,h.now_le,?_,hnot,?_,hsch ▸ h.ordered⟩
    · intro x hx
      rcases List.mem_append.mp hx with hx | hx
      · exact h.ran_le x hx
      · obtain rfl := List.mem_singleton.mp hx
        exact le_rfl
    · exact fun x hx => h.fresh x (hexp ▸ List.mem_cons_of_mem _ hx)
  · exact ⟨h.numbered,h.perm,h.now_le,h.ran_le,hnot,h.fresh,h.ordered⟩
  · exact ⟨h.numbered,h.perm,h.now_le,h.ran_le,hnot,h.fresh,h.ordered⟩

end Timers

section Runs
open Timers
variable {C : Timers → TimerAct → Prop}

lemma TimerRun.inv (h : TimerRun C s s') (hi : s.Inv) : s'.Inv := by
  induction h with
  | refl => exact hi
  | step _ _ ha ih => exact ih.step ha

lemma Timers.registered_step (hs : s.step a = some s') (hr : r ∈ s.registered) : r ∈ s'.registered := by
  rcases step_cases hs with ⟨d,_,_,rfl⟩ | ⟨_,_,rfl⟩ | ⟨c,q,_,_,hq,rfl⟩ | ⟨_,_,rfl⟩ | ⟨_,_,_,rfl⟩
  · exact List.mem_append_left _ hr
  all_goals exact hr

lemma TimerRun.notBefore {b : ℕ} (h : TimerRun C s s') (hi : s.Inv) (hr : r ∈ s.registered)
    (hb : s.NotBefore r b) : r ∈ s'.registered ∧ s'.NotBefore r b := by
  induction h with
  | refl => exact ⟨hr,hb⟩
  | step h _ ha ih => exact ⟨registered_step ha ih.1,ih.2.step (h.inv hi).numbered ih.1 ha⟩

lemma Timers.Inv.nodup (h : s.Inv) : (s.schedule.map Registration.seq).Nodup := by
  apply (h.perm.map Registration.seq).nodup_iff.mpr
  rw [h.numbered]
  exact List.nodup_range

/-- In every run of `run_later`, by threads or by closures, and of timer interrupts, a closure is run at
most once and never before its `target_ticks`. Of two closures that were registered at the same value of
`mach().ticks()`, the one with fewer ticks is run first, and with equal ticks the one registered first.
When the closure of a `SleepFuture` has been run, the future is ready. -/
theorem timers_never_early (h : TimerRun C new s) :
    (s.ran.map fun x => x.1.seq).Nodup ∧
    (∀ x ∈ s.ran, x.1 ∈ s.registered ∧ x.1.targetTicks ≤ x.2 ∧ x.2 ≤ s.ticks) ∧
    (∀ l r l', s.ran.map Prod.fst = l ++ r :: l' → ∀ r' ∈ s.registered, r'.Before r → r' ∈ l) ∧
    ∀ s0 s1 d f, TimerRun C new s0 → (SleepFuture.notYet d).poll s0 = (.pending,f,s1) → TimerRun C s1 s →
      ∀ t, (s0.next d,t) ∈ s.ran → (f.poll s).1 = .ready := by
  have hi := h.inv inv_new
  refine ⟨?_,?_,?_,?_⟩
  · have hnodup := hi.nodup
    unfold schedule at hnodup
    rw [List.map_append, List.map_map] at hnodup
    exact hnodup.of_append_left
  · exact fun x hx => ⟨hi.ran_mem hx,(hi.notBefore x.1 (hi.ran_mem hx)).ran x hx rfl,hi.ran_le x hx⟩
  · intro l r l' hl r' hr' hb
    have hord := hi.ordered
    unfold schedule at hord
    rw [hl, List.append_assoc, List.cons_append] at hord
    have hmem := hi.perm.mem_iff.mpr hr'
    unfold schedule at hmem
    rw [hl, List.append_assoc, List.cons_append] at hmem
    rcases List.mem_append.mp hmem with hmem | hmem
    · exact hmem
    rcases List.mem_cons.mp hmem with rfl | hmem
    · obtain ⟨_,hlt⟩ := hb
      omega
    · have hrest := (List.pairwise_cons.mp (List.pairwise_append.mp hord).2.1).1 r' hmem
      exact absurd hb hrest
  · intro s0 s1 d f h0 hpoll hrun t ht
    obtain ⟨rfl,rfl⟩ := Prod.mk.inj (Prod.mk.inj hpoll).2
    have hi1 := (h0.inv inv_new).runLater d
    have hmem : s0.next d ∈ (s0.runLater d).2.registered := List.mem_append_right _ (List.mem_singleton_self _)
    obtain ⟨_,hnot⟩ := hrun.notBefore hi1 hmem (hi1.notBefore _ hmem)
    have hle : s0.ticks + (s0.next d).ticks ≤ s.ticks := (hnot.ran _ ht rfl).trans (hi.ran_le _ ht)
    simp [SleepFuture.poll, hle]

/-- A closure with no delay and one with two ticks. -/
theorem timers_never_early_two : ∃ s, TimerRun (fun _ _ => True) new s ∧
    s.ran = [(⟨1,0,0⟩,1),(⟨0,0,2⟩,3)] ∧ ∀ x ∈ s.ran, x.1.targetTicks ≤ x.2 := by
  have h0 : TimerRun (fun _ _ => True) new new := .refl
  have h1 := (h0.step (a := .runLater 15000000) trivial rfl).step (a := .runLater 0) trivial rfl
  have h2 := (h1.step (a := .interrupt) trivial rfl).step (a := .call) trivial rfl
  have h3 := (h2.step (a := .return) trivial rfl).step (a := .done) trivial rfl
  have h4 := (h3.step (a := .interrupt) trivial rfl).step (a := .done) trivial rfl
  have h5 := (h4.step (a := .interrupt) trivial rfl).step (a := .call) trivial rfl
  exact ⟨_,h5,rfl,fun x hx => ((timers_never_early h5).2.1 x hx).2.1⟩

end Runs

end Lilith.Sched
