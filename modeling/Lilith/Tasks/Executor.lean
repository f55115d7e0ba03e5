import Lilith.Tasks.Model

/-! The invariant of the executor over all interleavings. -/
namespace Lilith.Tasks

/-- Every live thing is in exactly one place, and every place holds at most one. -/
structure Placed {P F : Type} (holds : P → Option F) (live : F → Prop) : Prop where
  injective : ∀ p q f, holds p = some f → holds q = some f → p = q
  live_iff : ∀ f, live f ↔ ∃ p, holds p = some f

namespace Placed
variable {P F : Type} [DecidableEq P] {holds holds' : P → Option F} {live live' : F → Prop} {p q : P} {f : F}

omit [DecidableEq P] in
lemma existsUnique (h : Placed holds live) (hf : live f) : ∃! p, holds p = some f := by
  obtain ⟨p,hp⟩ := (h.live_iff f).mp hf
  exact ⟨p,hp,fun q hq => h.injective q p f hq hp⟩

lemma put (h : Placed holds live) (hp : holds p = none) (hf : ¬live f)
    (hh : ∀ r, holds' r = if r = p then some f else holds r) (hl : ∀ g, live' g ↔ g = f ∨ live g) :
    Placed holds' live' := by
  have hnot : ∀ r, holds r ≠ some f := fun r hr => hf ((h.live_iff f).mpr ⟨r,hr⟩)
  constructor
  · intro r s g hr hs
    rw [hh] at hr hs
    split_ifs at hr hs with h1 h2 h2
    · exact h1.trans h2.symm
    · cases hr
      exact absurd hs (hnot s)
    · cases hs
      exact absurd hr (hnot r)
    · exact h.injective r s g hr hs
  · intro g
    rw [hl, h.live_iff]
    constructor
    · rintro (rfl | ⟨r,hr⟩)
      · exact ⟨p,by simp [hh]⟩
      · have hne : r ≠ p := fun he => by simp [he, hp] at hr
        exact ⟨r,by simp [hh, hne, hr]⟩
    · rintro ⟨r,hr⟩
      rw [hh] at hr
      split_ifs at hr
      · exact Or.inl (Option.some.inj hr).symm
      · exact Or.inr ⟨r,hr⟩

lemma drop (h : Placed holds live) (hp : holds p = some f)
    (hh : ∀ r, holds' r = if r = p then none else holds r) (hl : ∀ g, live' g ↔ live g ∧ g ≠ f) :
    Placed holds' live' := by
  constructor
  · intro r s g hr hs
    rw [hh] at hr hs
    split_ifs at hr hs
    exact h.injective r s g hr hs
  · intro g
    rw [hl, h.live_iff]
    constructor
    · rintro ⟨⟨r,hr⟩,hg⟩
      have hne : r ≠ p := fun he => hg (by simpa [he, hp] using hr.symm)
      exact ⟨r,by simp [hh, hne, hr]⟩
    · rintro ⟨r,hr⟩
      rw [hh] at hr
      split_ifs at hr with hne
      refine ⟨⟨r,hr⟩,?_⟩
      rintro rfl
      exact hne (h.injective r p g hr hp)

lemma move (h : Placed holds live) (hp : holds p = some f) (hq : holds q = none)
    (hh : ∀ r, holds' r = if r = q then some f else if r = p then none else holds r) :
    Placed holds' live := by
  have hdrop : Placed (fun r => if r = p then none else holds r) (fun g => live g ∧ g ≠ f) :=
    h.drop hp (fun _ => rfl) fun _ => Iff.rfl
  have hne : q ≠ p := fun he => by simp [he, hp] at hq
  refine hdrop.put (by simp [hne, hq]) (fun hf => hf.2 rfl) hh fun g => ?_
  constructor
  · intro hg
    by_cases he : g = f
    · exact Or.inl he
    · exact Or.inr ⟨hg,he⟩
  · rintro (rfl | hg)
    · exact (h.live_iff g).mpr ⟨p,hp⟩
    · exact hg.1

end Placed

/-- Where a future can be: in the state of a task, or in the hands of the executor thread. -/
inductive Place where
  | slot (id : ℕ)
  | hand
  deriving DecidableEq, Repr

variable {F : Type}

def TaskState.future? : TaskState F → Option F
  | executing | executingAndAwoken => none
  | ready f | paused f => some f

def TaskState.isExecuting : TaskState F → Bool
  | executing | executingAndAwoken => true
  | ready _ | paused _ => false

def TaskState.isReady : TaskState F → Bool
  | ready _ => true
  | _ => false

namespace TaskSystem
variable {s s' : TaskSystem F}

/-- The state of a task that is there. -/
def stateOf (s : TaskSystem F) (id : ℕ) : Option (TaskState F) := s.executor.tasks.get id

def holds (s : TaskSystem F) : Place → Option F
  | .slot id => (s.stateOf id).bind TaskState.future?
  | .hand => match s.pc with
    | .idle => none
    | .polling _ f => some f

/-- A future that was given to `spawn` and whose task is not done. -/
def Unfinished (s : TaskSystem F) (f : F) : Prop := f ∈ s.spawned ∧ f ∉ s.finished

structure Inv (s : TaskSystem F) : Prop where
  valid : s.executor.tasks.Valid
  nodup : s.executor.ready.Nodup
  mem_ready : ∀ id, id ∈ s.executor.ready ↔ ∃ t, s.stateOf id = some t ∧ t.isReady
  executing : ∀ id, (∃ t, s.stateOf id = some t ∧ t.isExecuting) ↔ ∃ f, s.pc = .polling id f
  placed : Placed s.holds s.Unfinished
  finished : ∀ f ∈ s.finished, f ∈ s.spawned

lemma inv_new : Inv (new : TaskSystem F) := by
  refine ⟨IdSparseVec.valid_new,List.nodup_nil,fun id => ?_,fun id => ?_,⟨fun p q f hp => ?_,fun f => ?_⟩,by simp [new]⟩
  · simp [new, Executor.new, stateOf, IdSparseVec.get_new]
  · simp [new, Executor.new, stateOf, IdSparseVec.get_new]
  · cases p <;> simp [new, Executor.new, holds, stateOf, IdSparseVec.get_new] at hp
  · constructor
    · intro hf
      simp [new, Unfinished] at hf
    · rintro ⟨p,hp⟩
      cases p <;> simp [new, Executor.new, holds, stateOf, IdSparseVec.get_new] at hp

lemma Inv.not_mem_ready {id : ℕ} (h : Inv s) (hr : ∀ t, s.stateOf id = some t → t.isReady = false) :
    id ∉ s.executor.ready := fun hm => by
  obtain ⟨t,ht,htr⟩ := (h.mem_ready id).mp hm
  simp [hr t ht] at htr

lemma nodup_push {ids : List ℕ} {id : ℕ} (h : ids.Nodup) (hid : id ∉ ids) : (ids ++ [id]).Nodup :=
  List.nodup_append.mpr ⟨h,List.nodup_singleton id,fun _ ha _ hb he => hid (List.mem_singleton.mp hb ▸ he ▸ ha)⟩

lemma Inv.spawn {f : F} (h : Inv s) (hf : f ∉ s.spawned) : ∃ s', s.step (.spawn f) = .ok s' ∧ Inv s' := by
  obtain ⟨id,v,hins,hv,hnone,hget⟩ := h.valid.insert (.ready f)
  have hnot : id ∉ s.executor.ready := h.not_mem_ready (by simp [stateOf, hnone])
  refine ⟨⟨⟨v,s.executor.ready ++ [id]⟩,s.pc,f :: s.spawned,s.finished⟩,?_,hv,nodup_push h.nodup hnot,
    fun j => ?_,fun j => ?_,?_,fun g hg => List.mem_cons_of_mem f (h.finished g hg)⟩
  · simp [step, Executor.spawn, hins, bind, Except.bind, pure, Except.pure]
  · have hj := h.mem_ready j
    simp only [stateOf, List.mem_append, List.mem_singleton, hget] at hj ⊢
    split_ifs with he
    · simp [he, TaskState.isReady]
    · simp [he, hj]
  · have hj := h.executing j
    simp only [stateOf, hget] at hj ⊢
    split_ifs with he
    · rw [← hj]
      simp [he, hnone, TaskState.isExecuting]
    · exact hj
  · apply h.placed.put (p := .slot id) (f := f)
    · simp [holds, stateOf, hnone]
    · exact fun hu => hf hu.1
    · intro r
      cases r with
      | hand => simp [holds]
      | slot j =>
        simp only [holds, stateOf, hget, Place.slot.injEq]
        split_ifs <;> rfl
    · intro g
      have hfin : f ∉ s.finished := fun hm => hf (h.finished f hm)
      simp only [Unfinished, List.mem_cons]
      by_cases hg : g = f
      · simp [hg, hfin]
      · simp [hg]

/-- The state of one task changes, with the ready queue and the executor thread. -/
lemma Inv.change {id : ℕ} {t : TaskState F} (h : Inv s) (t' : TaskState F) (ht : s.stateOf id = some t)
    (hv : s'.executor.tasks = s.executor.tasks.set id t') (hnd : s'.executor.ready.Nodup)
    (hr : ∀ j, j ∈ s'.executor.ready ↔ if j = id then t'.isReady = true else j ∈ s.executor.ready)
    (hx : ∀ j, (∃ f, s'.pc = .polling j f) ↔ if j = id then t'.isExecuting = true else ∃ f, s.pc = .polling j f)
    (hp : Placed s'.holds s'.Unfinished) (hfin : ∀ f ∈ s'.finished, f ∈ s'.spawned) : Inv s' := by
  have hst : ∀ j, s'.stateOf j = if j = id then some t' else s.stateOf j := fun j => by
    rw [stateOf, hv]
    exact IdSparseVec.get_set ht j
  refine ⟨hv ▸ IdSparseVec.valid_set h.valid ht,hnd,fun j => ?_,fun j => ?_,hp,hfin⟩
  · rw [hr, hst]
    split_ifs
    · simp
    · exact h.mem_ready j
  · rw [hx, hst]
    split_ifs
    · simp
    · exact h.executing j

/-- What a place holds after such a change. -/
lemma holds_set {id : ℕ} {t t' : TaskState F} (ht : s.stateOf id = some t)
    (hv : s'.executor.tasks = s.executor.tasks.set id t') (j : ℕ) :
    s'.holds (.slot j) = if j = id then t'.future? else s.holds (.slot j) := by
  have hst : s'.stateOf j = if j = id then some t' else s.stateOf j := by
    rw [stateOf, hv]
    exact IdSparseVec.get_set ht j
  simp only [holds, hst]
  split_ifs <;> rfl

/-- A change that leaves the future of the task where it is. -/
lemma Inv.retag {id : ℕ} {t : TaskState F} (h : Inv s) (t' : TaskState F) (ht : s.stateOf id = some t)
    (hf : t'.future? = t.future?) {ready : List ℕ} (hnd : ready.Nodup)
    (hr : ∀ j, j ∈ ready ↔ if j = id then t'.isReady = true else j ∈ s.executor.ready) :
    Inv { s with executor := ⟨s.executor.tasks.set id t',ready⟩ } := by
  have hx : t'.isExecuting = t.isExecuting := by
    cases t <;> cases t' <;> simp_all [TaskState.future?, TaskState.isExecuting]
  refine h.change t' ht rfl hnd hr (fun j => ?_) ?_ h.finished
  · split_ifs with hj
    · rw [hj, ← h.executing id, hx]
      simp [ht]
    · rfl
  · have hh : TaskSystem.holds { s with executor := ⟨s.executor.tasks.set id t',ready⟩ } = s.holds := by
      funext p
      cases p with
      | hand => rfl
      | slot j =>
        rw [holds_set ht rfl]
        split_ifs with hj
        · rw [hj, hf, holds, ht, Option.bind_some]
        · rfl
    rw [hh]
    exact h.placed

lemma Inv.wake (h : Inv s) (id : ℕ) : Inv { s with executor := (s.executor.wake id).1 } := by
  have hready := h.mem_ready
  cases ht : s.stateOf id with
  | none =>
    have he : (s.executor.wake id).1 = s.executor := by
      simp only [stateOf] at ht
      simp [Executor.wake, ht]
    rw [he]
    exact h
  | some t =>
    have hid := hready id
    simp only [ht, Option.some.injEq, exists_eq_left'] at hid
    have ht' : s.executor.tasks.get id = some t := ht
    cases t with
    | executing | executingAndAwoken =>
      simp only [Executor.wake, ht']
      refine h.retag .executingAndAwoken ht rfl h.nodup fun j => ?_
      split_ifs with hj
      · simp [hj, hid, TaskState.isReady]
      · rfl
    | paused future =>
      simp only [Executor.wake, ht']
      have hnot : id ∉ s.executor.ready := by simp [hid, TaskState.isReady]
      refine h.retag (.ready future) ht rfl (nodup_push h.nodup hnot) fun j => ?_
      split_ifs with hj <;> simp [hj, TaskState.isReady]
    | ready future =>
      simp only [Executor.wake, ht']
      refine h.retag (.ready future) ht rfl h.nodup fun j => ?_
      split_ifs with hj
      · rw [hj, hid]
      · rfl

lemma Inv.take (h : Inv s) (hpc : s.pc = .idle) (hr : s.executor.ready ≠ []) :
    ∃ s', s.step .take = .ok s' ∧ Inv s' := by
  obtain ⟨id,ids,hids⟩ := List.exists_cons_of_ne_nil hr
  obtain ⟨t,ht,htr⟩ := (h.mem_ready id).mp (by simp [hids])
  obtain ⟨f,rfl⟩ : ∃ f, t = .ready f := by
    cases t <;> simp_all [TaskState.isReady]
  have hnd := h.nodup
  rw [hids, List.nodup_cons] at hnd
  have ht' : s.executor.tasks.get id = some (.ready f) := ht
  refine ⟨{ s with executor := ⟨s.executor.tasks.set id .executing,ids⟩, pc := .polling id f },?_,
    h.change .executing ht rfl hnd.2 (fun j => ?_) (fun j => ?_) ?_ h.finished⟩
  · simp [step, Executor.take, hids, ht', Executor.unwrap, bind, Except.bind, pure, Except.pure]
  · split_ifs with hj
    · simp [hj, hnd.1, TaskState.isReady]
    · simp [hids, hj]
  · simp only [Pc.polling.injEq, hpc]
    split_ifs with hj
    · simp [hj, TaskState.isExecuting]
    · simp [Ne.symm hj]
  · apply h.placed.move (p := .slot id) (q := .hand) (f := f)
    · simp [holds, ht, TaskState.future?]
    · simp [holds, hpc]
    · intro r
      cases r with
      | hand => rfl
      | slot j =>
        rw [holds_set ht rfl]
        simp [TaskState.future?]

lemma Inv.finish (h : Inv s) (hpc : s.pc ≠ .idle) (result : Poll) :
    ∃ s', s.step (.finish result) = .ok s' ∧ Inv s' := by
  cases hp : s.pc with
  | idle => exact absurd hp hpc
  | polling id f =>
    obtain ⟨t,ht,htx⟩ := (h.executing id).mpr ⟨f,hp⟩
    have ht' : s.executor.tasks.get id = some t := ht
    have hnot : id ∉ s.executor.ready := h.not_mem_ready fun u hu => by
      cases ht.symm.trans hu
      cases t <;> simp_all [TaskState.isReady, TaskState.isExecuting]
    have hslot : s.holds (.slot id) = none := by
      simp only [holds, ht, Option.bind_some]
      cases t <;> simp_all [TaskState.future?, TaskState.isExecuting]
    have hhand : s.holds .hand = some f := by simp [holds, hp]
    cases result with
    | ready =>
      obtain ⟨v,hrem,hv,hget⟩ := h.valid.remove ht'
      refine ⟨{ s with executor := ⟨v,s.executor.ready⟩, pc := .idle, finished := f :: s.finished },?_,hv,h.nodup,
        fun j => ?_,fun j => ?_,?_,?_⟩
      · simp [step, hp, Executor.finish, hrem, bind, Except.bind, pure, Except.pure]
      · have hj := h.mem_ready j
        simp only [stateOf, hget] at hj ⊢
        split_ifs with he
        · simp [he, hnot]
        · exact hj
      · have hj := h.executing j
        simp only [stateOf, hget, hp] at hj ⊢
        split_ifs with he
        · simp
        · rw [hj]
          simp [Ne.symm he]
      · apply h.placed.drop hhand
        · intro r
          cases r with
          | hand => rfl
          | slot j =>
            simp only [holds, stateOf, hget]
            split_ifs with he he'
            · simp at he'
            · simp only [holds, stateOf] at hslot
              simp [he, hslot]
            all_goals simp_all
        · intro g
          simp only [Unfinished, List.mem_cons, not_or]
          tauto
      · intro g hg
        obtain rfl | hg := List.mem_cons.mp hg
        · exact ((h.placed.live_iff g).mpr ⟨.hand,hhand⟩).1
        · exact h.finished g hg
    | pending =>
      have hmove : ∀ t' : TaskState F, t'.future? = some f → ∀ ready, Placed (TaskSystem.holds
          { s with executor := ⟨s.executor.tasks.set id t',ready⟩, pc := .idle }) s.Unfinished := by
        intro t' hf ready
        apply h.placed.move hhand hslot
        intro r
        cases r with
        | hand => rfl
        | slot j =>
          rw [holds_set ht rfl]
          simp [hf]
      have hidle : ∀ t' : TaskState F, t'.isExecuting = false → ∀ j, (∃ g, (.idle : Pc F) = .polling j g) ↔
          if j = id then t'.isExecuting = true else ∃ g, s.pc = .polling j g := by
        intro t' hx j
        split_ifs with hj
        · simp [hx]
        · simp [hp, Ne.symm hj]
      cases t with
      | ready _ | paused _ => simp [TaskState.isExecuting] at htx
      | executing =>
        refine ⟨{ s with executor := ⟨s.executor.tasks.set id (.paused f),s.executor.ready⟩, pc := .idle },?_,
          h.change (.paused f) ht rfl h.nodup (fun j => ?_) (hidle _ rfl) (hmove _ rfl _) h.finished⟩
        · simp [step, hp, Executor.finish, ht', Executor.unwrap, bind, Except.bind, pure, Except.pure]
        · split_ifs with hj
          · simp [hj, hnot, TaskState.isReady]
          · rfl
      | executingAndAwoken =>
        refine ⟨{ s with executor := ⟨s.executor.tasks.set id (.ready f),s.executor.ready ++ [id]⟩, pc := .idle },?_,
          h.change (.ready f) ht rfl (nodup_push h.nodup hnot) (fun j => ?_) (hidle _ rfl) (hmove _ rfl _)
            h.finished⟩
        · simp [step, hp, Executor.finish, ht', Executor.unwrap, bind, Except.bind, pure, Except.pure]
        · split_ifs with hj <;> simp [hj, TaskState.isReady]

theorem Inv.step (h : Inv s) {e : TaskEvent F} (he : s.Enabled e) : ∃ s', s.step e = .ok s' ∧ Inv s' := by
  cases e with
  | spawn f => exact h.spawn he
  | wake id => exact ⟨_,rfl,h.wake id⟩
  | take => exact h.take he.1 he.2
  | finish result => exact h.finish he result

theorem inv_of_reach (h : TaskReach s) : Inv s := by
  induction h with
  | new => exact inv_new
  | step e _ he hs ih =>
    obtain ⟨s',hs',hinv⟩ := ih.step he
    cases hs.symm.trans hs'
    exact hinv

end TaskSystem

lemma TaskState.isReady_iff {t : TaskState F} : t.isReady = true ↔ ∃ f, t = .ready f := by
  cases t <;> simp [isReady]

lemma TaskState.isExecuting_iff {t : TaskState F} :
    t.isExecuting = true ↔ t = .executing ∨ t = .executingAndAwoken := by
  cases t <;> simp [isExecuting]

/-- In every interleaving the ready queue holds the ready tasks, each once; the executor thread polls
the one task that is executing, and every future of a task that is not done is in one place. No step
fails. -/
theorem executor_consistent {s : TaskSystem F} (h : TaskReach s) :
    (∀ id f, s.stateOf id = some (.ready f) → s.executor.ready.count id = 1) ∧
    (∀ id, (∀ f, s.stateOf id ≠ some (.ready f)) → id ∉ s.executor.ready) ∧
    (∀ id, (s.stateOf id = some .executing ∨ s.stateOf id = some .executingAndAwoken) ↔
      ∃ f, s.pc = .polling id f) ∧
    (∀ f, f ∈ s.spawned → f ∉ s.finished → ∃! p, s.holds p = some f) ∧
    ∀ e, s.Enabled e → ∃ s', s.step e = .ok s' := by
  have hinv := TaskSystem.inv_of_reach h
  refine ⟨fun id f hf => ?_,fun id hid hm => ?_,fun id => ?_,fun f hf hn => hinv.placed.existsUnique ⟨hf,hn⟩,
    fun e he => ?_⟩
  · exact List.count_eq_one_of_mem hinv.nodup ((hinv.mem_ready id).mpr ⟨_,hf,rfl⟩)
  · obtain ⟨t,ht,htr⟩ := (hinv.mem_ready id).mp hm
    obtain ⟨f,rfl⟩ := TaskState.isReady_iff.mp htr
    exact hid f ht
  · rw [← hinv.executing id]
    constructor
    · rintro (h | h) <;> exact ⟨_,h,rfl⟩
    · rintro ⟨t,ht,htx⟩
      obtain rfl | rfl := TaskState.isExecuting_iff.mp htx
      · exact Or.inl ht
      · exact Or.inr ht
  · obtain ⟨s',hs',_⟩ := hinv.step he
    exact ⟨s',hs'⟩

/-- A task that was woken while it was polled, before the poll ends. -/
def wokenInPoll : TaskSystem ℕ :=
  { executor := ⟨⟨[some .executingAndAwoken,some (.ready 8)],[]⟩,[1]⟩, pc := .polling 0 7,
    spawned := [8,7], finished := [] }

lemma reach_wokenInPoll : TaskReach wokenInPoll := by
  have h1 : TaskReach _ := .step (.spawn 7) .new (by simp [TaskSystem.Enabled, TaskSystem.new]) rfl
  have h2 : TaskReach _ := .step .take h1 (by simp [TaskSystem.Enabled, TaskSystem.new, Executor.new, IdSparseVec.new]) rfl
  have h3 : TaskReach _ := .step (.wake 0) h2 trivial rfl
  exact .step (.spawn 8) h3 (by simp [TaskSystem.Enabled, TaskSystem.new]) rfl

theorem executor_consistent_woken : TaskReach wokenInPoll ∧ wokenInPoll.executor.ready.count 1 = 1 ∧
    ∀ result, ∃ s', wokenInPoll.step (.finish result) = .ok s' := by
  have h := executor_consistent reach_wokenInPoll
  exact ⟨reach_wokenInPoll,h.1 1 8 rfl,fun result => h.2.2.2.2 _ (by simp [TaskSystem.Enabled, wokenInPoll])⟩

end Lilith.Tasks
