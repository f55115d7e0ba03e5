import Lilith.Sched.Irq

/-! What the scheduler knows of its threads, and the ways in which it can change. A thread that is
about to wait or to sleep is in its wait queue, or has its timer, before its state says so: that is
its `intent`. -/
namespace Lilith.Sched

structure SchedView where
  state : ℕ → Option ThreadState
  current : ℕ
  ready : List ℕ
  waiters : ℕ → List ℕ
  /-- the threads that a closure of `thread_sleep` will wake -/
  sleepers : List ℕ
  control : Control

namespace SchedView
variable {v : SchedView} {id q : ℕ} {ids l : List ℕ} {c : Caller} {r : SchedReason}

/-- The state of a thread, or the one that the current call of `sched()` is going to give it. -/
def intent (v : SchedView) (id : ℕ) : Option ThreadState :=
  match v.control with
  | .sched .waiting _ => if id = v.current then some .waiting else v.state id
  | .sched .sleeping _ => if id = v.current then some .sleeping else v.state id
  | _ => v.state id

structure Inv (v : SchedView) : Prop where
  running : ∀ id, v.state id = some .running ↔ id = v.current
  idle : v.state IDLE_THREAD_ID = some .running ∨ v.state IDLE_THREAD_ID = some .ready
  ready_nodup : v.ready.Nodup
  mem_ready : ∀ id, id ∈ v.ready ↔ v.state id = some .ready ∧ id ≠ IDLE_THREAD_ID
  waiters_nodup : ∀ q, (v.waiters q).Nodup
  waiters_apart : ∀ q q' id, id ∈ v.waiters q → id ∈ v.waiters q' → q = q'
  mem_waiters : ∀ id, (∃ q, id ∈ v.waiters q) ↔ v.intent id = some .waiting
  sleepers_nodup : v.sleepers.Nodup
  mem_sleepers : ∀ id, id ∈ v.sleepers ↔ v.intent id = some .sleeping
  exiting : ∀ id, v.state id = some .exiting ↔ v.control = .resumed (.cleanup id)
  cleanup : ∀ id, v.control = .resumed (.cleanup id) → v.current = IDLE_THREAD_ID
  busy : ∀ r c, v.control = .sched r c → r ≠ .yielding → v.current ≠ IDLE_THREAD_ID

/-- A thread becomes ready. -/
def makeReady (v : SchedView) (id : ℕ) : SchedView :=
  { v with state := Function.update v.state id (some .ready), ready := v.ready ++ [id] }

def setControl (v : SchedView) (c : Control) : SchedView := { v with control := c }

namespace Inv

lemma perm (h : v.Inv) (hp : l.Perm v.sleepers) : Inv { v with sleepers := l } :=
  { h with
    sleepers_nodup := hp.nodup_iff.mpr h.sleepers_nodup
    mem_sleepers := fun id => hp.mem_iff.trans (h.mem_sleepers id) }

lemma current_state (h : v.Inv) : v.state v.current = some .running := (h.running _).mpr rfl

lemma nodup_ready (h : v.Inv) (hs : v.state id ≠ some .ready) : (v.ready ++ [id]).Nodup := by
  refine List.Nodup.append h.ready_nodup (List.nodup_singleton id) ?_
  rw [List.disjoint_singleton]
  exact fun hm => hs ((h.mem_ready id).mp hm).1

/-- A thread that is neither running nor ready nor exiting becomes ready, and leaves the queue it
was in. -/
lemma makeReady (h : v.Inv) (hc : v.control = .run) (h0 : id ≠ IDLE_THREAD_ID)
    (hs : v.state id ≠ some .running) (hs' : v.state id ≠ some .ready) (w : ℕ → List ℕ) (s : List ℕ)
    (hw : ∀ q, (w q).Sublist (v.waiters q)) (hwid : ∀ q, id ∉ w q)
    (hwm : ∀ q j, j ≠ id → j ∈ v.waiters q → j ∈ w q)
    (hsl : s.Sublist v.sleepers) (hsid : id ∉ s) (hsm : ∀ j, j ≠ id → j ∈ v.sleepers → j ∈ s) :
    Inv { v.makeReady id with waiters := w, sleepers := s } := by
  have hint : v.intent = v.state := by funext j; simp [intent, hc]
  have hint' : intent { v.makeReady id with waiters := w, sleepers := s } =
      Function.update v.state id (some .ready) := by
    funext j
    simp [intent, SchedView.makeReady, hc]
  have hmw := h.mem_waiters
  have hms := h.mem_sleepers
  simp only [hint] at hmw hms
  refine ⟨fun j => ?_,?_,h.nodup_ready hs',fun j => ?_,fun q => (h.waiters_nodup q).sublist (hw q),
    fun q q' j h1 h2 => h.waiters_apart q q' j ((hw q).subset h1) ((hw q').subset h2),fun j => ?_,
    h.sleepers_nodup.sublist hsl,fun j => ?_,fun j => ?_,h.cleanup,h.busy⟩
  · simp only [SchedView.makeReady, ← h.running j, Function.update_apply]
    split_ifs with hj
    · subst hj
      simp [hs]
    · rfl
  · simpa [SchedView.makeReady, Function.update_of_ne (Ne.symm h0)] using h.idle
  · simp only [SchedView.makeReady, List.mem_append, List.mem_singleton, h.mem_ready j, Function.update_apply]
    split_ifs with hj
    · simp [hj, h0]
    · simp [hj]
  · rw [hint', Function.update_apply]
    split_ifs with hj
    · subst hj
      simp [hwid]
    · rw [← hmw j]
      exact ⟨fun ⟨q,hq⟩ => ⟨q,(hw q).subset hq⟩,fun ⟨q,hq⟩ => ⟨q,hwm q j hj hq⟩⟩
  · rw [hint', Function.update_apply]
    split_ifs with hj
    · subst hj
      simp [hsid]
    · rw [← hms j]
      exact ⟨fun hq => hsl.subset hq,hsm j hj⟩
  · have hex := h.exiting j
    simp only [hc] at hex
    simp only [SchedView.makeReady, Function.update_apply, hc]
    split_ifs with hj
    · simp
    · simpa using hex

/-- A new thread. -/
lemma spawn (h : v.Inv) (hc : v.control = .run) (hn : v.state id = none) : Inv (v.makeReady id) := by
  have hint : v.intent id = none := by simp [intent, hc, hn]
  have h0 : id ≠ IDLE_THREAD_ID := by
    rintro rfl
    simpa [hn] using h.idle
  refine h.makeReady hc h0 (by simp [hn]) (by simp [hn]) v.waiters v.sleepers
    (fun q => List.Sublist.refl _) (fun q hq => ?_) (fun _ _ _ hj => hj) (List.Sublist.refl _)
    (fun hs => ?_) (fun _ _ hj => hj)
  · simpa [hint] using (h.mem_waiters id).mp ⟨q,hq⟩
  · simpa [hint] using (h.mem_sleepers id).mp hs

lemma of_waiting (h : v.Inv) (hc : v.control = .run) (hq : id ∈ v.waiters q) :
    v.state id = some .waiting := by
  have := (h.mem_waiters id).mp ⟨q,hq⟩
  simpa [intent, hc] using this

lemma of_sleeping (h : v.Inv) (hc : v.control = .run) (hs : id ∈ v.sleepers) :
    v.state id = some .sleeping := by
  have := (h.mem_sleepers id).mp hs
  simpa [intent, hc] using this

lemma ne_idle (h : v.Inv) (h1 : v.state id ≠ some .running) (h2 : v.state id ≠ some .ready) :
    id ≠ IDLE_THREAD_ID := by
  rintro rfl
  exact h.idle.elim h1 h2

/-- The first thread of a wait queue becomes ready. -/
lemma wakeWaiter (h : v.Inv) (hc : v.control = .run) (hq : v.waiters q = id :: ids) :
    Inv { v.makeReady id with waiters := Function.update v.waiters q ids } := by
  have hid : id ∈ v.waiters q := by simp [hq]
  have hst := h.of_waiting hc hid
  have hnd := h.waiters_nodup q
  rw [hq, List.nodup_cons] at hnd
  refine h.makeReady hc (h.ne_idle (by simp [hst]) (by simp [hst])) (by simp [hst]) (by simp [hst])
    _ v.sleepers (fun q' => ?_) (fun q' hm => ?_) (fun q' j hj hm => ?_) (List.Sublist.refl _)
    (fun hs => ?_) (fun _ _ hj => hj)
  · by_cases hqq : q' = q
    · subst hqq
      simp [hq]
    · rw [Function.update_of_ne hqq]
  · by_cases hqq : q' = q
    · subst hqq
      rw [Function.update_self] at hm
      exact hnd.1 hm
    · rw [Function.update_of_ne hqq] at hm
      exact hqq (h.waiters_apart _ _ _ hm hid)
  · by_cases hqq : q' = q
    · subst hqq
      rw [hq, List.mem_cons] at hm
      simpa [hj] using hm
    · rwa [Function.update_of_ne hqq]
  · simpa [hst] using h.of_sleeping hc hs

/-- A sleeping thread becomes ready; its closure is gone. -/
lemma wakeSleeper (h : v.Inv) (hc : v.control = .run) (hp : v.sleepers.Perm (id :: l)) :
    Inv { v.makeReady id with sleepers := l } := by
  have hid : id ∈ v.sleepers := hp.mem_iff.mpr (by simp)
  have hst := h.of_sleeping hc hid
  have hnd := hp.nodup_iff.mp h.sleepers_nodup
  rw [List.nodup_cons] at hnd
  have h' := h.perm hp.symm
  refine h'.makeReady hc (h.ne_idle (by simp [hst]) (by simp [hst])) (by simp [hst]) (by simp [hst])
    v.waiters l (fun q => List.Sublist.refl _) (fun q hq => ?_) (fun _ _ _ hj => hj)
    (List.sublist_cons_self id l) hnd.1 (fun j hj hm => ?_)
  · simpa [hst] using h.of_waiting hc hq
  · simpa [hj] using hm

/-- A thread calls `sched()` to yield or to exit. -/
lemma enterSched (h : v.Inv) (hc : v.control = .run) (hr : r = .yielding ∨ r = .exiting)
    (h0 : r ≠ .yielding → v.current ≠ IDLE_THREAD_ID) : Inv (v.setControl (.sched r c)) := by
  have hint : (v.setControl (.sched r c)).intent = v.intent := by
    funext j
    rcases hr with rfl | rfl <;> simp [intent, setControl, hc]
  have hex := h.exiting
  simp only [hc] at hex
  refine { h with
    mem_waiters := fun j => by rw [hint]; exact h.mem_waiters j
    mem_sleepers := fun j => by rw [hint]; exact h.mem_sleepers j
    exiting := fun j => by simpa [setControl] using hex j
    cleanup := fun j hj => by simp [setControl] at hj
    busy := ?_ }
  intro r' c' hrc hne
  obtain ⟨rfl,-⟩ : r = r' ∧ c = c' := by simpa [setControl] using hrc
  exact h0 hne

/-- A thread puts itself into a wait queue and calls `sched()`. -/
lemma enterWait (h : v.Inv) (hc : v.control = .run) (h0 : v.current ≠ IDLE_THREAD_ID) :
    Inv { v.setControl (.sched .waiting c) with
      waiters := Function.update v.waiters q (v.waiters q ++ [v.current]) } := by
  have hst := h.current_state
  have hnot : ∀ q, v.current ∉ v.waiters q := fun q hq => by simpa [hst] using h.of_waiting hc hq
  have hmem : ∀ q' j, j ∈ Function.update v.waiters q (v.waiters q ++ [v.current]) q' ↔
      j ∈ v.waiters q' ∨ q' = q ∧ j = v.current := by
    intro q' j
    by_cases hq : q' = q
    · subst hq
      simp
    · simp [hq]
  have hint : ∀ j, intent { v.setControl (.sched .waiting c) with
      waiters := Function.update v.waiters q (v.waiters q ++ [v.current]) } j =
      if j = v.current then some .waiting else v.state j := fun j => rfl
  have hmw := h.mem_waiters
  have hms := h.mem_sleepers
  have hold : v.intent = v.state := by funext j; simp [intent, hc]
  have hex := h.exiting
  simp only [hold] at hmw hms
  simp only [hc] at hex
  refine ⟨h.running,h.idle,h.ready_nodup,h.mem_ready,fun q' => ?_,fun q1 q2 j h1 h2 => ?_,fun j => ?_,
    h.sleepers_nodup,fun j => ?_,fun j => by simpa [setControl] using hex j,
    fun j hj => by simp [setControl] at hj,fun _ _ _ _ => h0⟩
  · by_cases hq : q' = q
    · subst hq
      simp only [Function.update_self]
      refine List.Nodup.append (h.waiters_nodup q') (List.nodup_singleton _) ?_
      rw [List.disjoint_singleton]
      exact hnot q'
    · simpa only [setControl, Function.update_of_ne hq] using h.waiters_nodup q'
  · rcases (hmem q1 j).mp h1 with h3 | ⟨hq1,hj⟩ <;> rcases (hmem q2 j).mp h2 with h4 | ⟨hq2,hj'⟩
    · exact h.waiters_apart _ _ _ h3 h4
    · exact absurd (hj' ▸ h3) (hnot _)
    · exact absurd (hj ▸ h4) (hnot _)
    · exact hq1.trans hq2.symm
  · rw [hint]
    simp only [hmem]
    split_ifs with hj
    · subst hj
      simp
    · simp only [hj, and_false, or_false]
      exact hmw j
  · rw [hint]
    split_ifs with hj
    · subst hj
      simp only [setControl, hms, hst]
      simp
    · exact hms j

/-- A thread has its timer and calls `sched()`. -/
lemma enterSleep (h : v.Inv) (hc : v.control = .run) (h0 : v.current ≠ IDLE_THREAD_ID)
    (hp : l.Perm (v.current :: v.sleepers)) :
    Inv { v.setControl (.sched .sleeping c) with sleepers := l } := by
  have hst := h.current_state
  have hnot : v.current ∉ v.sleepers := fun hs => by simpa [hst] using h.of_sleeping hc hs
  have hint : ∀ j, intent { v.setControl (.sched .sleeping c) with sleepers := l } j =
      if j = v.current then some .sleeping else v.state j := fun j => rfl
  have hmw := h.mem_waiters
  have hms := h.mem_sleepers
  have hold : v.intent = v.state := by funext j; simp [intent, hc]
  have hex := h.exiting
  simp only [hold] at hmw hms
  simp only [hc] at hex
  refine ⟨h.running,h.idle,h.ready_nodup,h.mem_ready,h.waiters_nodup,h.waiters_apart,fun j => ?_,
    hp.nodup_iff.mpr (List.nodup_cons.mpr ⟨hnot,h.sleepers_nodup⟩),fun j => ?_,
    fun j => by simpa [setControl] using hex j,fun j hj => by simp [setControl] at hj,fun _ _ _ _ => h0⟩
  · rw [hint]
    split_ifs with hj
    · subst hj
      have := hmw v.current
      rw [hst] at this
      simpa [setControl] using this
    · exact hmw j
  · rw [hint, hp.mem_iff, List.mem_cons]
    split_ifs with hj
    · simp [hj]
    · simpa [hj] using hms j

/-- A thread leaves `sched()`: it yields and no thread is ready, or it was switched to. -/
lemma leaveSched (h : v.Inv) (hc : (∃ c, v.control = .sched .yielding c) ∨ v.control = .resumed .none) :
    Inv (v.setControl .run) := by
  have hint : (v.setControl .run).intent = v.intent := by
    funext j
    rcases hc with ⟨c,hc⟩ | hc <;> simp [intent, setControl, hc]
  have hex : ∀ j, v.state j ≠ some .exiting := fun j hj => by
    rcases hc with ⟨c,hc⟩ | hc <;> simp [h.exiting, hc] at hj
  exact { h with
    mem_waiters := fun j => by rw [hint]; exact h.mem_waiters j
    mem_sleepers := fun j => by rw [hint]; exact h.mem_sleepers j
    exiting := fun j => by simpa [setControl] using hex j
    cleanup := fun j hj => by simp [setControl] at hj
    busy := fun _ _ hj => by simp [setControl] at hj }

/-- The idle thread removes a thread that exited, and goes through the loop of `sched()` again. -/
lemma reap (h : v.Inv) (hc : v.control = .resumed (.cleanup id)) :
    Inv { v.setControl (.sched .yielding c) with state := Function.update v.state id none } := by
  have hst : v.state id = some .exiting := (h.exiting id).mpr hc
  have h0 : id ≠ IDLE_THREAD_ID := h.ne_idle (by simp [hst]) (by simp [hst])
  have hint : ∀ j, intent { v.setControl (.sched .yielding c) with state := Function.update v.state id none } j =
      Function.update v.state id none j := fun j => rfl
  have hmw := h.mem_waiters
  have hms := h.mem_sleepers
  have hold : v.intent = v.state := by funext j; simp [intent, hc]
  simp only [hold] at hmw hms
  refine ⟨fun j => ?_,?_,h.ready_nodup,fun j => ?_,h.waiters_nodup,h.waiters_apart,fun j => ?_,
    h.sleepers_nodup,fun j => ?_,fun j => ?_,fun j hj => by simp [setControl] at hj,?_⟩
  · simp only [setControl, ← h.running j, Function.update_apply]
    split_ifs with hj
    · simp [hj, hst]
    · rfl
  · simpa [setControl, Function.update_of_ne (Ne.symm h0)] using h.idle
  · simp only [setControl, h.mem_ready j, Function.update_apply]
    split_ifs with hj
    · simp [hj, hst]
    · rfl
  · rw [hint, Function.update_apply]
    simp only [setControl, hmw j]
    split_ifs with hj
    · simp [hj, hst]
    · rfl
  · rw [hint, Function.update_apply]
    simp only [setControl, hms j]
    split_ifs with hj
    · simp [hj, hst]
    · rfl
  · have hex := h.exiting j
    simp only [hc] at hex
    simp only [setControl, Function.update_apply]
    split_ifs with hj
    · simp
    · rw [hex]
      simp [Ne.symm hj]
  · intro r' c' hrc hne
    obtain ⟨rfl,-⟩ : SchedReason.yielding = r' ∧ c = c' := by simpa [setControl] using hrc
    exact absurd rfl hne

/-- The view after the part of `sched()` up to `switch()`. -/
def switched (v : SchedView) (r : SchedReason) (n : ℕ) (ready : List ℕ) : SchedView :=
  let out := Kernel.outgoing v.current ready r
  { v with
    state := Function.update (Function.update v.state v.current (some out.1)) n (some .running)
    current := n, ready := out.2.1, control := .resumed out.2.2 }

lemma switch_state (n j : ℕ) : (switched v r n l).state j =
    if j = n then some .running
    else if j = v.current then some (Kernel.outgoing v.current l r).1 else v.state j := by
  simp [switched, Function.update_apply]

/-- The switch to a ready thread `n`, with the other ready threads `l`. -/
lemma switch {n : ℕ} (h : v.Inv) (hc : v.control = .sched r c) (hn : v.state n = some .ready)
    (hnd : l.Nodup) (hmem : ∀ j, j ∈ l ↔ j ∈ v.ready ∧ j ≠ n) (hex : r = .exiting → n = IDLE_THREAD_ID) :
    Inv (switched v r n l) := by
  have hcur := h.current_state
  have hne : n ≠ v.current := fun he => by
    rw [he, hcur] at hn
    simp at hn
  have hst := switch_state (v := v) (r := r) (l := l) n
  have hint : (switched v r n l).intent = (switched v r n l).state := by
    funext j
    simp [intent, switched]
  have hcl : v.current ∉ l := fun hm => by
    have := ((h.mem_ready _).mp ((hmem _).mp hm).1).1
    simp [hcur] at this
  have hmw := h.mem_waiters
  have hms := h.mem_sleepers
  have hexit := h.exiting
  have hbusy := h.busy r c hc
  simp only [hc] at hexit
  refine ⟨fun j => ?_,?_,?_,fun j => ?_,h.waiters_nodup,h.waiters_apart,fun j => ?_,
    h.sleepers_nodup,fun j => ?_,fun j => ?_,fun j hj => ?_,fun _ _ hj => by simp [switched] at hj⟩
  · rw [hst]
    have hj := h.running j
    cases r <;> simp only [switched, Kernel.outgoing] <;> grind
  · rw [hst]
    have hi := h.idle
    cases r <;> simp only [Kernel.outgoing] <;> grind
  · cases r <;> simp only [switched, Kernel.outgoing]
    · split_ifs
      · refine List.Nodup.append hnd (List.nodup_singleton _) ?_
        rw [List.disjoint_singleton]
        exact hcl
      · exact hnd
    all_goals exact hnd
  · rw [hst]
    have hj := h.mem_ready j
    have hj' := hmem j
    cases r <;> simp only [switched, Kernel.outgoing] <;> grind
  · rw [hint, hst]
    have hj := hmw j
    cases r <;> simp only [intent, hc] at hj <;> simp only [switched, Kernel.outgoing] <;> grind
  · rw [hint, hst]
    have hj := hms j
    cases r <;> simp only [intent, hc] at hj <;> simp only [switched, Kernel.outgoing] <;> grind
  · rw [hst]
    have hj := hexit j
    cases r <;> simp only [switched, Kernel.outgoing] <;> grind
  · cases r <;> simp only [switched, Kernel.outgoing] at hj ⊢ <;> grind

end Inv
end SchedView
end Lilith.Sched
