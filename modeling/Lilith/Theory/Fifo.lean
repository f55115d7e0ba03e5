import Mathlib.Data.List.Basic
import Mathlib.Data.List.Infix
import Mathlib.Tactic

/-! Systems with a queue that is served in the order of arrival. What a run has taken from the front
of the queue, followed by what is left, is what was there at first, followed by what has joined. So
nothing that joins later overtakes an element of the queue. -/
namespace Lilith.Theory

variable {σ ε α : Type*}

/-- While `joined` entered the queue `q` at its end, `served` left at its front, and `q'` is left. -/
def Serves (q served joined q' : List α) : Prop := q ++ joined = served ++ q'

namespace Serves
variable {q q' q'' s s' j j' l r : List α} {x : α}

lemma join (q j : List α) : Serves q [] j (q ++ j) := rfl

lemma trans (h : Serves q s j q') (h' : Serves q' s' j' q'') : Serves q (s ++ s') (j ++ j') q'' := by
  unfold Serves at *
  rw [← List.append_assoc, h, List.append_assoc, h', List.append_assoc]

/-- What was served comes before an element that was not. -/
lemma served_prefix (h : Serves (l ++ x :: r) s j q') (hx : x ∉ s) : s <+: l := by
  have h1 : s <+: l ++ (x :: r ++ j) := ⟨q',by rw [← List.append_assoc]; exact h.symm⟩
  rcases List.prefix_or_prefix_of_prefix h1 (List.prefix_append l _) with h2 | ⟨t,rfl⟩
  · exact h2
  · cases t with
    | nil => simp
    | cons y t =>
      have h3 : y :: t <+: x :: r ++ j := (List.prefix_append_right_inj l).mp h1
      obtain ⟨rfl,_⟩ := List.cons_prefix_cons.mp h3
      simp at hx

/-- An element that was not served waits behind what is left of those before it. -/
lemma waiting (h : Serves (l ++ x :: r) s j q') (hx : x ∉ s) : q' = l.drop s.length ++ x :: r ++ j := by
  obtain ⟨t,rfl⟩ := h.served_prefix hx
  rw [List.drop_left]
  apply @List.append_cancel_left _ s
  rw [← h]
  simp

/-- When an element is served for the first time, all of those before it have been. -/
lemma served_eq (h : Serves (l ++ x :: r) (s ++ [x]) j q') (hs : x ∉ s) (hl : x ∉ l) : s = l := by
  have h' : Serves (l ++ x :: r) s j (x :: q') := by
    unfold Serves at *
    simpa using h
  obtain ⟨t,rfl⟩ := h'.served_prefix hs
  have hleft := h'.waiting hs
  rw [List.drop_left] at hleft
  cases t with
  | nil => simp
  | cons y t =>
    obtain ⟨rfl,_⟩ := List.cons.inj hleft
    simp at hl

end Serves

/-- A step that a system has made. -/
structure Step (σ ε : Type*) where
  before : σ
  event : ε
  after : σ

/-- The steps of a run from one state to another. -/
inductive Trace (R : σ → ε → σ → Prop) (s : σ) : List (Step σ ε) → σ → Prop
  | nil : Trace R s [] s
  | snoc {l : List (Step σ ε)} {s1 s2 : σ} {e : ε} (h : Trace R s l s1) (hs : R s1 e s2) :
      Trace R s (l ++ [⟨s1,e,s2⟩]) s2

namespace Trace
variable {R : σ → ε → σ → Prop} {I : σ → Prop} {s s' : σ} {l : List (Step σ ε)}

lemma cons {s1 : σ} {e : ε} (hs : R s e s1) (h : Trace R s1 l s') : Trace R s (⟨s,e,s1⟩ :: l) s' := by
  induction h with
  | nil => exact Trace.nil.snoc hs
  | snoc _ hs' ih => exact ih.snoc hs'

lemma inv (hstep : ∀ s e s', I s → R s e s' → I s') (h : Trace R s l s') (hi : I s) : I s' := by
  induction h with
  | nil => exact hi
  | snoc _ hs ih => exact hstep _ _ _ ih hs

/-- If every step serves the queue in order, so does every run. -/
lemma serves {queue : σ → List α} {served : Step σ ε → Option α} (hinv : ∀ s e s', I s → R s e s' → I s')
    (hstep : ∀ s e s', I s → R s e s' → ∃ j, Serves (queue s) (served ⟨s,e,s'⟩).toList j (queue s'))
    (h : Trace R s l s') (hi : I s) : ∃ j, Serves (queue s) (l.filterMap served) j (queue s') := by
  induction h with
  | nil => exact ⟨[],List.append_nil _⟩
  | snoc h hs ih =>
    obtain ⟨j,hj⟩ := ih
    obtain ⟨j',hj'⟩ := hstep _ _ _ (h.inv hinv hi) hs
    refine ⟨j ++ j',?_⟩
    rw [List.filterMap_append, List.filterMap_cons]
    have htrans := hj.trans hj'
    cases hsv : served ⟨_,_,_⟩ <;> simpa [hsv] using htrans

end Trace

end Lilith.Theory
