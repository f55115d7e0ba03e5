import Mathlib.Tactic

/-! Total correctness of computations that may fault. `Ends m s Q` says that the stateful
computation `m`, started in state `s`, ends without a fault in a result and a state that satisfy
`Q`. `Outcome m E Q` says of a computation without state that its result satisfies `Q`, or else the
fault it ends in satisfies `E`. -/
namespace Lilith.Theory

universe u
variable {σ ε : Type u} {α β : Type u}

def Ends (m : StateT σ (Except ε) α) (s : σ) (Q : α → σ → Prop) : Prop :=
  ∃ a s', m s = .ok (a,s') ∧ Q a s'

/-- Sequencing after a computation whose result is known. -/
lemma bind_run {m : StateT σ (Except ε) α} {f : α → StateT σ (Except ε) β} {s s' : σ} {a : α}
    (h : m s = .ok (a,s')) : (m >>= f) s = f a s' := by
  change (m s >>= fun x => f x.1 x.2) = _
  rw [h]
  rfl

namespace Ends
variable {m : StateT σ (Except ε) α} {f : α → StateT σ (Except ε) β} {s : σ} {P Q : α → σ → Prop}

theorem mono (h : Ends m s P) (hq : ∀ a s', P a s' → Q a s') : Ends m s Q := by
  obtain ⟨a,s',hm,hp⟩ := h
  exact ⟨a,s',hm,hq a s' hp⟩

theorem pure {a : α} (h : Q a s) : Ends (pure a : StateT σ (Except ε) α) s Q := ⟨a,s,rfl,h⟩

/-- Sequencing: the second computation starts where the first one ended. -/
theorem bind {R : β → σ → Prop} (h : Ends m s P) (hf : ∀ a s', P a s' → Ends (f a) s' R) :
    Ends (m >>= f) s R := by
  obtain ⟨a,s',hm,hp⟩ := h
  obtain ⟨b,s'',hb,hr⟩ := hf a s' hp
  exact ⟨b,s'',(bind_run hm).trans hb,hr⟩

theorem bind_eq {R : β → σ → Prop} {a : α} {s' : σ} (hm : m s = .ok (a,s'))
    (hf : Ends (f a) s' R) : Ends (m >>= f) s R :=
  bind (P := fun b t => b = a ∧ t = s') ⟨a,s',hm,rfl,rfl⟩ (by rintro _ _ ⟨rfl,rfl⟩; exact hf)

theorem bind_get {f : σ → StateT σ (Except ε) β} {R : β → σ → Prop} (hf : Ends (f s) s R) :
    Ends (get >>= f) s R := hf

end Ends

def Outcome (m : Except ε α) (E : ε → Prop) (Q : α → Prop) : Prop :=
  match m with
  | .ok a => Q a
  | .error e => E e

namespace Outcome
variable {m : Except ε α} {f : α → Except ε β} {E E' : ε → Prop} {P Q : α → Prop} {a : α}

theorem of_eq (h : m = .ok a) (hq : Q a) : Outcome m E Q := by
  rw [h]
  exact hq

theorem mono (h : Outcome m E P) (he : ∀ e, E e → E' e) (hq : ∀ a, P a → Q a) : Outcome m E' Q := by
  cases m with
  | ok a => exact hq a h
  | error e => exact he e h

/-- Sequencing: a fault of the first computation ends both. -/
theorem bind {R : β → Prop} (h : Outcome m E P) (hf : ∀ a, P a → Outcome (f a) E R) :
    Outcome (m >>= f) E R := by
  cases m with
  | ok a => exact hf a h
  | error e => exact h

theorem bind_eq {R : β → Prop} (hm : m = .ok a) (hf : Outcome (f a) E R) : Outcome (m >>= f) E R := by
  rw [hm]
  exact hf

/-- The result, when there is one. -/
theorem result (h : Outcome m E Q) (hm : m = .ok a) : Q a := by
  rw [hm] at h
  exact h

end Outcome
end Lilith.Theory
