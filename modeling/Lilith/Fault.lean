import Mathlib.Tactic

/-! How kernel code can go wrong, and the checked machine arithmetic of a debug build. -/
namespace Lilith

/-- The ways a computation can end without a result. -/
inductive Fault where
  /-- a null pointer was dereferenced -/
  | nullDeref
  /-- a pointer to memory that holds no object of its type was dereferenced -/
  | dangling
  /-- an assertion, an `unwrap`, an `expect` or a `panic!` failed -/
  | panic (message : String)
  /-- an arithmetic operation left the range of its type -/
  | overflow
  /-- a loop did not end within the steps its model allows -/
  | diverge
  deriving DecidableEq, Repr

/-- The errors of the memory allocators, which are returned and not faults. -/
inductive MemoryError where
  | outOfMemory
  | outOfVirtual
  | sizeTooBig
  deriving DecidableEq, Repr

/-- Subtraction of unsigned integers. -/
def checkedSub (a b : ℕ) : Except Fault ℕ := if b ≤ a then .ok (a-b) else .error .overflow

/-- Addition of 64-bit unsigned integers. -/
def checkedAdd (a b : ℕ) : Except Fault ℕ := if a+b < 2^64 then .ok (a+b) else .error .overflow

/-- Multiplication of 64-bit unsigned integers. -/
def checkedMul (a b : ℕ) : Except Fault ℕ := if a*b < 2^64 then .ok (a*b) else .error .overflow

/-- A failed condition is a panic. -/
def assert (p : Prop) [Decidable p] (message : String) : Except Fault Unit :=
  if p then .ok () else .error (.panic message)

@[simp] theorem checkedSub_of_le {a b : ℕ} (h : b ≤ a) : checkedSub a b = .ok (a-b) := if_pos h
@[simp] theorem checkedAdd_of_lt {a b : ℕ} (h : a+b < 2^64) : checkedAdd a b = .ok (a+b) := if_pos h
@[simp] theorem assert_of {p : Prop} [Decidable p] (h : p) (m : String) : assert p m = .ok () := if_pos h

lemma bind_ok {α β ε : Type} {x : Except ε α} {f : α → Except ε β} {b : β} (h : (x >>= f) = .ok b) :
    ∃ a, x = .ok a ∧ f a = .ok b := by
  cases x with
  | error e => simp [bind, Except.bind] at h
  | ok a => exact ⟨a,rfl,h⟩

lemma checkedAdd_ok {a b c : ℕ} (h : checkedAdd a b = .ok c) : c = a + b ∧ a + b < 2 ^ 64 := by
  unfold checkedAdd at h
  split_ifs at h with hlt
  exact ⟨(Except.ok.inj h).symm,hlt⟩

lemma checkedSub_ok {a b c : ℕ} (h : checkedSub a b = .ok c) : c = a - b ∧ b ≤ a := by
  unfold checkedSub at h
  split_ifs at h with hle
  exact ⟨(Except.ok.inj h).symm,hle⟩

lemma assert_ok {p : Prop} [Decidable p] {m : String} (h : assert p m = .ok ()) : p := by
  unfold assert at h
  split_ifs at h with hp
  exact hp

end Lilith
