import Lilith.Fault

/-! The direct map of physical memory (`memory.rs`). -/
namespace Lilith

def PHYSICAL_MEMORY_OFFSET : ℕ := 0xFFFF800000000000
def PHYSICAL_MEMORY_MAX_SIZE : ℕ := 4 * 1024 * 1024 * 1024 * 1024

def physToVirt (phys : ℕ) : Except Fault ℕ := do
  assert (phys < PHYSICAL_MEMORY_MAX_SIZE) "assertion failed: phys.as_u64() < PHYSICAL_MEMORY_MAX_SIZE as u64"
  return PHYSICAL_MEMORY_OFFSET + phys

def virtToPhys (virt : ℕ) : Option ℕ :=
  if PHYSICAL_MEMORY_OFFSET ≤ virt ∧ virt < PHYSICAL_MEMORY_OFFSET + PHYSICAL_MEMORY_MAX_SIZE then
    some (virt - PHYSICAL_MEMORY_OFFSET)
  else none

/-- sentinel value used for zero-sized allocations -/
def ZST_SENTINEL : ℕ := PHYSICAL_MEMORY_OFFSET

variable {phys : ℕ}

lemma physToVirt_of_lt (h : phys < PHYSICAL_MEMORY_MAX_SIZE) : physToVirt phys = .ok (PHYSICAL_MEMORY_OFFSET + phys) := by
  simp only [physToVirt, assert_of h, bind, Except.bind]
  rfl

lemma physToVirt_ok {virt : ℕ} (h : physToVirt phys = .ok virt) :
    phys < PHYSICAL_MEMORY_MAX_SIZE ∧ virt = PHYSICAL_MEMORY_OFFSET + phys := by
  obtain ⟨_,h1,h2⟩ := bind_ok h
  exact ⟨assert_ok h1,(Except.ok.inj h2).symm⟩

/-- The two maps are inverse to each other. -/
lemma virtToPhys_add (h : phys < PHYSICAL_MEMORY_MAX_SIZE) : virtToPhys (PHYSICAL_MEMORY_OFFSET + phys) = some phys := by
  rw [virtToPhys, if_pos ⟨Nat.le_add_right _ _,Nat.add_lt_add_left h _⟩, Nat.add_sub_cancel_left]

end Lilith
