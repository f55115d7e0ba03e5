import Lilith.Slub.Model
import Mathlib.Data.List.Nodup

/-! The size classes, and the slots for objects that a frame is divided into. -/
namespace Lilith.Slub
open Buddy (FRAME_SIZE)
open Boot (Layout)

/-- The size of the objects of a cache. -/
def classSize (c : ℕ) : ℕ := SIZE_CLASSES.getD c 0

/-- The number of objects of a slab. -/
def slotCount (c : ℕ) : ℕ := FRAME_SIZE / classSize c

/-- The addresses of the objects of a slab. -/
def slots (n c : ℕ) : List ℕ := (List.range (slotCount c)).map fun i => PHYSICAL_MEMORY_OFFSET + n * FRAME_SIZE + classSize c * i

/-- The frame of an address in the direct map. -/
def frameAt (a : ℕ) : ℕ := (a - PHYSICAL_MEMORY_OFFSET) / FRAME_SIZE

/-- The layouts that `SlubAllocator::alloc` takes: the alignment of a layout is a power of two. -/
structure Small (layout : Layout) : Prop where
  size : 1 ≤ layout.size ∧ layout.size ≤ SLUB_MAX
  align : ∃ k, layout.align = 2^k ∧ 2^k ≤ SLUB_MAX

variable {c c' n a b : ℕ} {layout : Layout}

lemma Small.align_dvd (h : Small layout) : layout.align ∣ FRAME_SIZE := by
  obtain ⟨k,hk,hle⟩ := h.align
  have hk10 : k ≤ 10 := (Nat.pow_le_pow_iff_right (by decide : 1 < 2)).mp hle
  rw [hk]
  exact pow_dvd_pow 2 (show k ≤ 12 by omega)

lemma classSize_bounds (hc : c < NUM_SIZE_CLASSES) : 8 ≤ classSize c ∧ classSize c ≤ 1024 := by
  unfold NUM_SIZE_CLASSES at hc
  interval_cases c <;> decide

lemma slotCount_bounds (hc : c < NUM_SIZE_CLASSES) : 4 ≤ slotCount c ∧ slotCount c ≤ 512 := by
  unfold NUM_SIZE_CLASSES at hc
  interval_cases c <;> decide

lemma getElem?_sizeClasses (hc : c < NUM_SIZE_CLASSES) : SIZE_CLASSES[c]? = some (classSize c) := by
  unfold NUM_SIZE_CLASSES at hc
  interval_cases c <;> rfl

/-- The lowest bit of a size class divides it, and so does each smaller power of two. -/
lemma dvd_classSize (hc : c < NUM_SIZE_CLASSES) {k : ℕ} (h : 2^k ≤ isolateLowestOne (classSize c)) : 2^k ∣ classSize c := by
  have hbit : ∃ j, isolateLowestOne (classSize c) = 2^j ∧ 2^j ∣ classSize c := by
    unfold NUM_SIZE_CLASSES at hc
    interval_cases c
    · exact ⟨3,by decide⟩
    · exact ⟨4,by decide⟩
    · exact ⟨3,by decide⟩
    · exact ⟨5,by decide⟩
    · exact ⟨4,by decide⟩
    · exact ⟨6,by decide⟩
    · exact ⟨5,by decide⟩
    · exact ⟨7,by decide⟩
    · exact ⟨8,by decide⟩
    · exact ⟨9,by decide⟩
    · exact ⟨10,by decide⟩
  obtain ⟨j,hj,hdvd⟩ := hbit
  rw [hj] at h
  have hkj : k ≤ j := (Nat.pow_le_pow_iff_right (by decide)).mp h
  exact (pow_dvd_pow 2 hkj).trans hdvd

section FindClass

/-- The loop ends at a class that is large enough, if there is one. -/
lemma findClassLoop_ok {size align : ℕ} {cs : List ℕ} (index : ℕ)
    (h : ∃ s ∈ cs, size ≤ s ∧ align ≤ isolateLowestOne s) : ∃ i s, findClassLoop size align cs index = .ok (index+i,s) ∧
      cs[i]? = some s ∧ size ≤ s ∧ align ≤ isolateLowestOne s := by
  induction cs generalizing index with
  | nil => simp at h
  | cons s cs ih =>
    by_cases hs : size ≤ s ∧ align ≤ isolateLowestOne s
    · exact ⟨0,s,if_pos hs,rfl,hs⟩
    · obtain ⟨i,t,h1,h2,h3⟩ := ih (index+1) (by simpa [hs] using h)
      refine ⟨i+1,t,?_,by simpa using h2,h3⟩
      rw [findClassLoop, if_neg hs, h1]
      congr 2
      omega

/-- The table that `init_size_lookup` makes. -/
def lookupTable : List ℕ := [0,0,0,0,1,2,4,6,8,9,10]

lemma initSizeLookup_eq : initSizeLookup = .ok lookupTable := by decide

lemma clog2_le {size : ℕ} (h : 1 ≤ size) (hle : size ≤ SLUB_MAX) : ∃ k ≤ 10, clog2 size = .ok k := by
  refine ⟨64 - leadingZeros (size - 1),?_,?_⟩
  · unfold leadingZeros
    split_ifs with h0
    · decide
    · have hlog : Nat.log2 (size - 1) < 10 := by
        rw [Nat.log2_lt h0]
        unfold SLUB_MAX at hle
        omega
      omega
  · simp only [clog2, checkedSub_of_le h, bind, Except.bind]
    rfl

lemma lookupTable_le {k : ℕ} (h : k ≤ 10) : ∃ i ≤ 10, lookupTable[k]? = some i := by
  interval_cases k
  all_goals exact ⟨_,by decide,rfl⟩

/-- `find_class` finds a class for objects of the layout. -/
theorem findClass_ok {self : Heap} (hlookup : self.sizeLookup = lookupTable) (h : Small layout) :
    ∃ c < NUM_SIZE_CLASSES, self.findClass layout = .ok (c,classSize c) ∧ layout.size ≤ classSize c ∧
      layout.align ∣ classSize c := by
  obtain ⟨⟨h1,h2⟩,k,hk,hk'⟩ := h
  obtain ⟨j,hj,hclog⟩ := clog2_le h1 h2
  obtain ⟨i,hi,htable⟩ := lookupTable_le hj
  have hlast : ∃ s ∈ SIZE_CLASSES.drop i, layout.size ≤ s ∧ layout.align ≤ isolateLowestOne s := by
    refine ⟨1024,?_,h2,?_⟩
    · interval_cases i <;> decide
    · rw [hk]
      exact hk'.trans (by decide)
  obtain ⟨d,s,hloop,hget,hsize,halign⟩ := findClassLoop_ok i hlast
  rw [List.getElem?_drop] at hget
  have hlt : i + d < NUM_SIZE_CLASSES := (List.getElem?_eq_some_iff.mp hget).1
  rw [getElem?_sizeClasses hlt] at hget
  obtain rfl := Option.some.inj hget
  refine ⟨i+d,hlt,?_,hsize,?_⟩
  · have hassert : layout.size ≤ SLUB_MAX ∧ layout.align ≤ SLUB_MAX := ⟨h2,hk ▸ hk'⟩
    simp only [Heap.findClass, assert_of hassert, hclog, hlookup, htable, hloop, bind, Except.bind]
  · rw [hk] at halign ⊢
    exact dvd_classSize hlt halign

end FindClass

section Slots

lemma length_slots : (slots n c).length = slotCount c := by simp [slots]

lemma mem_slots : a ∈ slots n c ↔ ∃ i < slotCount c, a = PHYSICAL_MEMORY_OFFSET + n * FRAME_SIZE + classSize c * i := by
  simp only [slots, List.mem_map, List.mem_range]
  constructor
  · intro ⟨i,hi,ha⟩
    exact ⟨i,hi,ha.symm⟩
  · intro ⟨i,hi,ha⟩
    exact ⟨i,hi,ha.symm⟩

lemma nodup_slots (hc : c < NUM_SIZE_CLASSES) : (slots n c).Nodup := by
  have hpos := (classSize_bounds hc).1
  refine List.Nodup.map (fun i j hij => ?_) List.nodup_range
  exact Nat.eq_of_mul_eq_mul_left (by omega) (Nat.add_left_cancel hij)

/-- A slot is inside its frame. -/
lemma slot_bounds (h : a ∈ slots n c) :
    PHYSICAL_MEMORY_OFFSET + n * FRAME_SIZE ≤ a ∧ a + classSize c ≤ PHYSICAL_MEMORY_OFFSET + (n + 1) * FRAME_SIZE := by
  obtain ⟨i,hi,rfl⟩ := mem_slots.mp h
  have hle : classSize c * (i + 1) ≤ FRAME_SIZE :=
    (Nat.mul_le_mul_left _ hi).trans (Nat.mul_div_le FRAME_SIZE (classSize c))
  constructor
  · exact Nat.le_add_right _ _
  · rw [Nat.add_mul, Nat.one_mul]
    rw [Nat.mul_add, Nat.mul_one] at hle
    omega

lemma frameAt_slot (hc : c < NUM_SIZE_CLASSES) (h : a ∈ slots n c) : frameAt a = n := by
  have hpos := (classSize_bounds hc).1
  obtain ⟨h1,h2⟩ := slot_bounds h
  unfold frameAt
  unfold FRAME_SIZE at *
  omega

lemma virtToPhys_slot (hc : c < NUM_SIZE_CLASSES) (hn : n * FRAME_SIZE < PHYSICAL_MEMORY_MAX_SIZE) (h : a ∈ slots n c) :
    virtToPhys a = some (a - PHYSICAL_MEMORY_OFFSET) := by
  obtain ⟨hlo,hhi⟩ := slot_bounds h
  have hpos := (classSize_bounds hc).1
  refine if_pos ⟨(Nat.le_add_right _ _).trans hlo,?_⟩
  unfold PHYSICAL_MEMORY_MAX_SIZE FRAME_SIZE at *
  omega

/-- Two slots of a frame do not overlap. -/
lemma slot_apart (ha : a ∈ slots n c) (hb : b ∈ slots n c) (hne : a ≠ b) : a + classSize c ≤ b ∨ b + classSize c ≤ a := by
  obtain ⟨i,_,rfl⟩ := mem_slots.mp ha
  obtain ⟨j,_,rfl⟩ := mem_slots.mp hb
  rcases Nat.lt_trichotomy i j with hij | rfl | hij
  · left
    have := Nat.mul_le_mul_left (classSize c) hij
    rw [Nat.succ_eq_add_one, Nat.mul_add, Nat.mul_one] at this
    omega
  · exact absurd rfl hne
  · right
    have := Nat.mul_le_mul_left (classSize c) hij
    rw [Nat.succ_eq_add_one, Nat.mul_add, Nat.mul_one] at this
    omega

lemma slot_pos (h : a ∈ slots n c) : a ≠ 0 := by
  have := (slot_bounds h).1
  have hoff : 0 < PHYSICAL_MEMORY_OFFSET := by decide
  omega

/-- A slot has the alignment of its class. -/
lemma dvd_slot {k : ℕ} (hk : k ∣ classSize c) (hframe : k ∣ FRAME_SIZE) (h : a ∈ slots n c) : k ∣ a := by
  obtain ⟨i,_,rfl⟩ := mem_slots.mp h
  have hoff : FRAME_SIZE ∣ PHYSICAL_MEMORY_OFFSET := by decide
  exact ((hframe.trans hoff).add (hframe.mul_left n)).add (hk.mul_right i)

end Slots
end Lilith.Slub
