import Mathlib.Tactic
import Mathlib.Order.CompletePartialOrder

/-! Blocks of numbers of a power of two in length that start at a multiple of their length. Two blocks are
nested or disjoint. Two blocks that halve a larger one are buddies. A set of blocks tiles a set of
numbers when each of the numbers is in exactly one block. -/
namespace Lilith.Theory

/-- The block `index` among those of the length `2^order`. -/
@[ext] structure Block where
  order : ℕ
  index : ℕ
  deriving DecidableEq, Repr

namespace Block
variable {b c : Block} {n k : ℕ}

instance : Membership ℕ Block := ⟨fun b n => n / 2^b.order = b.index⟩

def start (b : Block) : ℕ := 2^b.order * b.index

lemma mem_def : n ∈ b ↔ n / 2^b.order = b.index := Iff.rfl

lemma mem_iff : n ∈ b ↔ b.start ≤ n ∧ n < b.start + 2^b.order := by
  have hpos : 0 < 2^b.order := Nat.two_pow_pos b.order
  rw [mem_def, start, Nat.div_eq_iff hpos]
  have := Nat.mul_comm b.index (2^b.order)
  omega

lemma start_mem (b : Block) : b.start ∈ b := by
  rw [mem_iff]
  have := Nat.two_pow_pos b.order
  omega

lemma ext_start (ho : b.order = c.order) (hs : b.start = c.start) : b = c := by
  refine Block.ext ho ?_
  unfold start at hs
  rw [ho] at hs
  exact Nat.eq_of_mul_eq_mul_left (Nat.two_pow_pos c.order) hs

/-- A block that shares a number with a larger one is inside of it. -/
lemma nested (hb : n ∈ b) (hc : n ∈ c) (ho : b.order ≤ c.order) {m : ℕ} (hm : m ∈ b) : m ∈ c := by
  rw [mem_def] at *
  obtain ⟨d,hd⟩ := Nat.exists_eq_add_of_le ho
  rw [hd, pow_add, ← Nat.div_div_eq_div_mul] at hc ⊢
  rw [hm, ← hb]
  exact hc

/-- A number of a block at which a block of the same or a larger size starts is its first one. -/
lemma start_of_mem (ho : c.order ≤ b.order) (h : b.start ∈ c) : c.start = b.start := by
  obtain ⟨d,hd⟩ := Nat.exists_eq_add_of_le ho
  have hs : b.start = 2^c.order * (2^d * b.index) := by
    rw [start, hd, pow_add, Nat.mul_assoc]
  rw [mem_def, hs, Nat.mul_div_cancel_left _ (Nat.two_pow_pos c.order)] at h
  rw [hs, h]
  rfl

/-- The block that two buddies make up. -/
def parent (b : Block) : Block := ⟨b.order + 1,b.index / 2⟩

def buddy (b : Block) : Block := ⟨b.order,if b.index % 2 = 0 then b.index + 1 else b.index - 1⟩

@[simp] theorem parent_order (b : Block) : b.parent.order = b.order + 1 := rfl
@[simp] theorem buddy_order (b : Block) : b.buddy.order = b.order := rfl

lemma buddy_ne (b : Block) : b.buddy ≠ b := by
  intro h
  have := congrArg index h
  simp only [buddy] at this
  split_ifs at this <;> omega

@[simp] theorem buddy_buddy (b : Block) : b.buddy.buddy = b := by
  refine Block.ext rfl ?_
  simp only [buddy]
  split_ifs <;> omega

lemma mem_parent : n ∈ b.parent ↔ n ∈ b ∨ n ∈ b.buddy := by
  simp only [mem_def, parent, buddy, pow_succ, ← Nat.div_div_eq_div_mul]
  split_ifs <;> omega

/-- The lower one of two buddies. -/
def lower (b : Block) : Block := ⟨b.order,b.index / 2 * 2⟩

/-- The upper one of two buddies. -/
def upper (b : Block) : Block := ⟨b.order,b.index / 2 * 2 + 1⟩

lemma lower_start (b : Block) : b.lower.start = b.parent.start := by
  simp only [start, lower, parent, pow_succ]
  ring

lemma upper_start (b : Block) : b.upper.start = b.parent.start + 2^b.order := by
  simp only [start, upper, parent, pow_succ]
  ring

/-- A block and its buddy are the lower and the upper one, in one order. -/
lemma lower_upper (b : Block) : b.lower = b ∧ b.upper = b.buddy ∨ b.lower = b.buddy ∧ b.upper = b := by
  simp only [lower, upper, buddy, Block.ext_iff, true_and]
  split_ifs <;> omega

/-- The two halves of a block. -/
def left (b : Block) : Block := ⟨b.order - 1,2 * b.index⟩

def right (b : Block) : Block := ⟨b.order - 1,2 * b.index + 1⟩

lemma left_start (h : 0 < b.order) : b.left.start = b.start := by
  obtain ⟨k,hk⟩ := Nat.exists_eq_add_one.mpr h
  simp only [start, left, hk, Nat.add_sub_cancel, pow_succ]
  ring

lemma right_start (h : 0 < b.order) : b.right.start = b.start + 2^(b.order - 1) := by
  obtain ⟨k,hk⟩ := Nat.exists_eq_add_one.mpr h
  simp only [start, right, hk, Nat.add_sub_cancel, pow_succ]
  ring

lemma left_ne_right (b : Block) : b.left ≠ b.right := by
  intro h
  have := congrArg index h
  simp only [left, right] at this
  omega

lemma left_buddy (b : Block) : b.left.buddy = b.right := by
  refine Block.ext rfl ?_
  simp [left, right, buddy]

lemma right_buddy (b : Block) : b.right.buddy = b.left := by rw [← left_buddy, buddy_buddy]

lemma mem_halves (h : 0 < b.order) : n ∈ b ↔ n ∈ b.left ∨ n ∈ b.right := by
  have h1 : b.left.parent = b := by
    refine Block.ext (Nat.sub_add_cancel h) ?_
    simp only [left, parent]
    omega
  rw [← left_buddy, ← mem_parent, h1]

/-- Two blocks of one order that share a number are the same. -/
lemma eq_of_mem (ho : b.order = c.order) (hb : n ∈ b) (hc : n ∈ c) : b = c := by
  refine Block.ext ho ?_
  rw [mem_def] at hb hc
  rw [← hb, ← hc, ho]

end Block

/-- Every number of `A` is in exactly one of the blocks, and no other number is in any. -/
structure Tiles (B : Set Block) (A : Set ℕ) : Prop where
  unique : ∀ b ∈ B, ∀ c ∈ B, ∀ n, n ∈ b → n ∈ c → b = c
  cover : ∀ n, n ∈ A ↔ ∃ b ∈ B, n ∈ b

namespace Tiles
variable {B B' : Set Block} {A : Set ℕ} {b c : Block}

lemma empty : Tiles ∅ ∅ := ⟨by simp,by simp⟩

/-- Replacing blocks by others with the same numbers. -/
lemma replace (h : Tiles B A) {old new : Set Block} (hold : old ⊆ B)
    (hsame : ∀ n, (∃ b ∈ old, n ∈ b) ↔ ∃ b ∈ new, n ∈ b) (hnew : ∀ b ∈ new, ∀ c ∈ new, ∀ n, n ∈ b → n ∈ c → b = c) :
    Tiles (B \ old ∪ new) A := by
  have hcross : ∀ b ∈ B \ old, ∀ c ∈ new, ∀ n, n ∈ b → n ∉ c := fun b hb c hc n hnb hnc => by
    obtain ⟨d,hd,hnd⟩ := (hsame n).mpr ⟨c,hc,hnc⟩
    exact hb.2 (h.unique b hb.1 d (hold hd) n hnb hnd ▸ hd)
  refine ⟨fun b hb c hc n hnb hnc => ?_,fun n => ?_⟩
  · rcases hb with hb | hb <;> rcases hc with hc | hc
    · exact h.unique b hb.1 c hc.1 n hnb hnc
    · exact absurd hnc (hcross b hb c hc n hnb)
    · exact absurd hnb (hcross c hc b hb n hnc)
    · exact hnew b hb c hc n hnb hnc
  · rw [h.cover n]
    constructor
    · intro ⟨b,hb,hn⟩
      by_cases ho : b ∈ old
      · obtain ⟨c,hc,hnc⟩ := (hsame n).mp ⟨b,ho,hn⟩
        exact ⟨c,Or.inr hc,hnc⟩
      · exact ⟨b,Or.inl ⟨hb,ho⟩,hn⟩
    · intro ⟨b,hb,hn⟩
      rcases hb with hb | hb
      · exact ⟨b,hb.1,hn⟩
      · obtain ⟨c,hc,hnc⟩ := (hsame n).mpr ⟨b,hb,hn⟩
        exact ⟨c,hold hc,hnc⟩

/-- Cutting a block into halves. -/
theorem split (h : Tiles B A) (hb : b ∈ B) (ho : 0 < b.order) : Tiles (B \ {b} ∪ {b.left,b.right}) A := by
  refine h.replace (Set.singleton_subset_iff.mpr hb) (fun n => ?_) fun c hc d hd n hnc hnd => ?_
  · simp [Block.mem_halves ho]
  · have hsame : c.order = d.order := by
      rcases hc with rfl | rfl <;> rcases hd with rfl | rfl <;> rfl
    exact Block.eq_of_mem hsame hnc hnd

/-- Putting two buddies together. -/
theorem merge (h : Tiles B A) (hb : b ∈ B) (hc : b.buddy ∈ B) : Tiles (B \ {b,b.buddy} ∪ {b.parent}) A := by
  refine h.replace (Set.insert_subset hb (Set.singleton_subset_iff.mpr hc)) (fun n => ?_) fun c hc d hd n _ _ => ?_
  · simp [Block.mem_parent]
  · rw [Set.mem_singleton_iff.mp hc, Set.mem_singleton_iff.mp hd]

/-- Adding a block of new numbers. -/
theorem add (h : Tiles B A) (hb : ∀ n ∈ b, n ∉ A) : Tiles (insert b B) (A ∪ {n | n ∈ b}) := by
  have hcross : ∀ c ∈ B, ∀ n, n ∈ b → n ∉ c := fun c hc n hnb hnc => hb n hnb ((h.cover n).mpr ⟨c,hc,hnc⟩)
  refine ⟨fun c hc d hd n hnc hnd => ?_,fun n => ?_⟩
  · rcases hc with rfl | hc <;> rcases hd with rfl | hd
    · rfl
    · exact absurd hnd (hcross d hd n hnc)
    · exact absurd hnc (hcross c hc n hnd)
    · exact h.unique c hc d hd n hnc hnd
  · simp only [Set.mem_union, Set.mem_ofPred_eq, h.cover n, Set.mem_insert_iff, exists_eq_or_imp]
    exact or_comm

/-- Two blocks are one before the other. -/
lemma apart (h : Tiles B A) (hb : b ∈ B) (hc : c ∈ B) (hne : b ≠ c) :
    b.start + 2^b.order ≤ c.start ∨ c.start + 2^c.order ≤ b.start := by
  have h1 : b.start ∉ c := fun hm => hne (h.unique b hb c hc _ b.start_mem hm)
  have h2 : c.start ∉ b := fun hm => hne (h.unique b hb c hc _ hm c.start_mem)
  rw [Block.mem_iff] at h1 h2
  omega

/-- Where the buddy of a block starts, a block starts that is not larger, or none is. -/
theorem buddy_start (h : Tiles B A) (hb : b ∈ B) (hc : c ∈ B) (hs : b.buddy.start ∈ c) :
    c.order ≤ b.order ∧ c.start = b.buddy.start := by
  have ho : c.order ≤ b.order := by
    by_contra hlt
    -- a larger block would hold the block itself as well
    have hp : b.buddy.start ∈ b.parent := Block.mem_parent.mpr (Or.inr b.buddy.start_mem)
    have hin : b.start ∈ c := Block.nested hp hs (not_le.mp hlt) (Block.mem_parent.mpr (Or.inl b.start_mem))
    rw [h.unique b hb c hc b.start b.start_mem hin] at hlt
    omega
  exact ⟨ho,Block.start_of_mem ho hs⟩

/-- A part of the blocks tiles what the others do not. -/
theorem of_union (h : Tiles (B ∪ B') A) (hd : Disjoint B B') : Tiles B {n | n ∈ A ∧ ∀ c ∈ B', n ∉ c} := by
  refine ⟨fun b hb c hc => h.unique b (Or.inl hb) c (Or.inl hc),fun n => ⟨?_,?_⟩⟩
  · rintro ⟨hn,hno⟩
    obtain ⟨b,hb | hb,hnb⟩ := (h.cover n).mp hn
    · exact ⟨b,hb,hnb⟩
    · exact absurd hnb (hno b hb)
  · rintro ⟨b,hb,hnb⟩
    refine ⟨(h.cover n).mpr ⟨b,Or.inl hb,hnb⟩,fun c hc hnc => ?_⟩
    obtain rfl := h.unique b (Or.inl hb) c (Or.inr hc) n hnb hnc
    exact Set.disjoint_left.mp hd hb hc

end Tiles

/-- No two of the blocks below the order `k` are buddies. -/
def Coalesced (k : ℕ) (B : Set Block) : Prop := ∀ b ∈ B, b.order < k → b.buddy ∉ B

namespace Coalesced
variable {k : ℕ} {B B' : Set Block} {A : Set ℕ} {b : Block}

lemma mono (h : Coalesced k B) (hs : B' ⊆ B) : Coalesced k B' := fun b hb ho hc => h b (hs hb) ho (hs hc)

/-- Adding a block whose buddy is not there. -/
lemma insert (h : Coalesced k B) (hb : b.order < k → b.buddy ∉ B) : Coalesced k (insert b B) := by
  rintro c hc ho (he | hcb)
  · rcases hc with rfl | hc
    · exact c.buddy_ne he
    · have hc' : c = b.buddy := by rw [← he, Block.buddy_buddy]
      exact hb (by rw [← he]; exact ho) (hc' ▸ hc)
  · rcases hc with rfl | hc
    · exact hb ho hcb
    · exact h c hc ho hcb

/-- A block of numbers that are all tiled is inside one tile. -/
theorem exists_tile (h : Coalesced k B) (ht : Tiles B A) {d : Block} (ho : d.order ≤ k) (hd : ∀ n ∈ d, n ∈ A) :
    ∃ b ∈ B, d.order ≤ b.order ∧ d.start ∈ b := by
  -- by induction on the order: both halves are inside tiles, and if these are the halves they are buddies
  induction hn : d.order generalizing d with
  | zero =>
    obtain ⟨b,hb,hm⟩ := (ht.cover d.start).mp (hd _ d.start_mem)
    exact ⟨b,hb,Nat.zero_le _,hm⟩
  | succ o ih =>
    have hpos : 0 < d.order := by omega
    have hlo : d.left.order = o := by simp [Block.left, hn]
    have hro : d.right.order = o := by simp [Block.right, hn]
    obtain ⟨b,hb,hbo,hbm⟩ := ih (d := d.left) (by omega) (fun n hn => hd n ((Block.mem_halves hpos).mpr (Or.inl hn))) hlo
    obtain ⟨c,hc,hco,hcm⟩ := ih (d := d.right) (by omega) (fun n hn => hd n ((Block.mem_halves hpos).mpr (Or.inr hn))) hro
    have hrd : d.right.start ∈ d := (Block.mem_halves hpos).mpr (Or.inr d.right.start_mem)
    by_cases hbig : o + 1 ≤ b.order
    · exact ⟨b,hb,hbig,by rw [← Block.left_start hpos]; exact hbm⟩
    · by_cases hcbig : o + 1 ≤ c.order
      · exact ⟨c,hc,hcbig,Block.nested hrd hcm (by omega) d.start_mem⟩
      · have hbl : b = d.left := Block.eq_of_mem (by omega) hbm d.left.start_mem
        have hcr : c = d.right := Block.eq_of_mem (by omega) hcm d.right.start_mem
        rw [hcr, ← Block.left_buddy, ← hbl] at hc
        exact absurd hc (h b hb (by omega))

/-- Numbers are tiled by blocks up to an order without mergeable buddies in one way only. -/
theorem unique (h : Coalesced k B) (h' : Coalesced k B') (ht : Tiles B A) (ht' : Tiles B' A)
    (ho : ∀ b ∈ B, b.order ≤ k) (ho' : ∀ b ∈ B', b.order ≤ k) : B = B' := by
  have hsub : ∀ {B B' : Set Block}, Coalesced k B → Coalesced k B' → Tiles B A → Tiles B' A →
      (∀ b ∈ B, b.order ≤ k) → (∀ b ∈ B', b.order ≤ k) → B ⊆ B' := by
    intro B B' h h' ht ht' ho ho' b hb
    obtain ⟨c,hc,hle,hm⟩ := h'.exists_tile ht' (ho b hb) fun n hn => (ht.cover n).mpr ⟨b,hb,hn⟩
    obtain ⟨d,hd,hle',hm'⟩ := h.exists_tile ht (ho' c hc) fun n hn => (ht'.cover n).mpr ⟨c,hc,hn⟩
    -- the tile around `c` is `b` again
    have hbd : b = d := ht.unique b hb d hd b.start b.start_mem (Block.nested c.start_mem hm' hle' hm)
    rw [← hbd] at hle'
    rw [Block.eq_of_mem (le_antisymm hle hle') b.start_mem hm]
    exact hc
  exact (hsub h h' ht ht' ho ho').antisymm (hsub h' h ht' ht ho' ho)

end Coalesced
end Lilith.Theory
