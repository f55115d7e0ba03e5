import Lilith.Slub.Model
import Mathlib.Data.Nat.Log

/-! The allocator of the direct map (`memory.rs`): small objects are in slabs, and larger ones are blocks of the buddy
allocator. A free finds out which by the type of the frame. -/
namespace Lilith.Direct
open Buddy (BuddyAllocator FRAME_SIZE FRAME_SHIFT BUDDY_MAX MAX_ORDER)
open Slub (Heap SLUB_MAX clog2 leadingZeros)
open Boot (Layout)

def FRAME_LAYOUT : Layout := ⟨FRAME_SIZE,FRAME_SIZE⟩

def effectiveSize (layout : Layout) : ℕ := max layout.size layout.align

def directAlloc (self : Heap) (layout : Layout) : Except Fault (Except MemoryError ℕ × Heap) := do
  if layout.size = 0 then return (.ok ZST_SENTINEL,self)
  else if effectiveSize layout ≤ SLUB_MAX then self.alloc layout
  else if effectiveSize layout ≤ BUDDY_MAX then do
    -- the subtraction is `saturating_sub`
    let order := (← clog2 (effectiveSize layout)) - FRAME_SHIFT
    match ← self.buddy.alloc order with
    | (.error e,buddy) => return (.error e,{ self with buddy := buddy })
    | (.ok phys,buddy) => return (.ok (← physToVirt phys),{ self with buddy := buddy })
  else return (.error .sizeTooBig,self)

/-- `alloc_frame`, with the physical address of the frame -/
def allocFrame (self : Heap) : Except Fault (Except MemoryError ℕ × Heap) := do
  let (res,buddy) ← self.buddy.alloc 0
  return (res,{ self with buddy := buddy })

def directFree (self : Heap) (addr : ℕ) : Except Fault Heap := do
  if addr = ZST_SENTINEL then return self
  else
    match virtToPhys addr with
    | none => .error (.panic "non-direct mapped address passed to direct_free")
    | some phys => do
      let fi := phys / FRAME_SIZE
      match (← self.buddy.frameInfo fi).ty with
      | .buddyAllocated => do
        let order := (← self.buddy.read (.frame fi)).order
        return { self with buddy := ← self.buddy.free phys order }
      | .slab => self.free addr
      | _ => .error (.panic "invalid address passed to direct_free")

/-- The layouts of objects: the alignment of a layout is a power of two. -/
structure Proper (layout : Layout) : Prop where
  size : layout.size ≠ 0
  align : ∃ k, layout.align = 2^k

/-- The order of the block for an object that is too large for a slab. -/
def blockOrder (layout : Layout) : ℕ := Nat.clog 2 (effectiveSize layout) - FRAME_SHIFT

variable {self : Heap} {layout : Layout} {n : ℕ}

lemma clog2_eq (h : 1 ≤ n) (hlt : n ≤ 2^64) : clog2 n = .ok (Nat.clog 2 n) := by
  have hclog : 64 - leadingZeros (n-1) = Nat.clog 2 n := by
    unfold leadingZeros
    split_ifs with h1
    · obtain rfl : n = 1 := by omega
      simp
    · have hlog : Nat.log2 (n-1) < 64 := (Nat.log2_lt h1).mpr (by omega)
      have hle : Nat.clog 2 n ≤ Nat.log2 (n-1) + 1 := by
        rw [Nat.clog_le_iff_le_pow (by decide)]
        have := Nat.lt_log2_self (n := n-1)
        omega
      have hlt' : Nat.log2 (n-1) < Nat.clog 2 n := by
        rw [Nat.lt_clog_iff_pow_lt (by decide)]
        have := Nat.log2_self_le h1
        omega
      omega
  simp only [clog2, checkedSub_of_le h, bind, Except.bind]
  rw [hclog]
  rfl

section BlockOrder

lemma blockOrder_le (h : effectiveSize layout ≤ BUDDY_MAX) : blockOrder layout ≤ MAX_ORDER := by
  have : Nat.clog 2 (effectiveSize layout) ≤ 22 := (Nat.clog_le_iff_le_pow (by decide)).mpr h
  unfold blockOrder FRAME_SHIFT MAX_ORDER
  omega

lemma clog_le_blockOrder : Nat.clog 2 (effectiveSize layout) ≤ blockOrder layout + 12 := by
  unfold blockOrder FRAME_SHIFT
  omega

lemma block_size (o : ℕ) : 2^o * FRAME_SIZE = 2^(o + 12) := by rw [pow_add]; rfl

/-- The object fits into its block. -/
lemma effectiveSize_le : effectiveSize layout ≤ 2^blockOrder layout * FRAME_SIZE := by
  rw [block_size]
  exact (Nat.le_pow_clog (by decide) _).trans (Nat.pow_le_pow_right (by decide) clog_le_blockOrder)

/-- The alignment of the object is that of its block. -/
lemma align_dvd (h : Proper layout) : layout.align ∣ 2^blockOrder layout * FRAME_SIZE := by
  obtain ⟨k,hk⟩ := h.align
  have hle : 2^k ≤ 2^(blockOrder layout + 12) := by
    rw [← block_size, ← hk]
    exact (le_max_right _ _).trans effectiveSize_le
  rw [block_size, hk]
  exact pow_dvd_pow 2 ((Nat.pow_le_pow_iff_right (by decide)).mp hle)

lemma align_dvd_offset (h : Proper layout) (hle : effectiveSize layout ≤ BUDDY_MAX) : layout.align ∣ PHYSICAL_MEMORY_OFFSET := by
  obtain ⟨k,hk⟩ := h.align
  have hk22 : 2^k ≤ 2^22 := hk ▸ (le_max_right _ _).trans hle
  have hoff : 2^22 ∣ PHYSICAL_MEMORY_OFFSET := by decide
  rw [hk]
  exact (pow_dvd_pow 2 ((Nat.pow_le_pow_iff_right (by decide)).mp hk22)).trans hoff

/-- The order of an object that fills a block. -/
lemma blockOrder_of_block (o : ℕ) : blockOrder ⟨2^o * FRAME_SIZE,FRAME_SIZE⟩ = o := by
  have hmax : effectiveSize ⟨2^o * FRAME_SIZE,FRAME_SIZE⟩ = 2^(o + 12) := by
    unfold effectiveSize
    rw [max_eq_left (Nat.le_mul_of_pos_left _ (Nat.two_pow_pos o)), block_size]
  rw [blockOrder, hmax, Nat.clog_pow 2 _ (by decide)]
  exact Nat.add_sub_cancel o 12

end BlockOrder

section Tiers

lemma directAlloc_small (h : layout.size ≠ 0) (hle : effectiveSize layout ≤ SLUB_MAX) : directAlloc self layout = self.alloc layout := by
  rw [directAlloc, if_neg h, if_pos hle]

lemma directAlloc_large (h : layout.size ≠ 0) (hlt : SLUB_MAX < effectiveSize layout) (hle : effectiveSize layout ≤ BUDDY_MAX) :
    directAlloc self layout = (do
      match ← self.buddy.alloc (blockOrder layout) with
      | (.error e,buddy) => return (.error e,{ self with buddy := buddy })
      | (.ok phys,buddy) => return (.ok (← physToVirt phys),{ self with buddy := buddy })) := by
  have hmax : BUDDY_MAX ≤ 2^64 := by decide
  have hclog := clog2_eq (Nat.one_le_of_lt hlt) (hle.trans hmax)
  rw [directAlloc, if_neg h, if_neg (Nat.not_le.mpr hlt), if_pos hle, hclog]
  rfl

lemma directAlloc_big (h : layout.size ≠ 0) (hlt : BUDDY_MAX < effectiveSize layout) :
    directAlloc self layout = .ok (.error .sizeTooBig,self) := by
  have hmax : SLUB_MAX ≤ BUDDY_MAX := by decide
  rw [directAlloc, if_neg h, if_neg (Nat.not_le.mpr (hmax.trans_lt hlt)), if_neg (Nat.not_le.mpr hlt)]
  rfl

end Tiers
end Lilith.Direct
