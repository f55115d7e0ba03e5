import Lilith.Buddy.Alloc

/-! Adding a range of frames: it is cut into the largest aligned blocks that fit, from its start on. -/
namespace Lilith.Buddy
open Theory BuddyAllocator

variable {st st' : BuddyAllocator} {F : ℕ → List ℕ} {L H : Set Block} {A R : Set ℕ} {b c : Block} {n e k o : ℕ}

lemma trailingZeros_spec {m i : ℕ} (hi : i < 64) (h : m.testBit i = true) :
    trailingZeros m ≤ i ∧ m.testBit (trailingZeros m) = true ∧ ∀ j < trailingZeros m, m.testBit j = false := by
  have hsome : ((List.range 64).find? m.testBit).isSome := by
    rw [List.find?_isSome]
    exact ⟨i,List.mem_range.mpr hi,h⟩
  obtain ⟨t,ht⟩ := Option.isSome_iff_exists.mp hsome
  have hlt : ∀ j < t, m.testBit j = false := fun j hj => by
    have := (List.find?_range_eq_some.mp ht).2.2 j hj
    simpa using this
  rw [trailingZeros, ht, Option.getD_some]
  refine ⟨?_,(List.find?_range_eq_some.mp ht).1,hlt⟩
  by_contra hgt
  rw [hlt i (not_le.mp hgt)] at h
  simp at h

lemma two_pow_dvd_of_testBit (h : ∀ j < k, n.testBit j = false) : 2^k ∣ n := by
  apply Nat.dvd_of_mod_eq_zero
  apply Nat.eq_of_testBit_eq
  intro j
  rw [Nat.testBit_mod_two_pow, Nat.zero_testBit]
  by_cases hj : j < k
  · rw [h j hj, Bool.and_false]
  · simp [hj]

lemma testBit_of_two_pow_dvd (h : 2^k ∣ n) {j : ℕ} (hj : j < k) : n.testBit j = false := by
  obtain ⟨m,rfl⟩ := h
  rw [Nat.testBit_two_pow_mul]
  simp [Nat.not_le.mpr hj]

/-- The order of the first block of a range: the block is aligned and inside the range, and it is the largest
such. -/
lemma rangeOrder_spec (h : n < e) : rangeOrder (n * FRAME_SIZE) (e * FRAME_SIZE) ≤ MAX_ORDER ∧
    2^rangeOrder (n * FRAME_SIZE) (e * FRAME_SIZE) ∣ n ∧ n + 2^rangeOrder (n * FRAME_SIZE) (e * FRAME_SIZE) ≤ e ∧
    ∀ k ≤ MAX_ORDER, 2^k ∣ n → n + 2^k ≤ e → k ≤ rangeOrder (n * FRAME_SIZE) (e * FRAME_SIZE) := by
  have hshift : (n * FRAME_SIZE) >>> FRAME_SHIFT = n := by
    rw [Nat.shiftRight_eq_div_pow]
    exact Nat.mul_div_cancel _ (by decide)
  have hsub : e * FRAME_SIZE - n * FRAME_SIZE = (e - n) * 2^12 := (Nat.sub_mul _ _ _).symm
  have hpos : (e - n) * 2^12 ≠ 0 := by
    have : 0 < e - n := by omega
    positivity
  have hbit : (n ||| 1 <<< MAX_ORDER).testBit MAX_ORDER = true := by
    rw [Nat.testBit_or, show (1 <<< MAX_ORDER).testBit MAX_ORDER = true by decide, Bool.or_true]
  obtain ⟨htz,hset,hlow⟩ := trailingZeros_spec (by decide) hbit
  rw [rangeOrder, hshift, hsub, FRAME_SHIFT]
  set t := trailingZeros (n ||| 1 <<< MAX_ORDER) with ht
  set l := Nat.log2 ((e - n) * 2^12) - 12 with hl
  refine ⟨(min_le_left _ _).trans htz,?_,?_,fun k hk hdvd hle => le_min ?_ ?_⟩
  · refine (pow_dvd_pow 2 (min_le_left t l)).trans (two_pow_dvd_of_testBit fun j hj => ?_)
    have := hlow j hj
    rw [Nat.testBit_or, Bool.or_eq_false_iff] at this
    exact this.1
  · have h12 : 12 ≤ Nat.log2 ((e - n) * 2^12) := (Nat.le_log2 hpos).mpr (Nat.le_mul_of_pos_left _ (by omega))
    have hself := Nat.log2_self_le hpos
    have hpow : 2^min t l * 2^12 ≤ (e - n) * 2^12 := by
      rw [← pow_add]
      refine (Nat.pow_le_pow_right (by omega) ?_).trans hself
      have := min_le_right t l
      omega
    have := Nat.le_of_mul_le_mul_right hpow (by omega)
    omega
  · by_contra hlt
    have hlt : t < k := not_le.mp hlt
    have hne : (1 <<< MAX_ORDER).testBit t = false := by
      rw [Nat.one_shiftLeft, Nat.testBit_two_pow_of_ne (by omega)]
    rw [Nat.testBit_or, testBit_of_two_pow_dvd hdvd hlt, hne] at hset
    simp at hset
  · have hpow : 2^(k+12) ≤ (e - n) * 2^12 := by
      rw [pow_add]
      exact Nat.mul_le_mul_right _ (by omega)
    have := (Nat.le_log2 hpos).mpr hpow
    omega

/-- The frames from `n` on, up to but without `e`. -/
def frameRange (n e : ℕ) : Set ℕ := { m | n ≤ m ∧ m < e }

lemma mem_frameRange {m : ℕ} : m ∈ frameRange n e ↔ n ≤ m ∧ m < e := Iff.rfl

lemma frameRange_empty (h : e ≤ n) : frameRange n e = ∅ := by
  ext m
  rw [mem_frameRange, Set.mem_empty_iff_false, iff_false]
  omega

/-- Marking the frames of a range. -/
lemma setTails_ok (count : ℕ) (h : ∀ m ∈ frameRange n (n + count), (st.ty m).isSome) :
    ∃ st', st.setTails n count = .ok st' ∧ st'.next = st.next ∧ st'.prev = st.prev ∧ st'.order = st.order ∧
      (∀ m, st'.ty m = if n ≤ m ∧ m < n + count then some .buddyTail else st.ty m) ∧
      ∀ m ∉ frameRange n (n + count), st'.frames m = st.frames m := by
  induction count generalizing st n with
  | zero =>
    refine ⟨st,rfl,rfl,rfl,rfl,fun m => ?_,fun _ _ => rfl⟩
    rw [if_neg (by omega)]
  | succ count ih =>
    obtain ⟨st1,r1,hn1,hp1,ho1,ht1,_,hf1⟩ := setTy_ok (h n ⟨le_rfl,by omega⟩) .buddyTail
    have hmapped : ∀ m ∈ frameRange (n+1) (n + 1 + count), (st1.ty m).isSome := fun m hm => by
      rw [ht1, isSome_update (h n ⟨le_rfl,by omega⟩)]
      exact h m ⟨by have := hm.1; omega,by have := hm.2; omega⟩
    obtain ⟨st2,r2,hn2,hp2,ho2,ht2,hf2⟩ := ih hmapped
    refine ⟨st2,?_,hn2.trans hn1,hp2.trans hp1,ho2.trans ho1,fun m => ?_,fun m hm => ?_⟩
    · simp only [BuddyAllocator.setTails, r1, bind, Except.bind]
      exact r2
    · rw [ht2, ht1, Function.update_apply]
      split_ifs with h1 h2 h3 h4
      all_goals first | rfl | omega
    · rw [mem_frameRange] at hm
      rw [hf2 m (by rw [mem_frameRange]; omega), hf1 m (by omega)]

namespace Inv

/-- One round of the loop of `buddy_add_range`, which adds the block `b`. -/
lemma addBlock (h : Inv st F L ∅ A (frameRange b.start e)) (hb : b.order ≤ MAX_ORDER) (hle : b.start + 2^b.order ≤ e)
    (hmapped : ∀ m ∈ frameRange b.start e, (st.ty m).isSome) (hnew : ∀ m ∈ frameRange b.start e, m ∉ A) :
    ∃ st1 st2 st', st.insert (.head b.order) (.frame b.start) = .ok st1 ∧ st1.setTy b.start .buddy = .ok st2 ∧
      st2.setTails (b.start + 1) (e - (b.start + 1)) = .ok st' ∧
      Inv st' (Function.update F b.order (F b.order ++ [b.index])) L ∅ (A ∪ { m | m ∈ b })
        (frameRange (b.start + 2^b.order) e) ∧ KeepsLive st st' L := by
  have hpos := Nat.two_pow_pos b.order
  have hbr : ∀ m ∈ b, m ∈ frameRange b.start e := fun m hm => by
    rw [Block.mem_iff] at hm
    rw [mem_frameRange]
    omega
  have hblock : ∀ c ∈ Free F ∪ L ∪ ∅, ∀ m ∈ c, m ∉ frameRange b.start e := fun c hc m hm hr =>
    hnew m hr (h.mem_added hc hm)
  have hstart : ∀ c ∈ Free F ∪ L ∪ ∅, c.start ≠ b.start := fun c hc he =>
    hblock c hc c.start c.start_mem (he ▸ hbr _ b.start_mem)
  have hbF : b ∉ Free F := fun hf => hstart b (Or.inl (Or.inl hf)) rfl
  have hbL : b ∉ L := fun hl => hstart b (Or.inl (Or.inr hl)) rfl
  have hsome := hmapped _ (hbr _ b.start_mem)
  obtain ⟨st1,r1,hl1,hty1,hun1⟩ := h.lists.insert hb hsome fun c hc => hstart c (Or.inl (Or.inl hc))
  obtain ⟨st2,r2,hn2,hp2,ho2,ht2,_,hf2⟩ := setTy_ok (hty1 ▸ hsome) .buddy
  rw [hty1] at ht2
  have hend : b.start + 1 + (e - (b.start + 1)) = e := by omega
  have hmapped2 : ∀ m ∈ frameRange (b.start + 1) (b.start + 1 + (e - (b.start + 1))), (st2.ty m).isSome := fun m hm => by
    rw [hend, mem_frameRange] at hm
    rw [ht2, isSome_update hsome]
    exact hmapped m ⟨by omega,hm.2⟩
  obtain ⟨st3,r3,hn3,hp3,ho3,ht3,hf3⟩ := setTails_ok _ hmapped2
  rw [hend] at ht3 hf3
  have hty : ∀ m, st3.ty m = if m = b.start then some .buddy else if b.start < m ∧ m < e then some .buddyTail
      else st.ty m := fun m => by
    rw [ht3, ht2, Function.update_apply]
    split_ifs
    all_goals first | rfl | omega
  have hold : ∀ m, m ∉ frameRange b.start e → st3.ty m = st.ty m := fun m hm => by
    rw [mem_frameRange] at hm
    rw [hty, if_neg (by omega), if_neg (by omega)]
  have hfree : Free (Function.update F b.order (F b.order ++ [b.index])) = insert b (Free F) := free_insert hb
  have hsame : insert b (Free F) ∪ L ∪ ∅ = insert b (Free F ∪ L ∪ ∅) := by
    ext c
    simp only [Set.mem_union, Set.mem_insert_iff, Set.mem_empty_iff_false]
    tauto
  have hkeep : KeepsLive st st3 L := by
    refine ⟨fun c hc => ?_,fun m => ?_⟩
    · have hcr := hblock c (Or.inl (Or.inr hc)) c.start c.start_mem
      have hcs := hstart c (Or.inl (Or.inr hc))
      rw [mem_frameRange] at hcr
      rw [hf3 _ (by rw [mem_frameRange]; omega), hf2 _ hcs, hun1 _ (by simpa using hcs) fun d hd he => ?_]
      exact (h.free_apart hd).1 (h.start_inj (Or.inl (Or.inl hd)) (Or.inl (Or.inr hc)) he ▸ hc)
    · by_cases hm : m ∈ frameRange b.start e
      · rw [hmapped m hm, hty]
        rw [mem_frameRange] at hm
        split_ifs
        · rfl
        · rfl
        · omega
      · rw [hold m hm]
  refine ⟨st1,st2,st3,r1,r2,r3,⟨(hl1.congr hn2 hp2 ho2).congr hn3 hp3 ho3,?_,?_,fun c hc => ?_,fun c hc => ?_,fun c hc => ?_,
    fun c hc => absurd hc (Set.notMem_empty c),fun c hc m hm hne => ?_,fun m hm hR t ht => ?_⟩,hkeep⟩
  · rw [hfree, hsame]
    exact h.tiles.add fun m hm => hnew m (hbr m hm)
  · rw [hfree]
    refine ⟨Set.disjoint_left.mpr fun c hc hc' => ?_,Set.disjoint_empty L⟩
    rw [Set.union_empty] at hc'
    rcases hc with rfl | hc
    · exact hbL hc'
    · exact (h.free_apart hc).1 hc'
  · exact h.small c hc
  · rw [hfree] at hc
    rcases hc with rfl | hc
    · rw [hty, if_pos rfl]
    · rw [hold _ (hblock c (Or.inl (Or.inl hc)) _ c.start_mem)]
      exact h.free c hc
  · have hord : st3.order (.frame c.start) = st.order (.frame c.start) := by
      simp only [BuddyAllocator.order, BuddyAllocator.node, hkeep.frames c hc]
    rw [hold _ (hblock c (Or.inl (Or.inr hc)) _ c.start_mem), hord]
    exact h.live c hc
  · rw [hfree, hsame] at hc
    rcases hc with rfl | hc
    · have hr := hbr m hm
      rw [mem_frameRange] at hr
      rw [hty, if_neg hne, if_pos (by omega)]
    · rw [hold m (hblock c hc m hm)]
      exact h.tail c hc m hm hne
  · have hmr : m ∉ frameRange b.start e := fun hr => by
      rw [mem_frameRange] at hr hR
      exact hm (Or.inr (Block.mem_iff.mpr (by omega)))
    refine h.outside m (fun hA => hm (Or.inl hA)) hmr t ?_
    rw [hold m hmr] at ht
    exact ht

/-- A round of the loop of `buddy_add_range` at frame `n`. -/
lemma addRangeLoop_step (fuel : ℕ) (h : Inv st F L ∅ A (frameRange n e)) (hlt : n < e)
    (hmapped : ∀ m ∈ frameRange n e, (st.ty m).isSome) (hnew : ∀ m ∈ frameRange n e, m ∉ A) :
    ∃ (b : Block) (st' : BuddyAllocator), b.start = n ∧ b.order = rangeOrder (n * FRAME_SIZE) (e * FRAME_SIZE) ∧ n + 2^b.order ≤ e ∧
      addRangeLoop (fuel + 1) st (n * FRAME_SIZE) (e * FRAME_SIZE) =
        addRangeLoop fuel st' ((n + 2^b.order) * FRAME_SIZE) (e * FRAME_SIZE) ∧
      Inv st' (Function.update F b.order (F b.order ++ [b.index])) L ∅ (A ∪ { m | m ∈ b })
        (frameRange (n + 2^b.order) e) ∧ KeepsLive st st' L := by
  obtain ⟨h1,h2,h3,_⟩ := rangeOrder_spec hlt
  set order := rangeOrder (n * FRAME_SIZE) (e * FRAME_SIZE) with horder
  have hstart : (Block.mk order (n / 2^order)).start = n := Nat.mul_div_cancel' h2
  obtain ⟨st1,st2,st3,r1,r2,r3,hinv,hkeep⟩ := @addBlock st F L A ⟨order,n / 2^order⟩ e (hstart.symm ▸ h) h1
    (by rw [hstart]; exact h3) (hstart.symm ▸ hmapped) (hstart.symm ▸ hnew)
  rw [hstart] at r1 r2 r3
  refine ⟨⟨order,n / 2^order⟩,st3,hstart,rfl,h3,?_,by rw [hstart] at hinv; exact hinv,hkeep⟩
  have hdiv : ∀ m, m * FRAME_SIZE / FRAME_SIZE = m := fun m => Nat.mul_div_cancel _ (by decide)
  have hnext : n * FRAME_SIZE + 1 <<< (order + FRAME_SHIFT) = (n + 2^order) * FRAME_SIZE := by
    rw [Nat.one_shiftLeft, pow_add, Nat.add_mul]
    rfl
  have hhead : head order = .ok (.head order) := if_pos h1
  have haddr : n * FRAME_SIZE < e * FRAME_SIZE := Nat.mul_lt_mul_of_pos_right hlt (by decide)
  conv_lhs => rw [BuddyAllocator.addRangeLoop]
  simp only [if_pos haddr, ← horder, hhead, hdiv, r1, r2, r3, hnext, bind, Except.bind]

/-- The free blocks while a range up to `e` is added and `n` is next: no block has the frame behind the range, and
a block that ends where the next one starts could not have been larger. -/
structure Greedy (F : ℕ → List ℕ) (n e : ℕ) : Prop where
  behind : ∀ p ∈ Free F, e ∉ p
  largest : ∀ p ∈ Free F, p.start + 2^p.order = n → ∀ k ≤ MAX_ORDER, 2^k ∣ p.start → p.start + 2^k ≤ e → k ≤ p.order

/-- The buddy of the next block is not free. -/
lemma buddy_of_next (h : Inv st F L ∅ A (frameRange b.start e)) (hg : Greedy F b.start e)
    (hnew : ∀ m ∈ frameRange b.start e, m ∉ A) (hle : b.start + 2^b.order ≤ e) (ho : b.order < MAX_ORDER) :
    b.buddy ∉ Free F := by
  have hpos := Nat.two_pow_pos b.order
  intro hb
  rcases b.lower_upper with ⟨hl,hu⟩ | ⟨hl,hu⟩
  · -- the buddy is above the block: in the range, or right behind it
    have hs : b.buddy.start = b.start + 2^b.order := by
      rw [← hu, Block.upper_start, ← Block.lower_start, hl]
    by_cases hlt : b.start + 2^b.order < e
    · exact hnew _ ⟨by omega,by omega⟩ (h.mem_added (Or.inl (Or.inl hb)) b.buddy.start_mem)
    · have he : b.buddy.start = e := by omega
      exact hg.behind _ hb (he ▸ b.buddy.start_mem)
  · -- the buddy is below the block, and could have been twice as large
    have hs : b.buddy.start + 2^b.order = b.start := by
      rw [← hl, Block.lower_start, ← Block.upper_start, hu]
    have hd : 2^(b.order + 1) ∣ b.buddy.start := by
      rw [← hl, Block.lower_start]
      exact Dvd.intro _ rfl
    have hpow : 2^(b.order + 1) = 2^b.order + 2^b.order := by ring
    have := hg.largest _ hb hs (b.order + 1) ho hd (by omega)
    simp at this

/-- The loop of `buddy_add_range`. -/
lemma addRangeLoop_ok (fuel : ℕ) (h : Inv st F L ∅ A (frameRange n e)) (hf : e - n < fuel)
    (hmapped : ∀ m ∈ frameRange n e, (st.ty m).isSome) (hnew : ∀ m ∈ frameRange n e, m ∉ A) :
    ∃ st' F', addRangeLoop fuel st (n * FRAME_SIZE) (e * FRAME_SIZE) = .ok st' ∧
      Inv st' F' L ∅ (A ∪ frameRange n e) ∅ ∧ KeepsLive st st' L ∧
      (Greedy F n e → Coalesced MAX_ORDER (Free F) → Coalesced MAX_ORDER (Free F')) := by
  induction fuel generalizing st F A n with
  | zero => omega
  | succ fuel ih =>
    by_cases hlt : n < e
    · obtain ⟨b,st1,hb,hbo,hle,hrun,hinv,hkeep⟩ := h.addRangeLoop_step fuel hlt hmapped hnew
      have hpos := Nat.two_pow_pos b.order
      have hsub : ∀ m ∈ frameRange (n + 2^b.order) e, m ∈ frameRange n e := fun m hm => by
        rw [mem_frameRange] at hm ⊢
        omega
      have hnew1 : ∀ m ∈ frameRange (n + 2^b.order) e, m ∉ A ∪ { m | m ∈ b } := fun m hm hor => by
        rcases hor with hA | hmb
        · exact hnew m (hsub m hm) hA
        · have hmb := (Block.mem_iff.mp hmb).2
          rw [mem_frameRange] at hm
          omega
      have hmapped1 : ∀ m ∈ frameRange (n + 2^b.order) e, (st1.ty m).isSome := fun m hm => by
        rw [hkeep.mapped]
        exact hmapped m (hsub m hm)
      obtain ⟨st2,F2,h1,h2,h3,hco⟩ := ih hinv (by omega) hmapped1 hnew1
      refine ⟨st2,F2,hrun.trans h1,?_,hkeep.trans h3,fun hg hF => ?_⟩
      swap
      · obtain ⟨ho,_,_,hmax⟩ := rangeOrder_spec hlt
        rw [← hbo] at ho hmax
        have hfree : Free (Function.update F b.order (F b.order ++ [b.index])) = insert b (Free F) := free_insert ho
        rw [hfree] at hco
        refine hco ⟨fun p hp hpe => ?_,fun p hp hend => ?_⟩ (hF.insert fun hlt => ?_)
        · rw [hfree] at hp
          rcases hp with rfl | hp
          · have := (Block.mem_iff.mp hpe).2
            omega
          · exact hg.behind p hp hpe
        · rw [hfree] at hp
          rcases hp with rfl | hp
          · rw [hb]
            exact hmax
          · -- an older block that ends there would have a frame of the range
            have hpp := Nat.two_pow_pos p.order
            have hlast : n + 2^b.order - 1 ∈ p := Block.mem_iff.mpr (by omega)
            exact absurd (h.mem_added (Or.inl (Or.inl hp)) hlast) (hnew _ ⟨by omega,by omega⟩)
        · exact buddy_of_next (hb.symm ▸ h) (hb.symm ▸ hg) (hb.symm ▸ hnew) (hb.symm ▸ hle) hlt
      have hunion : A ∪ { m | m ∈ b } ∪ frameRange (n + 2^b.order) e = A ∪ frameRange n e := by
        ext m
        simp only [Set.mem_union, Set.mem_ofPred_eq, mem_frameRange, Block.mem_iff, hb]
        by_cases hA : m ∈ A
        · simp [hA]
        · simp only [hA, false_or]
          omega
      rw [← hunion]
      exact h2
    · rw [frameRange_empty (not_lt.mp hlt)] at h ⊢
      refine ⟨st,F,?_,by rw [Set.union_empty]; exact h,KeepsLive.refl st L,fun _ hF => hF⟩
      have haddr : ¬n * FRAME_SIZE < e * FRAME_SIZE := fun hc => hlt (Nat.lt_of_mul_lt_mul_right hc)
      unfold BuddyAllocator.addRangeLoop
      rw [if_neg haddr]

/-- A frame that is marked as reserved was not added. -/
lemma not_added (h : Inv st F L ∅ A R) {m : ℕ} (hm : st.ty m = some .reserved) : m ∉ A := fun hA => by
  obtain ⟨c,hc,hmc⟩ := (h.tiles.cover m).mp hA
  by_cases hs : m = c.start
  · subst hs
    rcases hc with (hc | hc) | hc
    · rw [h.free c hc] at hm
      simp at hm
    · rcases h.live c hc with ⟨ht,_⟩ | ht <;> rw [ht] at hm <;> simp at hm
    · exact hc
  · rw [h.tail c hc m hmc hs] at hm
    simp at hm

/-- `buddy_add_range` of reserved frames. -/
theorem addRange_ok (h : Inv st F L ∅ A ∅) (hres : ∀ m ∈ frameRange n e, st.ty m = some .reserved) :
    ∃ st' F', st.addRange (n * FRAME_SIZE) (e * FRAME_SIZE) = .ok st' ∧ Inv st' F' L ∅ (A ∪ frameRange n e) ∅ ∧
      KeepsLive st st' L ∧ ((∀ p ∈ Free F, e ∉ p ∧ (0 < n → n-1 ∉ p)) → Coalesced MAX_ORDER (Free F) →
        Coalesced MAX_ORDER (Free F')) := by
  have hinv : Inv st F L ∅ A (frameRange n e) := ⟨h.lists,h.tiles,h.apart,h.small,h.free,h.live,h.held,h.tail,
    fun m hm _ => h.outside m hm (Set.notMem_empty m)⟩
  have hfuel : e - n < e * FRAME_SIZE - n * FRAME_SIZE + 1 := by
    rw [← Nat.sub_mul]
    exact Nat.lt_succ_of_le (Nat.le_mul_of_pos_right _ (by decide))
  obtain ⟨st',F',h1,h2,h3,hco⟩ := hinv.addRangeLoop_ok _ hfuel (fun m hm => by rw [hres m hm]; rfl)
    fun m hm => h.not_added (hres m hm)
  refine ⟨st',F',?_,h2,h3,fun hnb => hco ⟨fun p hp => (hnb p hp).1,fun p hp hend => ?_⟩⟩
  swap
  · have hpp := Nat.two_pow_pos p.order
    exact absurd (Block.mem_iff.mpr (by omega)) ((hnb p hp).2 (by omega))
  have hmod : ∀ m, m * FRAME_SIZE % FRAME_SIZE = 0 := fun m => Nat.mul_mod_left m FRAME_SIZE
  simp only [BuddyAllocator.addRange, assert, hmod, and_self, if_true, bind, Except.bind]
  exact h1

end Inv
end Lilith.Buddy
