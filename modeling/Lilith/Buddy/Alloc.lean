import Lilith.Buddy.Free

/-! Allocating a block: the first block of a list that is large enough is taken off and split. -/
namespace Lilith.Buddy
open Theory BuddyAllocator

variable {st st' : BuddyAllocator} {F : ℕ → List ℕ} {L H : Set Block} {A R : Set ℕ} {b c : Block} {n o order : ℕ}

namespace Inv

/-- Taking the first block off a list. -/
lemma take (h : Inv st F L ∅ A ∅) (hbo : b.order ≤ MAX_ORDER) {ys : List ℕ} (hF : F b.order = b.index :: ys) :
    ∃ st', st.popFront (.head b.order) = .ok (some (.frame b.start),st') ∧
      Inv st' (Function.update F b.order ys) L {b} A ∅ ∧ KeepsLive st st' L ∧
      st'.order (.frame b.start) = some b.order := by
  have hb : b ∈ Free F := ⟨hbo,by rw [hF]; exact List.mem_cons_self⟩
  obtain ⟨st1,r1,hl1,hty1,hord1,hun1⟩ := h.lists.popFront hbo hF
  have hF' : F b.order = [] ++ b.index :: ys := hF
  have hfree : Free (Function.update F b.order ys) = Free F \ {b} := free_remove h.lists hb hF'
  obtain ⟨hbL,_⟩ := h.free_apart hb
  have hsame : Free F \ {b} ∪ L ∪ {b} = Free F ∪ L ∪ ∅ := by
    ext c
    simp only [Set.mem_union, Set.mem_sdiff, Set.mem_singleton_iff, Set.mem_empty_iff_false, or_false]
    by_cases he : c = b
    · simp [he, hb]
    · simp [he]
  refine ⟨st1,r1,⟨hl1,?_,⟨?_,?_⟩,fun c hc => ?_,fun c hc => ?_,?_,fun c hc => ?_,?_,?_⟩,⟨fun c hc => ?_,?_⟩,?_⟩
  · rw [hfree, hsame]
    exact h.tiles
  · rw [hfree]
    refine Set.disjoint_left.mpr fun c hc hc' => ?_
    rcases hc' with hc' | hc'
    · exact (h.free_apart hc.1).1 hc'
    · exact hc.2 hc'
  · exact Set.disjoint_singleton_right.mpr hbL
  · rcases hc with hc | rfl
    · exact h.small c (Or.inl hc)
    · exact hbo
  · rw [hfree] at hc
    rw [hty1]
    exact h.free c hc.1
  · rw [hty1, hord1]
    exact h.live
  · rw [Set.mem_singleton_iff.mp hc, hty1, h.free b hb]
    rfl
  · rw [hfree, hsame, hty1]
    exact h.tail
  · rw [hty1]
    exact h.outside
  · refine hun1 _ (Set.notMem_empty _) fun d hd he => ?_
    exact (h.free_apart hd).1 (h.start_inj (Or.inl (Or.inl hd)) (Or.inl (Or.inr hc)) he ▸ hc)
  · exact fun n => by rw [hty1]
  · rw [hord1]
    exact h.lists.order b hb

/-- Looking at a block as two halves. -/
lemma halve (h : Inv st F L {b} A ∅) (ho : 0 < b.order) : Inv st F L (insert b.right {b.left}) A ∅ := by
  have hbm : b ∈ Free F ∪ L ∪ {b} := Or.inr rfl
  obtain ⟨hbF,hbL⟩ := h.held_apart
  have hbo : b.order ≤ MAX_ORDER := h.small b (Or.inr rfl)
  have hmem : ∀ c, c = b.left ∨ c = b.right → c.start ∈ b ∧ c ≠ b ∧ c.order < b.order := fun c hc => by
    rcases hc with rfl | rfl
    · refine ⟨(Block.mem_halves ho).mpr (Or.inl b.left.start_mem),fun he => ?_,Nat.sub_lt ho one_pos⟩
      have := congrArg Block.order he
      simp only [Block.left] at this
      omega
    · refine ⟨(Block.mem_halves ho).mpr (Or.inr b.right.start_mem),fun he => ?_,Nat.sub_lt ho one_pos⟩
      have := congrArg Block.order he
      simp only [Block.right] at this
      omega
  have hfresh : ∀ c, c = b.left ∨ c = b.right → c ∉ Free F ∧ c ∉ L := fun c hc => by
    obtain ⟨h1,h2,_⟩ := hmem c hc
    refine ⟨fun hf => h2 ?_,fun hl => h2 ?_⟩
    · exact h.tiles.unique c (Or.inl (Or.inl hf)) b hbm c.start c.start_mem h1
    · exact h.tiles.unique c (Or.inl (Or.inr hl)) b hbm c.start c.start_mem h1
  have hsame : (Free F ∪ L ∪ {b}) \ {b} ∪ {b.left,b.right} = Free F ∪ L ∪ insert b.right {b.left} := by
    ext c
    simp only [Set.mem_union, Set.mem_sdiff, Set.mem_insert_iff, Set.mem_singleton_iff]
    constructor
    · tauto
    · rintro ((hc | hc) | hc)
      · exact Or.inl ⟨Or.inl (Or.inl hc),fun he => hbF (he ▸ hc)⟩
      · exact Or.inl ⟨Or.inl (Or.inr hc),fun he => hbL (he ▸ hc)⟩
      · exact Or.inr hc.symm
  refine ⟨h.lists,hsame ▸ h.tiles.split hbm ho,⟨?_,?_⟩,fun c hc => ?_,h.free,h.live,fun c hc => ?_,fun c hc n hn hne => ?_,
    h.outside⟩
  · refine Set.disjoint_left.mpr fun c hc hc' => ?_
    rcases hc' with hc' | hc'
    · exact (h.free_apart hc).1 hc'
    · exact (hfresh c hc'.symm).1 hc
  · exact Set.disjoint_left.mpr fun c hc hc' => (hfresh c hc'.symm).2 hc
  · rcases hc with hc | hc
    · exact h.small c (Or.inl hc)
    · have := (hmem c hc.symm).2.2
      omega
  · rcases hc with rfl | hc
    · rw [h.tail b hbm _ (hmem _ (Or.inr rfl)).1 (by rw [Block.right_start ho]; have := Nat.two_pow_pos (b.order - 1); omega)]
      rfl
    · rw [Set.mem_singleton_iff.mp hc, Block.left_start ho]
      exact h.held b rfl
  · rcases hc with hc | hc
    · exact h.tail c (Or.inl hc) n hn hne
    · have hnb : n ∈ b := (Block.mem_halves ho).mpr (hc.symm.imp (fun h : c = b.left => h ▸ hn) fun h : c = b.right => h ▸ hn)
      refine h.tail b hbm n hnb fun he => ?_
      rcases hc with rfl | hc
      · -- the upper half does not have the start of the block
        rw [Block.mem_iff, Block.right_start ho] at hn
        have := Nat.two_pow_pos (b.order - 1)
        omega
      · exact hne (he.trans (by rw [Set.mem_singleton_iff.mp hc, Block.left_start ho]))

/-- Writing the order of a block that is worked on. -/
lemma setOrder_ok (h : Inv st F L {b} A ∅) (hn : (st.order (.frame b.start)).isSome) (order : ℕ) :
    ∃ st', st.setOrder b.start order = .ok st' ∧ Inv st' F L {b} A ∅ ∧ st'.order (.frame b.start) = some order ∧
      KeepsLive st st' L := by
  obtain ⟨o,ho⟩ := Option.isSome_iff_exists.mp hn
  obtain ⟨st1,r1,e1⟩ := write_ok (writable_of_order ho) ⟨st.next (.frame b.start),st.prev (.frame b.start),order⟩
  obtain ⟨hbF,hbL⟩ := h.held_apart
  have hne : ∀ c ∈ Free F ∪ L, c.start ≠ b.start := fun c hc he => by
    obtain rfl := h.start_inj (Or.inl hc) (Or.inr rfl) he
    exact hc.elim hbF hbL
  have hnext : st1.next = st.next := by rw [e1.next, Function.update_eq_self]
  have hprev : st1.prev = st.prev := by rw [e1.prev, Function.update_eq_self]
  have hord : ∀ c ∈ Free F ∪ L, st1.order (.frame c.start) = st.order (.frame c.start) := fun c hc => by
    rw [e1.order, Function.update_of_ne (by simpa using hne c hc)]
  refine ⟨st1,?_,⟨⟨?_,fun o' ho' => ?_,fun c hc => ?_⟩,h.tiles,h.apart,h.small,?_,fun c hc => ?_,?_,?_,?_⟩,?_,
    fun c hc => ?_,fun n => by rw [e1.ty]⟩
  · simp only [BuddyAllocator.setOrder, read_ok ho, bind, Except.bind]
    exact r1
  · rw [hnext, hprev]
    exact h.lists.ring
  · rw [e1.order, Function.update_of_ne (by simp)]
    exact h.lists.head o' ho'
  · rw [hord c (Or.inl hc)]
    exact h.lists.order c hc
  · rw [e1.ty]
    exact h.free
  · rw [e1.ty, hord c (Or.inr hc)]
    exact h.live c hc
  · rw [e1.ty]
    exact h.held
  · rw [e1.ty]
    exact h.tail
  · rw [e1.ty]
    exact h.outside
  · rw [e1.order, Function.update_self]
  · exact e1.frames _ (by simpa using hne c (Or.inr hc))

/-- `split` down to an order. The buddy of a block that is put on a list has the start of the block that is split. -/
lemma split_ok (order : ℕ) (h : Inv st F L {b} A ∅) (ho : b.order = order) {target : ℕ} (ht : target ≤ order)
    (hn : (st.order (.frame b.start)).isSome) : ∃ st' F' c, st.split b.start order target = .ok st' ∧
      Inv st' F' L {c} A ∅ ∧ c.start = b.start ∧ c.order = target ∧ st'.order (.frame b.start) = some target ∧
      KeepsLive st st' L ∧ ∀ d ∈ Free F', d ∈ Free F ∨ b.start ∈ d.buddy := by
  induction order generalizing st F b with
  | zero =>
    obtain rfl : target = 0 := by omega
    obtain ⟨st1,r1,h1,h2,h3⟩ := h.setOrder_ok hn 0
    exact ⟨st1,F,b,r1,h1,rfl,ho,h2,h3,fun d hd => Or.inl hd⟩
  | succ order ih =>
    unfold BuddyAllocator.split
    by_cases hgt : order + 1 > target
    · rw [if_pos hgt]
      have hpos : 0 < b.order := by omega
      have hright : b.start + 1 <<< order = b.right.start := by
        rw [Block.right_start hpos, ho, Nat.add_sub_cancel, Nat.one_shiftLeft]
      have hro : b.right.order = order := by simp [Block.right, ho]
      obtain ⟨st1,st2,r1,r2,h1,h2⟩ := (h.halve hpos).putBack (Set.mem_singleton_iff.not.mpr b.left_ne_right.symm)
      rw [hro] at r1
      have hhead : head order = .ok (.head order) := by
        have hsmall := h.small b (Or.inr rfl)
        exact if_pos (show order ≤ MAX_ORDER by omega)
      have hlive : KeepsLive st st2 L := ⟨fun c hc => h2.frames c (Or.inl hc),h2.mapped⟩
      have hleft : b.left.start = b.start := Block.left_start hpos
      have hn2 : (st2.order (.frame b.left.start)).isSome := by
        have hfr : st2.frames b.left.start = st.frames b.left.start := h2.frames b.left (Or.inr rfl)
        simp only [BuddyAllocator.order, BuddyAllocator.node] at hn ⊢
        rw [hfr, hleft]
        exact hn
      obtain ⟨st3,F3,c,r3,h4,h5,h6,h7,h8,h9⟩ := ih h1 (by simp [Block.left, ho]) (by omega) hn2
      rw [hleft] at r3 h5 h7 h9
      refine ⟨st3,F3,c,?_,h4,h5,h6,h7,hlive.trans h8,fun d hd => ?_⟩
      · simp only [hhead, hright, r1, r2, r3, bind, Except.bind]
      · rcases h9 d hd with hd | hd
        · have hsmall := h.small b (Or.inr rfl)
          rw [free_insert (by rw [hro]; omega)] at hd
          rcases hd with rfl | hd
          · right
            rw [Block.right_buddy, ← hleft]
            exact b.left.start_mem
          · exact Or.inl hd
        · exact Or.inr hd
    · rw [if_neg hgt]
      obtain rfl : target = order + 1 := by omega
      obtain ⟨st1,r1,h1,h2,h3⟩ := h.setOrder_ok hn (order + 1)
      exact ⟨st1,F,b,r1,h1,rfl,ho,h2,h3,fun d hd => Or.inl hd⟩

/-- Splitting makes no buddies: the buddy of every new block holds the start of the block that is given out. -/
lemma coalesced_split {F0 : ℕ → List ℕ} (h : Inv st F L {b} A ∅)
    (hnew : ∀ d ∈ Free F, d ∈ Free F0 ∨ b.start ∈ d.buddy) (hco : Coalesced MAX_ORDER (Free F0)) :
    Coalesced MAX_ORDER (Free F) := by
  have hout : ∀ d ∈ Free F, b.start ∉ d := fun d hd hm => by
    obtain rfl := h.tiles.unique d (Or.inl (Or.inl hd)) b (Or.inr rfl) b.start hm b.start_mem
    exact h.held_apart.1 hd
  intro d hd ho hd'
  rcases hnew d hd with hd0 | hm
  · rcases hnew _ hd' with hd0' | hm
    · exact hco d hd0 ho hd0'
    · rw [Block.buddy_buddy] at hm
      exact hout d hd hm
  · exact hout _ hd' hm

/-- Giving a block that is worked on out, with its order or as a slab. -/
lemma giveAs (h : Inv st F L {b} A ∅) {t : FrameType}
    (ht : t = .buddyAllocated ∧ st.order (.frame b.start) = some b.order ∨ t = .slab) :
    ∃ st', st.setTy b.start t = .ok st' ∧ Inv st' F (insert b L) ∅ A ∅ ∧ KeepsLive st st' L := by
  obtain ⟨st1,r1,hnext,hprev,hord,hty,_,hfr⟩ := setTy_ok (h.held b rfl) t
  obtain ⟨hbF,hbL⟩ := h.held_apart
  have hbm : b ∈ Free F ∪ L ∪ {b} := Or.inr rfl
  have hne : ∀ c ∈ Free F ∪ L, c.start ≠ b.start := fun c hc he => by
    obtain rfl := h.start_inj (Or.inl hc) hbm he
    exact hc.elim hbF hbL
  have hsame : Free F ∪ insert b L ∪ ∅ = Free F ∪ L ∪ {b} := by
    ext c
    simp only [Set.mem_union, Set.mem_insert_iff, Set.mem_singleton_iff, Set.mem_empty_iff_false]
    tauto
  refine ⟨st1,r1,⟨h.lists.congr hnext hprev hord,hsame ▸ h.tiles,⟨?_,Set.disjoint_empty _⟩,fun c hc => ?_,fun c hc => ?_,
    fun c hc => ?_,fun c hc => absurd hc (Set.notMem_empty c),fun c hc n hn' hne' => ?_,fun n hn' hR t' ht' => ?_⟩,
    fun c hc => hfr _ (hne c (Or.inr hc)),fun n => by rw [hty, isSome_update (h.held b rfl)]⟩
  · refine Set.disjoint_left.mpr fun c hc hc' => ?_
    rcases hc' with (rfl | hc') | hc'
    · exact hbF hc
    · exact (h.free_apart hc).1 hc'
    · exact hc'
  · rcases hc with (rfl | hc) | hc
    · exact h.small c (Or.inr rfl)
    · exact h.small c (Or.inl hc)
    · exact absurd hc (Set.notMem_empty c)
  · rw [hty, Function.update_of_ne (hne c (Or.inl hc))]
    exact h.free c hc
  · rw [hty, hord]
    rcases hc with rfl | hc
    · rw [Function.update_self]
      exact ht.imp (fun h1 => ⟨congrArg some h1.1,h1.2⟩) (congrArg some)
    · rw [Function.update_of_ne (hne c (Or.inr hc))]
      exact h.live c hc
  · rw [hsame] at hc
    rw [hty, Function.update_of_ne]
    · exact h.tail c hc n hn' hne'
    · rintro rfl
      exact hne' (by rw [h.tiles.unique c hc b hbm _ hn' b.start_mem])
  · refine h.outside n hn' hR t' ?_
    rw [hty, Function.update_of_ne] at ht'
    · exact ht'
    · rintro rfl
      exact hn' (h.mem_added hbm b.start_mem)

lemma give (h : Inv st F L {b} A ∅) (hn : st.order (.frame b.start) = some b.order) :
    ∃ st', st.setTy b.start .buddyAllocated = .ok st' ∧ Inv st' F (insert b L) ∅ A ∅ ∧ KeepsLive st st' L :=
  h.giveAs (Or.inl ⟨rfl,hn⟩)

/-- The loop of `alloc_min`: the first list with a block, or none has one. -/
lemma allocMinLoop (count : ℕ) (h : Inv st F L ∅ A ∅) (o : ℕ) (hc : o + count = MAX_ORDER + 1) :
    (st.allocMinLoop count o = .ok (.error .outOfMemory,st) ∧ ∀ o', o ≤ o' → o' ≤ MAX_ORDER → F o' = []) ∨
    ∃ b F' st', st.allocMinLoop count o = .ok (.ok (b.start,b.order),st') ∧ o ≤ b.order ∧ b.order ≤ MAX_ORDER ∧
      b ∈ Free F ∧ Inv st' F' L {b} A ∅ ∧ KeepsLive st st' L ∧ st'.order (.frame b.start) = some b.order ∧
      Free F' ⊆ Free F := by
  induction count generalizing o with
  | zero => exact Or.inl ⟨rfl,fun o' h1 h2 => by omega⟩
  | succ count ih =>
    have ho : o ≤ MAX_ORDER := by omega
    have hhead : head o = .ok (.head o) := if_pos ho
    unfold BuddyAllocator.allocMinLoop
    cases hF : F o with
    | nil =>
      simp only [hhead, h.lists.popFront_nil ho hF, bind, Except.bind]
      rcases ih (o+1) (by omega) with ⟨h1,h2⟩ | ⟨b,F1,st1,h1,h2,h3⟩
      · refine Or.inl ⟨h1,fun o' h3 h4 => ?_⟩
        by_cases he : o' = o
        · rw [he, hF]
        · exact h2 o' (by omega) h4
      · exact Or.inr ⟨b,F1,st1,h1,by omega,h3⟩
    | cons i ys =>
      obtain ⟨st1,r1,h1,h2,h3⟩ := @Inv.take st F L A ⟨o,i⟩ h ho ys hF
      have hb : (⟨o,i⟩ : Block) ∈ Free F := ⟨ho,by rw [hF]; exact List.mem_cons_self⟩
      refine Or.inr ⟨⟨o,i⟩,_,st1,?_,le_rfl,ho,hb,h1,h2,h3,?_⟩
      · simp only [hhead, r1, bind, Except.bind, frameOf]
        rfl
      · have hsplit : F o = [] ++ i :: ys := hF
        have hrem : Free (Function.update F o ys) = Free F \ {⟨o,i⟩} := free_remove h.lists hb hsplit
        rw [hrem]
        exact Set.sdiff_subset

/-- `alloc`: a new live block of the order, or no list has a block that is large enough. -/
theorem alloc_ok (h : Inv st F L ∅ A ∅) (ho : order ≤ MAX_ORDER) :
    (st.alloc order = .ok (.error .outOfMemory,st) ∧ ∀ o, order ≤ o → o ≤ MAX_ORDER → F o = []) ∨
    (∃ o, order ≤ o ∧ o ≤ MAX_ORDER ∧ F o ≠ []) ∧ ∃ b st' F', st.alloc order = .ok (.ok (b.start * FRAME_SIZE),st') ∧
      b.order = order ∧ b ∉ L ∧ Inv st' F' (insert b L) ∅ A ∅ ∧ KeepsLive st st' L ∧
      (Coalesced MAX_ORDER (Free F) → Coalesced MAX_ORDER (Free F')) := by
  have hassert : assert (order ≤ MAX_ORDER) "assertion failed: order <= MAX_ORDER" = .ok () := if_pos ho
  rcases h.allocMinLoop (MAX_ORDER + 1 - order) order (by omega) with ⟨h1,h2⟩ |
    ⟨b,F1,st1,h1,h2,h3,h4,h5,h6,h7,hsub⟩
  · refine Or.inl ⟨?_,h2⟩
    simp only [BuddyAllocator.alloc, hassert, BuddyAllocator.allocMin, h1, bind, Except.bind]
    rfl
  · obtain ⟨st2,F2,c,r2,h8,h9,h10,h11,h12,h15⟩ := h5.split_ok b.order rfl h2 (by rw [h7]; rfl)
    rw [← h9, ← h10] at h11
    obtain ⟨st3,r3,h13,h14⟩ := h8.give h11
    refine Or.inr ⟨⟨b.order,h2,h3,fun hnil => ?_⟩,c,st3,F2,?_,h10,h8.held_apart.2,h13,(h6.trans h12).trans h14,
      h8.coalesced_split fun d hd => ?_⟩
    · have := h4.2
      rw [hnil] at this
      exact absurd this (List.not_mem_nil)
    · rw [h9] at r3
      simp only [BuddyAllocator.alloc, hassert, BuddyAllocator.allocMin, h1, r2, r3, h9, bind, Except.bind]
      rfl
    · rw [h9]
      exact (h15 d hd).imp (fun hd => hsub hd) id

end Inv

/-- The first frame of an allocated block has its type. -/
lemma alloc_ty {addr order : ℕ} (h : st.alloc order = .ok (.ok addr,st')) : st'.ty (addr / FRAME_SIZE) = some .buddyAllocated := by
  obtain ⟨_,_,h⟩ := bind_ok h
  obtain ⟨⟨res,st1⟩,_,h⟩ := bind_ok h
  cases res with
  | error e => simp [pure, Except.pure] at h
  | ok p =>
    obtain ⟨st2,_,h⟩ := bind_ok h
    obtain ⟨st3,hty,h⟩ := bind_ok h
    obtain ⟨he,rfl⟩ := Prod.mk.inj (Except.ok.inj h)
    obtain ⟨fi,_,hset⟩ := bind_ok hty
    obtain rfl := Except.ok.inj hset
    rw [← Except.ok.inj he, Nat.mul_div_cancel _ (by decide)]
    simp [BuddyAllocator.ty, setFrame]

end Lilith.Buddy
