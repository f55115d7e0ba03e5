import Lilith.Buddy.Lists

/-! The invariant of the buddy allocator: the free blocks on the lists and the live ones tile the frames that
were added, and the types of the frames say where blocks start. -/
namespace Lilith.Buddy
open Theory BuddyAllocator

variable {st st' : BuddyAllocator} {F : ℕ → List ℕ} {L H : Set Block} {A R : Set ℕ} {b c : Block} {n o : ℕ}

section Addresses

lemma xor_one (m : ℕ) : m ^^^ 1 = if m % 2 = 0 then m + 1 else m - 1 := by
  have h1 : (m ^^^ 1) / 2 = m / 2 := by rw [Nat.xor_div_two]; simp
  have h2 := @Nat.xor_mod_two_eq_one m 1
  split_ifs <;> omega

lemma or_one (m : ℕ) : m ||| 1 = m / 2 * 2 + 1 := by
  have h1 : (m ||| 1) / 2 = m / 2 := by rw [Nat.or_div_two]; simp
  have h2 := @Nat.or_mod_two_eq_one m 1
  omega

/-- The part of an address of a `FrameInfo` above the bit that tells buddies of one order apart. -/
def infoBase (order : ℕ) : ℕ := FRAME_INFO_ADDR / 2^(order + FRAME_INFO_SHIFT)

lemma infoBase_eq (h : o ≤ MAX_ORDER) :
    FRAME_INFO_ADDR = infoBase o * 2^(o + FRAME_INFO_SHIFT) ∧ infoBase o % 2 = 0 := by
  have : o < 11 := Nat.lt_succ_of_le h
  interval_cases o <;> decide

lemma frameInfoAddr_start (h : b.order ≤ MAX_ORDER) :
    frameInfoAddr b.start = (infoBase b.order + b.index) <<< (b.order + FRAME_INFO_SHIFT) := by
  rw [frameInfoAddr, (infoBase_eq h).1, Nat.shiftLeft_eq, Block.start, FRAME_INFO_SIZE, FRAME_INFO_SHIFT, pow_add]
  ring

lemma fromFrameInfoAddr_shift (h : o ≤ MAX_ORDER) (i : ℕ) :
    fromFrameInfoAddr ((infoBase o + i) <<< (o + FRAME_INFO_SHIFT)) = (Block.mk o i).start := by
  have he : (infoBase o + i) * 2^(o + 6) - infoBase o * 2^(o + 6) = 2^o * i * 64 := by
    rw [Nat.add_mul, Nat.add_sub_cancel_left, pow_add]
    ring
  rw [fromFrameInfoAddr, (infoBase_eq h).1, Nat.shiftLeft_eq, FRAME_INFO_SIZE, FRAME_INFO_SHIFT, he,
    Nat.mul_div_cancel _ (by decide)]
  rfl

/-- The buddy found by flipping a bit of the address. -/
lemma getBuddy_start (h : b.order ≤ MAX_ORDER) : getBuddy b.start b.order = b.buddy.start := by
  have heven := (infoBase_eq h).2
  have hidx : (infoBase b.order + b.index) ^^^ 1 = infoBase b.order + b.buddy.index := by
    rw [xor_one]
    simp only [Block.buddy]
    split_ifs <;> omega
  rw [getBuddy, frameInfoAddr_start h, ← Nat.shiftLeft_xor_distrib, hidx]
  exact fromFrameInfoAddr_shift h _

lemma sortBuddies_start (h : b.order ≤ MAX_ORDER) :
    sortBuddies b.start b.order = (b.parent.start,b.upper.start) := by
  have heven := (infoBase_eq h).2
  have hup : (infoBase b.order + b.index) ||| 1 = infoBase b.order + b.upper.index := by
    rw [or_one]
    simp only [Block.upper]
    omega
  have hlow : (infoBase b.order + b.upper.index) ^^^ 1 = infoBase b.order + b.lower.index := by
    rw [xor_one, if_neg]
    · simp only [Block.upper, Block.lower]
      omega
    · simp only [Block.upper]
      omega
  rw [sortBuddies, frameInfoAddr_start h, ← Nat.shiftLeft_or_distrib, hup, ← Nat.shiftLeft_xor_distrib, hlow,
    fromFrameInfoAddr_shift h, fromFrameInfoAddr_shift h, ← Block.lower_start]
  rfl

end Addresses

/-- The invariant with the blocks `F` on the lists, the live blocks `L`, the blocks `H` that an operation is
working on, the added frames `A` and frames `R` that are being added. -/
structure Inv (st : BuddyAllocator) (F : ℕ → List ℕ) (L H : Set Block) (A R : Set ℕ) : Prop where
  lists : Lists st F
  tiles : Tiles (Free F ∪ L ∪ H) A
  apart : Disjoint (Free F) (L ∪ H) ∧ Disjoint L H
  small : ∀ b ∈ L ∪ H, b.order ≤ MAX_ORDER
  free : ∀ b ∈ Free F, st.ty b.start = some .buddy
  live : ∀ b ∈ L, st.ty b.start = some .buddyAllocated ∧ st.order (.frame b.start) = some b.order ∨
    st.ty b.start = some .slab
  held : ∀ b ∈ H, (st.ty b.start).isSome
  tail : ∀ b ∈ Free F ∪ L ∪ H, ∀ n ∈ b, n ≠ b.start → st.ty n = some .buddyTail
  outside : ∀ n, n ∉ A → n ∉ R → ∀ t, st.ty n = some t → t = .reserved

namespace Inv

/-- Two blocks with one start are the same. -/
lemma start_inj (h : Inv st F L H A R) (hb : b ∈ Free F ∪ L ∪ H) (hc : c ∈ Free F ∪ L ∪ H) (hs : b.start = c.start) :
    b = c := h.tiles.unique b hb c hc b.start b.start_mem (hs ▸ c.start_mem)

lemma mem_added (h : Inv st F L H A R) (hb : b ∈ Free F ∪ L ∪ H) (hn : n ∈ b) : n ∈ A := (h.tiles.cover n).mpr ⟨b,hb,hn⟩

/-- A block that is worked on is on no list and not live. -/
lemma held_apart (h : Inv st F L {b} A R) : b ∉ Free F ∧ b ∉ L := by
  refine ⟨fun hb => Set.disjoint_left.mp h.apart.1 hb (Or.inr rfl),fun hb => Set.disjoint_left.mp h.apart.2 hb rfl⟩

lemma free_apart (h : Inv st F L H A R) (hb : b ∈ Free F) : b ∉ L ∧ b ∉ H :=
  ⟨fun hl => Set.disjoint_left.mp h.apart.1 hb (Or.inl hl),fun hh => Set.disjoint_left.mp h.apart.1 hb (Or.inr hh)⟩

lemma live_apart (h : Inv st F L H A R) (hb : b ∈ L) : b ∉ Free F ∧ b ∉ H :=
  ⟨fun hf => Set.disjoint_left.mp h.apart.1 hf (Or.inl hb),fun hh => Set.disjoint_left.mp h.apart.2 hb hh⟩

end Inv

/-- The blocks on the lists after one was taken off. -/
lemma free_remove (hl : Lists st F) (hb : b ∈ Free F) {xs ys : List ℕ} (hF : F b.order = xs ++ b.index :: ys) :
    Free (Function.update F b.order (xs ++ ys)) = Free F \ {b} := by
  have hd := hl.nodup hb.1
  rw [hF, List.nodup_middle, List.nodup_cons] at hd
  ext c
  rw [Lists.mem_free_update, Set.mem_sdiff, Set.mem_singleton_iff]
  by_cases ho : c.order = b.order
  · rw [if_pos ho]
    have hc : c ∈ Free F ↔ c.order ≤ MAX_ORDER ∧ c.index ∈ xs ++ b.index :: ys := by rw [← hF, ← ho]; rfl
    have he : c = b ↔ c.index = b.index := ⟨fun h => by rw [h],fun h => Block.ext ho h⟩
    rw [hc, he]
    simp only [List.mem_append, List.mem_cons] at hd ⊢
    constructor
    · intro ⟨h1,h2⟩
      refine ⟨⟨h1,by tauto⟩,fun hi => hd.1 (hi ▸ h2)⟩
    · intro ⟨⟨h1,h2⟩,h3⟩
      exact ⟨h1,by tauto⟩
  · rw [if_neg ho]
    have hne : c ≠ b := fun h => ho (by rw [h])
    exact ⟨fun h => ⟨h,hne⟩,fun h => h.1⟩

/-- The blocks on the lists after one was put on. -/
lemma free_insert (hb : b.order ≤ MAX_ORDER) :
    Free (Function.update F b.order (F b.order ++ [b.index])) = insert b (Free F) := by
  ext c
  rw [Lists.mem_free_update, Set.mem_insert_iff]
  by_cases ho : c.order = b.order
  · rw [if_pos ho]
    have hc : c ∈ Free F ↔ c.order ≤ MAX_ORDER ∧ c.index ∈ F b.order := by rw [← ho]; rfl
    have he : c = b ↔ c.index = b.index := ⟨fun h => by rw [h],fun h => Block.ext ho h⟩
    rw [hc, he, List.mem_append, List.mem_singleton]
    have : c.order ≤ MAX_ORDER := ho ▸ hb
    tauto
  · rw [if_neg ho]
    have hne : c ≠ b := fun h => ho (by rw [h])
    exact ⟨fun h => Or.inr h,fun h => h.resolve_left hne⟩

/-- What an operation leaves alone: the frames at which live blocks start, and which frames have a `FrameInfo`. -/
structure KeepsLive (st st' : BuddyAllocator) (L : Set Block) : Prop where
  frames : ∀ c ∈ L, st'.frames c.start = st.frames c.start
  mapped : ∀ n, (st'.ty n).isSome = (st.ty n).isSome

lemma KeepsLive.refl (st : BuddyAllocator) (L : Set Block) : KeepsLive st st L := ⟨fun _ _ => rfl,fun _ => rfl⟩

lemma KeepsLive.trans {st1 : BuddyAllocator} (h : KeepsLive st st1 L) (h' : KeepsLive st1 st' L) : KeepsLive st st' L :=
  ⟨fun c hc => (h'.frames c hc).trans (h.frames c hc),fun n => (h'.mapped n).trans (h.mapped n)⟩

/-- Giving a frame another type does not map it. -/
lemma isSome_update {t : FrameType} (hn : (st.ty n).isSome) (m : ℕ) :
    (Function.update st.ty n (some t) m).isSome = (st.ty m).isSome := by
  rw [Function.update_apply]
  split_ifs with h
  · rw [h, hn]
    rfl
  · rfl

/-- The links and the orders of a state, with other types. -/
lemma Lists.congr (h : Lists st F) (hn : st'.next = st.next) (hp : st'.prev = st.prev) (ho : st'.order = st.order) :
    Lists st' F := by
  refine ⟨fun o hle => ?_,fun o hle => ?_,fun b hb => ?_⟩
  · rw [hn, hp]
    exact h.ring o hle
  · rw [ho]
    exact h.head o hle
  · rw [ho]
    exact h.order b hb

namespace Inv

/-- The union in a `FrameInfo` may hold anything while the block is worked on, and in a slab. -/
lemma overwrite (h : Inv st F L H A R) (hheads : st'.heads = st.heads) (hty : st'.ty = st.ty)
    (hfr : ∀ n, st'.frames n ≠ st.frames n → ∃ b ∈ L ∪ H, b.start = n ∧ (b ∈ L → st.ty n = some .slab)) :
    Inv st' F L H A R := by
  have hfree : ∀ b ∈ Free F, st'.node (.frame b.start) = st.node (.frame b.start) := by
    intro b hb
    by_contra hne
    have hne' : st'.frames b.start ≠ st.frames b.start := fun he => hne (by simp only [BuddyAllocator.node, he])
    obtain ⟨c,hc,hs,_⟩ := hfr _ hne'
    obtain rfl := h.start_inj (Or.inl (Or.inl hb)) (hc.elim (fun hc => Or.inl (Or.inr hc)) Or.inr) hs.symm
    exact hc.elim (h.free_apart hb).1 (h.free_apart hb).2
  have hhead : ∀ o, st'.node (.head o) = st.node (.head o) := fun o => by simp only [BuddyAllocator.node, hheads]
  have hnode : ∀ o ≤ MAX_ORDER, ∀ p ∈ ListPtr.head o :: nodes F o, st'.node p = st.node p := by
    intro o ho p hp
    rcases List.mem_cons.mp hp with rfl | hp
    · exact hhead o
    · obtain ⟨i,hi,rfl⟩ := Lists.mem_nodes.mp hp
      exact hfree ⟨o,i⟩ ⟨ho,hi⟩
  refine ⟨⟨fun o ho => (h.lists.ring o ho).congr (fun p hp => ?_) fun p hp => ?_,fun o ho => ?_,fun b hb => ?_⟩,h.tiles,
    h.apart,h.small,fun b hb => ?_,fun b hb => ?_,fun b hb => ?_,fun b hb n hn hne => ?_,fun n hn hR t ht => ?_⟩
  · rw [BuddyAllocator.next, hnode o ho p hp, BuddyAllocator.next]
  · rw [BuddyAllocator.prev, hnode o ho p hp, BuddyAllocator.prev]
  · rw [BuddyAllocator.order, hhead]
    exact h.lists.head o ho
  · rw [BuddyAllocator.order, hfree b hb]
    exact h.lists.order b hb
  · rw [hty]
    exact h.free b hb
  · rw [hty]
    by_cases he : st'.frames b.start = st.frames b.start
    · rw [BuddyAllocator.order, show st'.node (.frame b.start) = st.node (.frame b.start) by simp only [BuddyAllocator.node, he]]
      exact h.live b hb
    · obtain ⟨c,hc,hs,hslab⟩ := hfr _ he
      obtain rfl := h.start_inj (hc.elim (fun hc => Or.inl (Or.inr hc)) Or.inr) (Or.inl (Or.inr hb)) hs
      exact Or.inr (hslab hb)
  · rw [hty]
    exact h.held b hb
  · rw [hty]
    exact h.tail b hb n hn hne
  · rw [hty] at ht
    exact h.outside n hn hR t ht

/-- The block that starts where the buddy of a block does. -/
lemma at_buddy (h : Inv st F L {b} A ∅) {t : FrameType} (ht : st.ty b.buddy.start = some t) :
    t = .reserved ∨ (t = .buddy ∧ ∃ c ∈ Free F, c.start = b.buddy.start) ∨ t = .buddyAllocated ∨ t = .slab := by
  by_cases hA : b.buddy.start ∈ A
  · obtain ⟨c,hc,hcn⟩ := (h.tiles.cover _).mp hA
    obtain ⟨_,hs⟩ := h.tiles.buddy_start (Or.inr rfl) hc hcn
    rcases hc with (hc | hc) | rfl
    · have := h.free c hc
      rw [hs, ht] at this
      exact Or.inr (Or.inl ⟨Option.some.inj this,c,hc,hs⟩)
    · have hl := h.live c hc
      rw [hs, ht] at hl
      rcases hl with ⟨hl,_⟩ | hl
      · exact Or.inr (Or.inr (Or.inl (Option.some.inj hl)))
      · exact Or.inr (Or.inr (Or.inr (Option.some.inj hl)))
    · have he : c = c.buddy := Block.ext_start rfl hs
      exact absurd he.symm c.buddy_ne
  · exact Or.inl (h.outside _ hA (Set.notMem_empty _) t ht)

/-- Taking the buddy off its list and joining it. -/
lemma join (h : Inv st F L {b} A ∅) (ho : b.order < MAX_ORDER) (hc : b.buddy ∈ Free F) {xs ys : List ℕ}
    (hF : F b.order = xs ++ b.buddy.index :: ys) : ∃ st1 st', st.unlink (.frame b.buddy.start) = .ok st1 ∧
      st1.setTy b.upper.start .buddyTail = .ok st' ∧
      Inv st' (Function.update F b.order (xs ++ ys)) L {b.parent} A ∅ ∧ KeepsLive st st' L := by
  obtain ⟨st1,r1,hl1,hty1,hord1,hun1⟩ := Lists.unlink h.lists hc hF
  have hup : b.upper = b ∨ b.upper = b.buddy := b.lower_upper.elim (fun hl => Or.inr hl.2) fun hl => Or.inl hl.2
  have hlow : b.lower = b ∨ b.lower = b.buddy := b.lower_upper.elim (fun hl => Or.inl hl.1) fun hl => Or.inr hl.1
  have hbm : b ∈ Free F ∪ L ∪ {b} := Or.inr rfl
  have hcm : b.buddy ∈ Free F ∪ L ∪ {b} := Or.inl (Or.inl hc)
  have hsome : ∀ d, d = b ∨ d = b.buddy → (st.ty d.start).isSome := fun d hd => by
    rcases hd with rfl | rfl
    · exact h.held d rfl
    · rw [h.free _ hc]
      rfl
  obtain ⟨st2,r2,hn2,hp2,hord2,hty2,_,hfr2⟩ := setTy_ok (hty1 ▸ hsome _ hup) .buddyTail
  rw [hty1] at hty2
  have hfree : Free (Function.update F b.order (xs ++ ys)) = Free F \ {b.buddy} := free_remove h.lists hc hF
  have hother : ∀ d, d ∈ Free F ∪ L ∪ {b} → d ≠ b → d ≠ b.buddy → d.start ≠ b.upper.start := fun d hd hd1 hd2 he => by
    rcases hup with hu | hu
    · exact hd1 (h.start_inj hd hbm (he.trans (by rw [hu])))
    · exact hd2 (h.start_inj hd hcm (he.trans (by rw [hu])))
  obtain ⟨hbF,hbL⟩ := h.held_apart
  obtain ⟨hcL,hcH⟩ := h.free_apart hc
  refine ⟨st1,st2,r1,r2,⟨hl1.congr hn2 hp2 hord2,?_,?_,?_,?_,?_,?_,?_,?_⟩,?_⟩
  · have ht := h.tiles.merge hbm hcm
    have he : (Free F ∪ L ∪ {b}) \ {b,b.buddy} ∪ {b.parent} =
        Free (Function.update F b.order (xs ++ ys)) ∪ L ∪ {b.parent} := by
      rw [hfree]
      ext d
      simp only [Set.mem_union, Set.mem_sdiff, Set.mem_insert_iff, Set.mem_singleton_iff]
      constructor
      · tauto
      · rintro ((⟨hd,hd'⟩ | hd) | hd)
        · exact Or.inl ⟨Or.inl (Or.inl hd),fun hor => hor.elim (fun he => hbF (he ▸ hd)) hd'⟩
        · exact Or.inl ⟨Or.inl (Or.inr hd),fun hor => hor.elim (fun he => hbL (he ▸ hd)) fun he => hcL (he ▸ hd)⟩
        · exact Or.inr hd
    rw [← he]
    exact ht
  · have hpar : b.parent ∉ Free F ∪ L := fun hp => by
      have hin : b.start ∈ b.parent := Block.mem_parent.mpr (Or.inl b.start_mem)
      have := congrArg Block.order (h.tiles.unique _ (Or.inl hp) b hbm b.start hin b.start_mem)
      simp at this
    rw [hfree]
    refine ⟨Set.disjoint_left.mpr fun d hd hd' => ?_,Set.disjoint_left.mpr fun d hd hd' => ?_⟩
    · rcases hd' with hd' | rfl
      · exact (h.free_apart hd.1).1 hd'
      · exact hpar (Or.inl hd.1)
    · rw [Set.mem_singleton_iff.mp hd'] at hd
      exact hpar (Or.inr hd)
  · intro d hd
    rcases hd with hd | rfl
    · exact h.small d (Or.inl hd)
    · exact ho
  · intro d hd
    rw [hfree] at hd
    rw [hty2, Function.update_of_ne (hother d (Or.inl (Or.inl hd.1)) (fun he => hbF (he ▸ hd.1)) hd.2)]
    exact h.free d hd.1
  · intro d hd
    rw [hty2, hord2, hord1, Function.update_of_ne (hother d (Or.inl (Or.inr hd)) (fun he => hbL (he ▸ hd))
      fun he => hcL (he ▸ hd))]
    exact h.live d hd
  · intro d hd
    rw [Set.mem_singleton_iff.mp hd, hty2, ← b.lower_start, Function.update_apply]
    split_ifs
    · rfl
    · exact hsome _ hlow
  · intro d hd n hn hne
    rw [hty2, Function.update_apply]
    split_ifs with hs
    · rfl
    · rcases hd with (hd | hd) | rfl
      · rw [hfree] at hd
        exact h.tail d (Or.inl (Or.inl hd.1)) n hn hne
      · exact h.tail d (Or.inl (Or.inr hd)) n hn hne
      · -- a frame of the joined block is one of its halves
        rw [← b.lower_start] at hne
        rcases Block.mem_parent.mp hn with hn | hn
        · refine h.tail b hbm n hn fun he => ?_
          rcases b.lower_upper with ⟨h1,_⟩ | ⟨_,h1⟩
          · exact hne (he.trans (by rw [h1]))
          · exact hs (he.trans (by rw [h1]))
        · refine h.tail b.buddy hcm n hn fun he => ?_
          rcases b.lower_upper with ⟨_,h1⟩ | ⟨h1,_⟩
          · exact hs (he.trans (by rw [h1]))
          · exact hne (he.trans (by rw [h1]))
  · intro n hn hR t ht
    refine h.outside n hn hR t ?_
    rw [hty2, Function.update_of_ne] at ht
    · exact ht
    · rintro rfl
      rcases hup with hu | hu
      · rw [hu] at hn
        exact hn (h.mem_added hbm b.start_mem)
      · rw [hu] at hn
        exact hn (h.mem_added hcm b.buddy.start_mem)
  · refine ⟨fun d hd => ?_,fun n => by rw [hty2, isSome_update (hsome _ hup)]⟩
    have hd1 := hother d (Or.inl (Or.inr hd)) (fun he => hbL (he ▸ hd)) fun he => hcL (he ▸ hd)
    rw [hfr2 _ hd1, hun1 _ (Set.notMem_empty _) fun e he hs => ?_]
    have := h.start_inj (Or.inl (Or.inl he)) (Or.inl (Or.inr hd)) hs
    exact (h.free_apart he).1 (this ▸ hd)

end Inv
end Lilith.Buddy
