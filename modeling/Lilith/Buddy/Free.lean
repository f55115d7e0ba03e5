import Lilith.Buddy.Invariant

/-! Freeing a block: merging it with its buddies keeps the invariant, and the merged block goes on a list. -/
namespace Lilith.Buddy
open Theory BuddyAllocator

variable {st st' : BuddyAllocator} {F : ℕ → List ℕ} {L H : Set Block} {A R : Set ℕ} {b c : Block} {n o fi fi' order order' : ℕ}

/-- The loop of `merge`, started at a block, can come to another one. -/
inductive Merging (self : BuddyAllocator) (fi order : ℕ) : BuddyAllocator → ℕ → ℕ → Prop
  | refl : Merging self fi order self fi order
  | step {self' self'' : BuddyAllocator} {fi' order' lower : ℕ} (h : Merging self fi order self' fi' order')
      (ho : order' < MAX_ORDER) (hstep : self'.mergeStep fi' order' = .ok (some (lower,self''))) :
      Merging self fi order self'' lower (order' + 1)

/-- `merge` looks at the `FrameInfo` of frame `n`. -/
def Inspects (self : BuddyAllocator) (fi order n : ℕ) : Prop :=
  ∃ self' fi' order', Merging self fi order self' fi' order' ∧ order' < MAX_ORDER ∧ n = getBuddy fi' order'

lemma Merging.head {st1 : BuddyAllocator} {lower : ℕ} (ho : order < MAX_ORDER)
    (hstep : st.mergeStep fi order = .ok (some (lower,st1))) (h : Merging st1 lower (order + 1) st' fi' order') :
    Merging st fi order st' fi' order' := by
  induction h with
  | refl => exact .step .refl ho hstep
  | step _ ho' hstep' ih => exact .step ih ho' hstep'

lemma Merging.cases_head (h : Merging st fi order st' fi' order') : (st' = st ∧ fi' = fi ∧ order' = order) ∨
    ∃ st1 lower, order < MAX_ORDER ∧ st.mergeStep fi order = .ok (some (lower,st1)) ∧
      Merging st1 lower (order + 1) st' fi' order' := by
  induction h with
  | refl => exact Or.inl ⟨rfl,rfl,rfl⟩
  | step _ ho hstep ih =>
    rcases ih with ⟨rfl,rfl,rfl⟩ | ⟨st1,lower,h1,h2,h3⟩
    · exact Or.inr ⟨_,_,ho,hstep,.refl⟩
    · exact Or.inr ⟨st1,lower,h1,h2,.step h3 ho hstep⟩

/-- The first `FrameInfo` that `merge` looks at, and the other ones. -/
lemma Inspects.head (h : Inspects st fi order n) : (order < MAX_ORDER ∧ n = getBuddy fi order) ∨
    ∃ st1 lower, order < MAX_ORDER ∧ st.mergeStep fi order = .ok (some (lower,st1)) ∧
      Inspects st1 lower (order + 1) n := by
  obtain ⟨st',fi',order',hm,ho,hn⟩ := h
  rcases hm.cases_head with ⟨rfl,rfl,rfl⟩ | ⟨st1,lower,h1,h2,h3⟩
  · exact Or.inl ⟨ho,hn⟩
  · exact Or.inr ⟨st1,lower,h1,h2,st',fi',order',h3,ho,hn⟩

lemma Inspects.cons {st1 : BuddyAllocator} {lower : ℕ} (ho : order < MAX_ORDER)
    (hstep : st.mergeStep fi order = .ok (some (lower,st1))) (h : Inspects st1 lower (order + 1) n) :
    Inspects st fi order n := by
  obtain ⟨st',fi',order',hm,ho',hn⟩ := h
  exact ⟨st',fi',order',hm.head ho hstep,ho',hn⟩

lemma mergeStep_dangling (h : st.ty (getBuddy fi order) = none) : st.mergeStep fi order = .error .dangling := by
  have hf : st.frames (getBuddy fi order) = none := Option.map_eq_none_iff.mp h
  simp only [BuddyAllocator.mergeStep, BuddyAllocator.frameInfo, hf, bind, Except.bind]

namespace Inv

/-- A round of the loop of `merge`: it ends, or joins the block with its buddy from the list. -/
lemma mergeStep (h : Inv st F L {b} A ∅) (ho : b.order < MAX_ORDER) (hacc : (st.ty b.buddy.start).isSome) :
    (st.mergeStep b.start b.order = .ok none ∧ b.buddy ∉ Free F) ∨
    b.buddy ∈ Free F ∧ ∃ st' F', st.mergeStep b.start b.order = .ok (some (b.parent.start,st')) ∧
      Inv st' F' L {b.parent} A ∅ ∧ KeepsLive st st' L ∧ Free F' ⊆ Free F := by
  obtain ⟨t,ht⟩ := Option.isSome_iff_exists.mp hacc
  have hno : t ≠ .buddy → b.buddy ∉ Free F := fun hne hb => hne (Option.some.inj (ht.symm.trans (h.free _ hb)))
  obtain ⟨fi,hfi,rfl⟩ := ty_some ht
  simp only [BuddyAllocator.mergeStep, getBuddy_start ho.le, frameInfo_ok hfi, bind, Except.bind]
  rcases h.at_buddy ht with hr | ⟨hb,c,hc,hs⟩ | ha | hsl
  · simp only [hr]
    exact Or.inl ⟨rfl,hno (by simp [hr])⟩
  · have hord := h.lists.order c hc
    rw [hs] at hord
    simp only [hb, read_ok hord]
    by_cases he : c.order = b.order
    · -- the buddy is free as a whole
      obtain rfl : c = b.buddy := Block.ext_start he hs
      obtain ⟨xs,ys,hF⟩ := Lists.split_nodes hc
      obtain ⟨st1,st2,r1,r2,hinv,hkeep⟩ := h.join ho hc hF
      refine Or.inr ⟨hc,st2,_,?_,hinv,hkeep,?_⟩
      · simp only [he, ne_eq, not_true_eq_false, if_false, r1, sortBuddies_start ho.le, r2]
        rfl
      · have hrem : Free (Function.update F b.order (xs ++ ys)) = Free F \ {b.buddy} := free_remove h.lists hc hF
        rw [hrem]
        exact Set.sdiff_subset
    · simp only [ne_eq, he, not_false_eq_true, if_true]
      refine Or.inl ⟨rfl,fun hb' => he ?_⟩
      rw [h.start_inj (Or.inl (Or.inl hc)) (Or.inl (Or.inl hb')) hs]
      rfl
  · simp only [ha]
    exact Or.inl ⟨rfl,hno (by simp [ha])⟩
  · simp only [hsl]
    exact Or.inl ⟨rfl,hno (by simp [hsl])⟩

/-- The invariant holds wherever the loop comes to. -/
lemma merging (h : Inv st F L {b} A ∅) (hm : Merging st b.start b.order st' fi' order') (hle : b.order ≤ MAX_ORDER) :
    ∃ c F', fi' = c.start ∧ order' = c.order ∧ c.order ≤ MAX_ORDER ∧ Inv st' F' L {c} A ∅ := by
  induction hm with
  | refl => exact ⟨b,F,rfl,rfl,hle,h⟩
  | @step self' self'' fi1 order1 lower _ ho hstep ih =>
    obtain ⟨c,F',rfl,rfl,_,hinv⟩ := ih
    cases hacc : self'.ty c.buddy.start with
    | none =>
      rw [mergeStep_dangling (by rw [getBuddy_start ho.le]; exact hacc)] at hstep
      simp at hstep
    | some t =>
      rcases hinv.mergeStep ho (by rw [hacc]; rfl) with ⟨h1,_⟩ | ⟨_,st2,F2,h1,h2,_⟩
      · rw [h1] at hstep
        simp at hstep
      · rw [h1] at hstep
        simp only [Except.ok.injEq, Option.some.injEq, Prod.mk.injEq] at hstep
        obtain ⟨rfl,rfl⟩ := hstep
        exact ⟨c.parent,F2,rfl,rfl,ho,h2⟩

/-- The loop of `merge`: it ends with the merged block, whose buddy is not free, if every `FrameInfo` that it looks
at is mapped, and else it comes to one that is not. -/
lemma mergeLoop (count : ℕ) (h : Inv st F L {b} A ∅) (ho : b.order + count = MAX_ORDER) :
    (∃ c F' st', mergeLoop count st b.start b.order = .ok (c.start,c.order,st') ∧ c.order ≤ MAX_ORDER ∧
      Inv st' F' L {c} A ∅ ∧ KeepsLive st st' L ∧ (∀ n, Inspects st b.start b.order n → (st.ty n).isSome) ∧
      Free F' ⊆ Free F ∧ (c.order < MAX_ORDER → c.buddy ∉ Free F')) ∨
    BuddyAllocator.mergeLoop count st b.start b.order = .error .dangling ∧
      ∃ n, Inspects st b.start b.order n ∧ st.ty n = none := by
  induction count generalizing st F b with
  | zero =>
    refine Or.inl ⟨b,F,st,rfl,by omega,h,KeepsLive.refl st L,fun n hn => ?_,subset_rfl,fun hlt => by omega⟩
    rcases hn.head with ⟨hlt,_⟩ | ⟨_,_,hlt,_⟩ <;> omega
  | succ count ih =>
    have hlt : b.order < MAX_ORDER := by omega
    have hfirst : Inspects st b.start b.order b.buddy.start := ⟨st,_,_,.refl,hlt,(getBuddy_start hlt.le).symm⟩
    unfold BuddyAllocator.mergeLoop
    cases hacc : st.ty b.buddy.start with
    | none =>
      have hstep : st.mergeStep b.start b.order = .error .dangling :=
        mergeStep_dangling (by rw [getBuddy_start hlt.le]; exact hacc)
      simp only [hstep, bind, Except.bind]
      exact Or.inr ⟨trivial,_,hfirst,hacc⟩
    | some t =>
      have hmapped : (st.ty b.buddy.start).isSome := by rw [hacc]; rfl
      rcases h.mergeStep hlt hmapped with ⟨h1,hno⟩ | ⟨_,st1,F1,h1,h2,h3,hsub1⟩
      · simp only [h1, bind, Except.bind]
        refine Or.inl ⟨b,F,st,rfl,hlt.le,h,KeepsLive.refl st L,fun n hn => ?_,subset_rfl,fun _ => hno⟩
        rcases hn.head with ⟨_,rfl⟩ | ⟨st1,lower,_,hstep,_⟩
        · rw [getBuddy_start hlt.le]
          exact hmapped
        · rw [h1] at hstep
          simp at hstep
      · simp only [h1, bind, Except.bind]
        rcases ih h2 (by simp only [Block.parent_order]; omega) with
          ⟨c,F2,st2,h4,h5,h6,h7,h8,hsub2,hno⟩ | ⟨h4,n,h5,h6⟩
        · refine Or.inl ⟨c,F2,st2,h4,h5,h6,h3.trans h7,fun n hn => ?_,hsub2.trans hsub1,hno⟩
          rcases hn.head with ⟨_,rfl⟩ | ⟨st1,lower,_,hstep,hrest⟩
          · rw [getBuddy_start hlt.le]
            exact hmapped
          · rw [h1] at hstep
            obtain ⟨rfl,rfl⟩ := Prod.mk.inj (Option.some.inj (Except.ok.inj hstep))
            rw [← h3.mapped]
            exact h8 n hrest
        · refine Or.inr ⟨h4,n,Inspects.cons hlt h1 h5,?_⟩
          have := h3.mapped n
          rw [h6] at this
          exact Option.not_isSome_iff_eq_none.mp (by rw [← this]; simp)

/-- Putting a block that is worked on on the list of its order. -/
lemma putBack (h : Inv st F L (insert b H) A R) (hbH : b ∉ H) :
    ∃ st1 st', st.insert (.head b.order) (.frame b.start) = .ok st1 ∧ st1.setTy b.start .buddy = .ok st' ∧
      Inv st' (Function.update F b.order (F b.order ++ [b.index])) L H A R ∧ KeepsLive st st' (L ∪ H) := by
  have hbo : b.order ≤ MAX_ORDER := h.small b (Or.inr (Or.inl rfl))
  have hbm : b ∈ Free F ∪ L ∪ insert b H := Or.inr (Or.inl rfl)
  have hbF : b ∉ Free F := fun hf => (h.free_apart hf).2 (Or.inl rfl)
  have hbL : b ∉ L := fun hl => (h.live_apart hl).2 (Or.inl rfl)
  have hsome : (st.ty b.start).isSome := h.held b (Or.inl rfl)
  have hout : ∀ c ∈ Free F, c.start ≠ b.start := fun c hc he =>
    hbF (h.start_inj (Or.inl (Or.inl hc)) hbm he ▸ hc)
  have hother : ∀ c ∈ L ∪ H, c ∈ Free F ∪ L ∪ insert b H ∧ c.start ≠ b.start ∧ c ∉ Free F := fun c hc => by
    have hcm : c ∈ Free F ∪ L ∪ insert b H := hc.elim (fun hl => Or.inl (Or.inr hl)) fun hh => Or.inr (Or.inr hh)
    refine ⟨hcm,fun he => ?_,fun hf => ?_⟩
    · obtain rfl := h.start_inj hcm hbm he
      exact hc.elim hbL hbH
    · exact hc.elim (h.free_apart hf).1 fun hh => (h.free_apart hf).2 (Or.inr hh)
  obtain ⟨st1,r1,hl1,hty1,hun1⟩ := h.lists.insert hbo hsome hout
  obtain ⟨st2,r2,hn2,hp2,hord2,hty2,_,hfr2⟩ := setTy_ok (hty1 ▸ hsome) .buddy
  rw [hty1] at hty2
  have hfree : Free (Function.update F b.order (F b.order ++ [b.index])) = insert b (Free F) := free_insert hbo
  have hkeep : KeepsLive st st2 (L ∪ H) := by
    refine ⟨fun c hc => ?_,fun n => by rw [hty2, isSome_update hsome]⟩
    obtain ⟨hcm,hcs,hcF⟩ := hother c hc
    rw [hfr2 _ hcs, hun1 _ (by simpa using hcs) fun d hd he => ?_]
    exact hcF (h.start_inj (Or.inl (Or.inl hd)) hcm he ▸ hd)
  have hsame : insert b (Free F) ∪ L ∪ H = Free F ∪ L ∪ insert b H := by
    ext c
    simp only [Set.mem_union, Set.mem_insert_iff]
    tauto
  refine ⟨st1,st2,r1,r2,⟨hl1.congr hn2 hp2 hord2,?_,?_,?_,?_,?_,?_,?_,?_⟩,hkeep⟩
  · rw [hfree, hsame]
    exact h.tiles
  · rw [hfree]
    refine ⟨Set.disjoint_left.mpr fun c hc hc' => ?_,h.apart.2.mono_right (Set.subset_insert b H)⟩
    rcases hc with rfl | hc
    · exact hc'.elim hbL hbH
    · exact (hother c hc').2.2 hc
  · exact fun c hc => h.small c (hc.imp id Or.inr)
  · intro c hc
    rw [hfree] at hc
    rw [hty2]
    rcases hc with rfl | hc
    · exact Function.update_self _ _ _
    · rw [Function.update_of_ne (hout c hc)]
      exact h.free c hc
  · intro c hc
    have hord : st2.order (.frame c.start) = st.order (.frame c.start) := by
      simp only [BuddyAllocator.order, BuddyAllocator.node, hkeep.frames c (Or.inl hc)]
    rw [hty2, Function.update_of_ne (hother c (Or.inl hc)).2.1, hord]
    exact h.live c hc
  · intro c hc
    rw [hkeep.mapped]
    exact h.held c (Or.inr hc)
  · intro c hc n hn hne
    rw [hfree, hsame] at hc
    rw [hty2, Function.update_of_ne]
    · exact h.tail c hc n hn hne
    · rintro rfl
      exact hne (by rw [h.tiles.unique c hc b hbm _ hn b.start_mem])
  · intro n hn hR t ht
    refine h.outside n hn hR t ?_
    rw [hty2, Function.update_of_ne] at ht
    · exact ht
    · rintro rfl
      exact hn (h.mem_added hbm b.start_mem)

/-- Taking a live block to free it. -/
lemma hold (h : Inv st F L ∅ A ∅) (hb : b ∈ L) : Inv st F (L \ {b}) {b} A ∅ := by
  have hsame : Free F ∪ L \ {b} ∪ {b} = Free F ∪ L ∪ ∅ := by
    ext c
    simp only [Set.mem_union, Set.mem_sdiff, Set.mem_singleton_iff, Set.mem_empty_iff_false, or_false]
    by_cases he : c = b
    · simp [he, hb]
    · simp [he]
  refine ⟨h.lists,hsame ▸ h.tiles,⟨?_,?_⟩,fun c hc => ?_,h.free,fun c hc => h.live c hc.1,fun c hc => ?_,hsame ▸ h.tail,
    h.outside⟩
  · refine h.apart.1.mono_right fun c hc => Or.inl ?_
    rcases hc with hc | rfl
    · exact hc.1
    · exact hb
  · exact Set.disjoint_sdiff_left
  · rcases hc with hc | rfl
    · exact h.small c (Or.inl hc.1)
    · exact h.small c (Or.inl hb)
  · obtain rfl := Set.mem_singleton_iff.mp hc
    rcases h.live c hb with ⟨ht,_⟩ | ht <;> rw [ht] <;> rfl

/-- While a live block is freed, `merge` only looks at buddies of blocks of added frames. -/
lemma inspects_block (h : Inv st F L ∅ A ∅) (hb : b ∈ L) (hn : Inspects st b.start b.order n) :
    ∃ c : Block, c.order < MAX_ORDER ∧ (∀ m ∈ c, m ∈ A) ∧ n = c.buddy.start := by
  obtain ⟨st',fi,o,hm,ho,rfl⟩ := hn
  obtain ⟨c,F',rfl,rfl,_,hinv⟩ := (h.hold hb).merging hm (h.small b (Or.inl hb))
  exact ⟨c,ho,fun m hm => hinv.mem_added (Or.inr rfl) hm,getBuddy_start ho.le⟩

/-- `free` of a live block: it is on a list, maybe merged with others, unless `merge` looks at a `FrameInfo` that
is not mapped. -/
theorem free_cases (h : Inv st F L ∅ A ∅) (hb : b ∈ L) :
    (∃ st' F', st.free (b.start * FRAME_SIZE) b.order = .ok st' ∧ Inv st' F' (L \ {b}) ∅ A ∅ ∧
      KeepsLive st st' (L \ {b}) ∧ (∀ n, Inspects st b.start b.order n → (st.ty n).isSome) ∧
      (Coalesced MAX_ORDER (Free F) → Coalesced MAX_ORDER (Free F'))) ∨
    st.free (b.start * FRAME_SIZE) b.order = .error .dangling ∧ ∃ n, Inspects st b.start b.order n ∧ st.ty n = none := by
  have hbo : b.order ≤ MAX_ORDER := h.small b (Or.inl hb)
  have hdiv : b.start * FRAME_SIZE / FRAME_SIZE = b.start := Nat.mul_div_cancel _ (by decide)
  rcases (h.hold hb).mergeLoop (MAX_ORDER - b.order) (by omega) with ⟨c,F1,st1,h1,h2,h3,h4,hacc,hsub,hno⟩ | ⟨h1,h2⟩
  · have h3 : Inv st1 F1 (L \ {b}) (insert c ∅) A ∅ := by
      rw [insert_empty_eq]
      exact h3
    obtain ⟨st2,st3,h5,h6,h7,h8⟩ := h3.putBack (Set.notMem_empty c)
    rw [Set.union_empty] at h8
    refine Or.inl ⟨st3,_,?_,h7,h4.trans h8,hacc,fun hco => ?_⟩
    · have hhead : head c.order = .ok (.head c.order) := if_pos h2
      simp only [BuddyAllocator.free, hdiv, BuddyAllocator.merge, h1, hhead, h5, h6, bind, Except.bind]
    · rw [free_insert h2]
      exact (hco.mono hsub).insert hno
  · refine Or.inr ⟨?_,h2⟩
    simp only [BuddyAllocator.free, hdiv, BuddyAllocator.merge, h1, bind, Except.bind]

end Inv

/-- A buddy without a `FrameInfo` is a fault. -/
lemma free_dangling (ho : b.order < MAX_ORDER) (h : st.ty b.buddy.start = none) :
    st.free (b.start * FRAME_SIZE) b.order = .error .dangling := by
  obtain ⟨k,hk⟩ : ∃ k, MAX_ORDER - b.order = k + 1 := ⟨MAX_ORDER - b.order - 1,by omega⟩
  have hstep : st.mergeStep b.start b.order = .error .dangling := by
    apply mergeStep_dangling
    rw [getBuddy_start ho.le]
    exact h
  simp only [BuddyAllocator.free, Nat.mul_div_cancel _ (by decide : 0 < FRAME_SIZE), BuddyAllocator.merge, hk,
    BuddyAllocator.mergeLoop, hstep, bind, Except.bind]

end Lilith.Buddy
