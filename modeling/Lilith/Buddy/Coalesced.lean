import Lilith.Buddy.Runs

/-! Fragmentation. A state is coalesced if no two free buddies could be merged. All operations keep it so, and
since frames are tiled by such blocks in one way only, a run that frees what it allocated ends with the free blocks
that it began with. -/
namespace Lilith.Buddy
open Theory BuddyAllocator

variable {mapped : ℕ → Bool} {U : Set ℕ} {u u' : Usage} {st st' : BuddyAllocator} {F : ℕ → List ℕ} {L : Set Block}
  {A : Set ℕ} {b : Block}

/-- The free blocks of a state: a frame is marked as the start of one, and its list node has the order. -/
def freeBlocks (st : BuddyAllocator) : Set Block :=
  { b | b.order ≤ MAX_ORDER ∧ st.ty b.start = some .buddy ∧ st.order (.frame b.start) = some b.order }

/-- No free block below the largest order has a free buddy. -/
def IsCoalesced (st : BuddyAllocator) : Prop := Coalesced MAX_ORDER (freeBlocks st)

/-- The free blocks are those on the lists. -/
lemma Inv.freeBlocks_eq (h : Inv st F L ∅ A ∅) : freeBlocks st = Free F := by
  ext b
  constructor
  · rintro ⟨_,hty,hord⟩
    have hA : b.start ∈ A := by
      by_contra hA
      have := h.outside _ hA (Set.notMem_empty _) _ hty
      simp at this
    obtain ⟨c,hc,hm⟩ := (h.tiles.cover _).mp hA
    have hs : c.start = b.start := by
      by_contra hne
      rw [h.tail c hc _ hm (Ne.symm hne)] at hty
      simp at hty
    rcases hc with (hc | hc) | hc
    · have ho := h.lists.order c hc
      rw [hs, hord] at ho
      rw [Block.ext_start (Option.some.inj ho) hs.symm]
      exact hc
    · have hl := h.live c hc
      rw [hs, hty] at hl
      rcases hl with ⟨hl,_⟩ | hl <;> simp at hl
    · exact absurd hc (Set.notMem_empty c)
  · intro hb
    exact ⟨hb.1,h.free b hb,h.lists.order b hb⟩

lemma handles_inj {L' : Set Block} (h : handles L = handles L') : L = L' := by
  have hsub : ∀ {L L' : Set Block}, handles L = handles L' → L ⊆ L' := by
    intro L L' h b hb
    obtain ⟨c,hc,he⟩ : (b.start * FRAME_SIZE,b.order) ∈ handles L' := h ▸ ⟨b,hb,rfl⟩
    exact handle_inj he ▸ hc
  exact (hsub h).antisymm (hsub h.symm)

/-- Runs of `alloc` and `free` from `u` on, with the blocks that were allocated in the run and not freed: only
these are freed. -/
inductive Churns (u : Usage) : Usage → Set (ℕ × ℕ) → Prop
  | refl : Churns u u ∅
  | alloc {u1 : Usage} {held : Set (ℕ × ℕ)} {st' : BuddyAllocator} {addr order : ℕ} (h : Churns u u1 held)
      (ho : order ≤ MAX_ORDER) (hrun : u1.buddy.alloc order = .ok (.ok addr,st')) :
      Churns u ⟨st',u1.added,insert (addr,order) u1.live⟩ (insert (addr,order) held)
  | allocFails {u1 : Usage} {held : Set (ℕ × ℕ)} {st' : BuddyAllocator} {err : MemoryError} {order : ℕ}
      (h : Churns u u1 held) (ho : order ≤ MAX_ORDER) (hrun : u1.buddy.alloc order = .ok (.error err,st')) :
      Churns u ⟨st',u1.added,u1.live⟩ held
  | free {u1 : Usage} {held : Set (ℕ × ℕ)} {st' : BuddyAllocator} {addr order : ℕ} (h : Churns u u1 held)
      (hl : (addr,order) ∈ held) (hrun : u1.buddy.free addr order = .ok st') :
      Churns u ⟨st',u1.added,u1.live \ {(addr,order)}⟩ (held \ {(addr,order)})

/-- `alloc` keeps a state coalesced. -/
lemma Inv.alloc_coalesced (h : Inv st F L ∅ A ∅) (hco : IsCoalesced st) {order : ℕ} {res : Except MemoryError ℕ}
    (hrun : st.alloc order = .ok (res,st')) : IsCoalesced st' := by
  have ho : order ≤ MAX_ORDER := by
    obtain ⟨_,hassert,_⟩ := bind_ok hrun
    exact assert_ok hassert
  rcases h.alloc_ok ho with ⟨h1,_⟩ | ⟨_,b,st1,F1,h1,_,_,h2,_,hkeep⟩
  · obtain ⟨_,rfl⟩ := Prod.mk.inj (Except.ok.inj (h1.symm.trans hrun))
    exact hco
  · obtain ⟨_,rfl⟩ := Prod.mk.inj (Except.ok.inj (h1.symm.trans hrun))
    unfold IsCoalesced at hco ⊢
    rw [h.freeBlocks_eq] at hco
    rw [h2.freeBlocks_eq]
    exact hkeep hco

/-- `free` keeps a state coalesced. -/
lemma Inv.free_coalesced (h : Inv st F L ∅ A ∅) (hco : IsCoalesced st) (hb : b ∈ L)
    (hrun : st.free (b.start * FRAME_SIZE) b.order = .ok st') : IsCoalesced st' := by
  rcases h.free_cases hb with ⟨st1,F1,h1,h2,_,_,hkeep⟩ | ⟨h1,_⟩
  · obtain rfl := Except.ok.inj (h1.symm.trans hrun)
    unfold IsCoalesced at hco ⊢
    rw [h.freeBlocks_eq] at hco
    rw [h2.freeBlocks_eq]
    exact hkeep hco
  · rw [h1] at hrun
    simp at hrun

/-- `buddy_add_range` keeps a state coalesced, if the frames before and behind the range are not free. -/
lemma Inv.addRange_coalesced (h : Inv st F L ∅ A ∅) (hco : IsCoalesced st) {n e : ℕ}
    (hres : ∀ m ∈ frameRange n e, st.ty m = some .reserved)
    (hnb : ∀ b ∈ freeBlocks st, e ∉ b ∧ (0 < n → n-1 ∉ b))
    (hrun : st.addRange (n * FRAME_SIZE) (e * FRAME_SIZE) = .ok st') : IsCoalesced st' := by
  obtain ⟨st1,F1,h1,h2,_,hkeep⟩ := h.addRange_ok hres
  obtain rfl := Except.ok.inj (h1.symm.trans hrun)
  unfold IsCoalesced at hco ⊢
  rw [h.freeBlocks_eq] at hco hnb
  rw [h2.freeBlocks_eq]
  exact hkeep hnb hco

/-- A run of `alloc` and `free` from a reachable, coalesced state. -/
lemma Churns.reach {held : Set (ℕ × ℕ)} (h : Churns u u' held) (hu : Reach mapped U u) (hco : IsCoalesced u.buddy) :
    Reach mapped U u' ∧ IsCoalesced u'.buddy ∧ u'.added = u.added ∧ u'.live = u.live ∪ held ∧ Disjoint u.live held := by
  induction h with
  | refl => exact ⟨hu,hco,rfl,(Set.union_empty _).symm,Set.disjoint_empty _⟩
  | @alloc u1 held st' addr order h ho hrun ih =>
    obtain ⟨hr,hc,hadd,hlive,hdis⟩ := ih
    obtain ⟨F,L,hinv,hL,_⟩ := reach_inv hr
    refine ⟨hr.alloc ho hrun,hinv.alloc_coalesced hc hrun,hadd,?_,?_⟩
    · simp only [hlive, Set.union_insert]
    · rw [Set.disjoint_insert_right]
      refine ⟨fun hin => ?_,hdis⟩
      -- the block is new
      rcases hinv.alloc_ok ho with ⟨h1,_⟩ | ⟨_,b,st1,F1,h1,h2,hnew,_⟩
      · rw [h1] at hrun
        simp at hrun
      · obtain ⟨he,_⟩ := Prod.mk.inj (Except.ok.inj (h1.symm.trans hrun))
        obtain ⟨c,hc',hce⟩ : (addr,order) ∈ handles L := hL ▸ hlive.symm ▸ Or.inl hin
        rw [← Except.ok.inj he, ← h2] at hce
        exact hnew (handle_inj hce ▸ hc')
  | @allocFails u1 held st' err order h ho hrun ih =>
    obtain ⟨hr,hc,hadd,hlive,hdis⟩ := ih
    obtain ⟨F,L,hinv,_⟩ := reach_inv hr
    exact ⟨hr.allocFails ho hrun,hinv.alloc_coalesced hc hrun,hadd,hlive,hdis⟩
  | @free u1 held st' addr order h hl hrun ih =>
    obtain ⟨hr,hc,hadd,hlive,hdis⟩ := ih
    obtain ⟨F,L,hinv,hL,_⟩ := reach_inv hr
    have hin : (addr,order) ∈ u1.live := hlive ▸ Or.inr hl
    obtain ⟨b,hb,he⟩ : (addr,order) ∈ handles L := hL ▸ hin
    refine ⟨hr.free hin hrun,?_,hadd,?_,hdis.mono_right Set.sdiff_subset⟩
    · obtain ⟨rfl,rfl⟩ := Prod.mk.inj he
      exact hinv.free_coalesced hc hb hrun
    · have hout : (addr,order) ∉ u.live := fun hin => Set.disjoint_left.mp hdis hin hl
      simp only [hlive, Set.union_sdiff_distrib, Set.sdiff_singleton_eq_self hout]

/-- The free blocks of a coalesced state are determined by the frames that were added and the live blocks. -/
lemma freeBlocks_unique (hu : Reach mapped U u) (hu' : Reach mapped U u') (hco : IsCoalesced u.buddy)
    (hco' : IsCoalesced u'.buddy) (hadd : u'.added = u.added) (hlive : u'.live = u.live) :
    freeBlocks u'.buddy = freeBlocks u.buddy := by
  obtain ⟨F,L,hinv,hL,_⟩ := reach_inv hu
  obtain ⟨F',L',hinv',hL',_⟩ := reach_inv hu'
  obtain rfl : L' = L := handles_inj (by rw [← hL, ← hL', hlive])
  have htiles : ∀ {st : BuddyAllocator} {F : ℕ → List ℕ}, Inv st F L' ∅ u.added ∅ →
      Tiles (Free F) { n | n ∈ u.added ∧ ∀ c ∈ L', n ∉ c } := by
    intro st F h
    have ht := h.tiles
    have hd := h.apart.1
    rw [Set.union_empty] at ht hd
    exact ht.of_union hd
  rw [hadd] at hinv'
  unfold IsCoalesced at hco hco'
  rw [hinv.freeBlocks_eq] at hco ⊢
  rw [hinv'.freeBlocks_eq] at hco' ⊢
  exact hco'.unique hco (htiles hinv') (htiles hinv) (fun b hb => hb.1) fun b hb => hb.1

/-- In every reachable coalesced state, adding a range with no free neighbours, `alloc` and `free` keep the state
coalesced, and every run of `alloc` and `free` that frees all blocks it allocated ends with the free blocks that it
began with. -/
theorem coalesced_runs (h : Reach mapped Set.univ u) (hco : IsCoalesced u.buddy) :
    (∀ n e st', (∀ m ∈ frameRange n e, u.buddy.ty m = some .reserved) →
      (∀ b ∈ freeBlocks u.buddy, e ∉ b ∧ (0 < n → n-1 ∉ b)) →
      u.buddy.addRange (n * FRAME_SIZE) (e * FRAME_SIZE) = .ok st' → IsCoalesced st') ∧
    (∀ order res st', u.buddy.alloc order = .ok (res,st') → IsCoalesced st') ∧
    (∀ addr order st', (addr,order) ∈ u.live → u.buddy.free addr order = .ok st' → IsCoalesced st') ∧
    ∀ u', Churns u u' ∅ → freeBlocks u'.buddy = freeBlocks u.buddy := by
  obtain ⟨F,L,hinv,hL,_⟩ := reach_inv h
  refine ⟨fun n e st' => hinv.addRange_coalesced hco,fun order res st' => hinv.alloc_coalesced hco,?_,?_⟩
  · intro addr order st' hl hrun
    obtain ⟨b,hb,he⟩ : (addr,order) ∈ handles L := hL ▸ hl
    obtain ⟨rfl,rfl⟩ := Prod.mk.inj he
    exact hinv.free_coalesced hco hb hrun
  · intro u' hrun
    obtain ⟨hr,hco',hadd,hlive,_⟩ := hrun.reach h hco
    rw [Set.union_empty] at hlive
    exact freeBlocks_unique h hr hco hco' hadd hlive

/-- Allocating two of four frames and freeing them again. -/
theorem coalesced_runs_small : ∃ st1 st2 st3, (init fun _ => true).addRange (0 * FRAME_SIZE) (4 * FRAME_SIZE) = .ok st1 ∧
    st1.alloc 1 = .ok (.ok 0,st2) ∧ st2.free 0 1 = .ok st3 ∧ IsCoalesced st1 ∧ freeBlocks st3 = freeBlocks st1 := by
  have hnone : freeBlocks (init fun _ => true) = ∅ := by
    ext b
    simp [freeBlocks, BuddyAllocator.ty, BuddyAllocator.init]
  have hco0 : IsCoalesced (init fun _ => true) := by
    unfold IsCoalesced
    rw [hnone]
    intro b hb
    exact absurd hb (Set.notMem_empty b)
  have h0 : Reach (fun _ => true) Set.univ ⟨init fun _ => true,∅,∅⟩ := .init
  have hres : ∀ m ∈ frameRange 0 4, (init fun _ => true).ty m = some .reserved := fun m _ => rfl
  obtain ⟨st1,hst1⟩ : ∃ st1, (init fun _ => true).addRange (0 * FRAME_SIZE) (4 * FRAME_SIZE) = .ok st1 := ⟨_,rfl⟩
  have hco1 : IsCoalesced st1 := (coalesced_runs h0 hco0).1 0 4 st1 hres (by simp [hnone]) hst1
  have h1 := h0.addRange (Set.subset_univ _) hres hst1
  obtain ⟨st2,st3,hst2,hst3⟩ : ∃ st2 st3, st1.alloc 1 = .ok (.ok 0,st2) ∧ st2.free 0 1 = .ok st3 := by
    obtain rfl := Except.ok.inj hst1
    exact ⟨_,_,rfl,rfl⟩
  have hrun0 : Churns ⟨st1,∅ ∪ frameRange 0 4,∅⟩ ⟨st1,∅ ∪ frameRange 0 4,∅⟩ ∅ := .refl
  have hrun := (hrun0.alloc (by decide) hst2).free (Set.mem_insert _ _) hst3
  have hempty : insert (0,1) ∅ \ {(0,1)} = (∅ : Set (ℕ × ℕ)) := by simp
  rw [hempty] at hrun
  exact ⟨st1,st2,st3,hst1,hst2,hst3,hco1,(coalesced_runs h1 hco1).2.2.2 _ hrun⟩

end Lilith.Buddy
