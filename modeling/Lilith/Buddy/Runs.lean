import Lilith.Buddy.AddRange

/-! Runs of the buddy allocator. -/
namespace Lilith.Buddy
open Theory BuddyAllocator

/-- The allocator with what its callers know: the frames that were added, and the address and the order of each
block that was allocated and not freed. -/
structure Usage where
  buddy : BuddyAllocator
  added : Set ℕ
  live : Set (ℕ × ℕ)

/-- The states that successful calls lead to, where only frames of `U` are added. -/
inductive Reach (mapped : ℕ → Bool) (U : Set ℕ) : Usage → Prop
  | init : Reach mapped U ⟨init mapped,∅,∅⟩
  | addRange {u : Usage} {st' : BuddyAllocator} {n e : ℕ} (h : Reach mapped U u) (hU : frameRange n e ⊆ U)
      (hres : ∀ m ∈ frameRange n e, u.buddy.ty m = some .reserved)
      (hrun : u.buddy.addRange (n * FRAME_SIZE) (e * FRAME_SIZE) = .ok st') :
      Reach mapped U ⟨st',u.added ∪ frameRange n e,u.live⟩
  | alloc {u : Usage} {st' : BuddyAllocator} {addr order : ℕ} (h : Reach mapped U u) (ho : order ≤ MAX_ORDER)
      (hrun : u.buddy.alloc order = .ok (.ok addr,st')) : Reach mapped U ⟨st',u.added,insert (addr,order) u.live⟩
  | allocFails {u : Usage} {st' : BuddyAllocator} {err : MemoryError} {order : ℕ} (h : Reach mapped U u)
      (ho : order ≤ MAX_ORDER) (hrun : u.buddy.alloc order = .ok (.error err,st')) :
      Reach mapped U ⟨st',u.added,u.live⟩
  | free {u : Usage} {st' : BuddyAllocator} {addr order : ℕ} (h : Reach mapped U u) (hl : (addr,order) ∈ u.live)
      (hrun : u.buddy.free addr order = .ok st') : Reach mapped U ⟨st',u.added,u.live \ {(addr,order)}⟩

/-- What the callers know of live blocks. -/
def handles (L : Set Block) : Set (ℕ × ℕ) := { p | ∃ b ∈ L, p = (b.start * FRAME_SIZE,b.order) }

variable {mapped : ℕ → Bool} {U : Set ℕ} {u : Usage} {st : BuddyAllocator} {F : ℕ → List ℕ} {L : Set Block} {A : Set ℕ}
  {b c : Block} {n e order : ℕ}

lemma handle_inj (h : (b.start * FRAME_SIZE,b.order) = (c.start * FRAME_SIZE,c.order)) : b = c := by
  obtain ⟨h1,h2⟩ := Prod.mk.inj h
  exact Block.ext_start h2 (Nat.eq_of_mul_eq_mul_right (by decide) h1)

lemma handles_insert : handles (insert b L) = insert (b.start * FRAME_SIZE,b.order) (handles L) := by
  ext p
  simp only [handles, Set.mem_ofPred_eq, Set.mem_insert_iff, exists_eq_or_imp]

lemma handles_remove : handles (L \ {b}) = handles L \ {(b.start * FRAME_SIZE,b.order)} := by
  ext p
  simp only [handles, Set.mem_ofPred_eq, Set.mem_sdiff, Set.mem_singleton_iff]
  constructor
  · rintro ⟨c,⟨hc,hne⟩,rfl⟩
    exact ⟨⟨c,hc,rfl⟩,fun he => hne (handle_inj he)⟩
  · rintro ⟨⟨c,hc,rfl⟩,hne⟩
    refine ⟨c,⟨hc,?_⟩,rfl⟩
    rintro rfl
    exact hne rfl

/-- The state after `init`. -/
lemma Inv.init (mapped : ℕ → Bool) : Inv (BuddyAllocator.init mapped) (fun _ => []) ∅ ∅ ∅ ∅ := by
  have hfree : Free (fun _ => []) = ∅ := by
    ext b
    simp [Free]
  have hnode : ∀ o ≤ MAX_ORDER, (BuddyAllocator.init mapped).node (.head o) = some ⟨.head o,.head o,o⟩ :=
    fun o ho => if_pos ho
  refine ⟨⟨fun o ho => Ring.nil_iff.mpr ?_,fun o ho => ?_,?_⟩,?_,?_,?_,?_,?_,?_,?_,fun m _ _ t ht => ?_⟩
  · simp [BuddyAllocator.next, BuddyAllocator.prev, hnode o ho]
  · simp [BuddyAllocator.order, hnode o ho]
  · simp [hfree]
  · rw [hfree]
    simpa using Tiles.empty
  · simp
  · simp
  · simp [hfree]
  · simp
  · simp
  · simp [hfree]
  · simp only [BuddyAllocator.ty, BuddyAllocator.init] at ht
    split_ifs at ht
    · exact (Option.some.inj ht).symm
    · simp at ht

/-- Every reachable state has the invariant, and only the frames that were mapped have a `FrameInfo`. -/
theorem reach_inv (h : Reach mapped U u) : ∃ F L, Inv u.buddy F L ∅ u.added ∅ ∧ u.live = handles L ∧
    (∀ n, (u.buddy.ty n).isSome = mapped n) ∧ u.added ⊆ U := by
  induction h with
  | init =>
    refine ⟨fun _ => [],∅,Inv.init mapped,?_,fun n => ?_,Set.empty_subset U⟩
    · ext p
      simp [handles]
    · simp only [BuddyAllocator.ty, BuddyAllocator.init]
      cases mapped n <;> rfl
  | @addRange u st' n e _ hU hres hrun ih =>
    obtain ⟨F,L,hinv,hlive,hmap,hsub⟩ := ih
    obtain ⟨st1,F1,h1,h2,h3,_⟩ := hinv.addRange_ok hres
    obtain rfl := Except.ok.inj (h1.symm.trans hrun)
    exact ⟨F1,L,h2,hlive,fun m => (h3.mapped m).trans (hmap m),Set.union_subset hsub hU⟩
  | @alloc u st' addr order _ ho hrun ih =>
    obtain ⟨F,L,hinv,hlive,hmap,hsub⟩ := ih
    rcases hinv.alloc_ok ho with ⟨h1,_⟩ | ⟨_,b,st1,F1,h1,h2,_,h3,h4,_⟩
    · rw [h1] at hrun
      simp at hrun
    · rw [h1] at hrun
      obtain ⟨he,rfl⟩ := Prod.mk.inj (Except.ok.inj hrun)
      obtain rfl := Except.ok.inj he
      refine ⟨F1,insert b L,h3,?_,fun m => (h4.mapped m).trans (hmap m),hsub⟩
      rw [handles_insert, h2, hlive]
  | @allocFails u st' err order _ ho hrun ih =>
    obtain ⟨F,L,hinv,hlive,hmap,hsub⟩ := ih
    rcases hinv.alloc_ok ho with ⟨h1,_⟩ | ⟨_,b,st1,F1,h1,_⟩
    · rw [h1] at hrun
      obtain ⟨_,rfl⟩ := Prod.mk.inj (Except.ok.inj hrun)
      exact ⟨F,L,hinv,hlive,hmap,hsub⟩
    · rw [h1] at hrun
      simp at hrun
  | @free u st' addr order _ hl hrun ih =>
    obtain ⟨F,L,hinv,hlive,hmap,hsub⟩ := ih
    rw [hlive] at hl
    obtain ⟨b,hb,he⟩ := hl
    obtain ⟨rfl,rfl⟩ := Prod.mk.inj he
    rcases hinv.free_cases hb with ⟨st1,F1,h1,h2,h3,_⟩ | ⟨h1,_⟩
    · obtain rfl := Except.ok.inj (h1.symm.trans hrun)
      refine ⟨F1,L \ {b},h2,?_,fun m => (h3.mapped m).trans (hmap m),hsub⟩
      rw [handles_remove, hlive]
    · rw [h1] at hrun
      simp at hrun

/-- The lists and the types of frames describe a partition of the added frames into free and live blocks. -/
structure Partition (u : Usage) (F : ℕ → List ℕ) (L : Set Block) : Prop where
  live : u.live = handles L
  /-- the list of each order is a ring of the blocks of `F` -/
  ring : ∀ o ≤ MAX_ORDER, Ring u.buddy.next u.buddy.prev (.head o) (nodes F o)
  tiles : Tiles (Free F ∪ L) u.added
  apart : Disjoint (Free F) L
  aligned : ∀ b ∈ Free F ∪ L, b.order ≤ MAX_ORDER ∧ 2^b.order ∣ b.start
  order : ∀ b ∈ Free F, u.buddy.order (.frame b.start) = some b.order
  type : ∀ b ∈ Free F, u.buddy.ty b.start = some .buddy ∧ ∀ n ∈ b, n ≠ b.start → u.buddy.ty n = some .buddyTail

/-- The calls that the state admits return, and `alloc` fails only if no list has a block that is large enough. -/
structure Serves (u : Usage) (F : ℕ → List ℕ) : Prop where
  addRange : ∀ n e, (∀ m ∈ frameRange n e, u.buddy.ty m = some .reserved) →
    ∃ st', u.buddy.addRange (n * FRAME_SIZE) (e * FRAME_SIZE) = .ok st'
  alloc : ∀ order ≤ MAX_ORDER, ∃ res st', u.buddy.alloc order = .ok (res,st') ∧
    ((∃ err, res = .error err) ↔ ∀ o, order ≤ o → o ≤ MAX_ORDER → F o = []) ∧
    ∀ err, res = .error err → err = .outOfMemory ∧ st' = u.buddy
  free : ∀ addr order, (addr,order) ∈ u.live →
    (∀ n, Inspects u.buddy (addr / FRAME_SIZE) order n → (u.buddy.ty n).isSome) →
    ∃ st', u.buddy.free addr order = .ok st'

/-- A round of the loop of `merge` calls `unlink` on the buddy. -/
def Unlinks (self : BuddyAllocator) (fi order : ℕ) : Prop :=
  self.ty (getBuddy fi order) = some .buddy ∧ self.order (.frame (getBuddy fi order)) = some order

/-- No round of the loop of `merge` finds a tail, and what it unlinks is on the list of its order. -/
def MergesSafely (u : Usage) : Prop :=
  ∀ addr order, (addr,order) ∈ u.live → ∀ st fi o, Merging u.buddy (addr / FRAME_SIZE) order st fi o → o < MAX_ORDER →
    st.mergeStep fi o ≠ .error tailFound ∧
    (Unlinks st fi o → ∃ xs, Ring st.next st.prev (.head o) xs ∧ .frame (getBuddy fi o) ∈ xs)

lemma Inv.serves (h : Inv u.buddy F L ∅ u.added ∅) (hlive : u.live = handles L) : Serves u F := by
  refine ⟨fun n e hres => ?_,fun order ho => ?_,fun addr order hl hacc => ?_⟩
  · obtain ⟨st',_,h1,_⟩ := h.addRange_ok hres
    exact ⟨st',h1⟩
  · rcases h.alloc_ok ho with ⟨h1,h2⟩ | ⟨⟨o,h2,h3,h4⟩,b,st',_,h1,_⟩
    · refine ⟨_,_,h1,⟨fun _ => h2,fun _ => ⟨_,rfl⟩⟩,fun err he => ⟨?_,rfl⟩⟩
      exact (Except.error.inj he).symm
    · refine ⟨_,st',h1,⟨fun ⟨err,he⟩ => ?_,fun hall => absurd (hall o h2 h3) h4⟩,fun err he => ?_⟩
      · simp at he
      · simp at he
  · rw [hlive] at hl
    obtain ⟨b,hb,he⟩ := hl
    obtain ⟨rfl,rfl⟩ := Prod.mk.inj he
    rw [Nat.mul_div_cancel _ (by decide)] at hacc
    rcases h.free_cases hb with ⟨st',_,h1,_⟩ | ⟨_,n,h1,h2⟩
    · exact ⟨st',h1⟩
    · have := hacc n h1
      rw [h2] at this
      simp at this

lemma Inv.mergesSafely (h : Inv u.buddy F L ∅ u.added ∅) (hlive : u.live = handles L) : MergesSafely u := by
  intro addr order hl st fi o hm ho
  rw [hlive] at hl
  obtain ⟨b,hb,he⟩ := hl
  obtain ⟨rfl,rfl⟩ := Prod.mk.inj he
  rw [Nat.mul_div_cancel _ (by decide)] at hm
  obtain ⟨c,F',rfl,rfl,_,hinv⟩ := (h.hold hb).merging hm (h.small b (Or.inl hb))
  rw [Unlinks, getBuddy_start ho.le]
  constructor
  · cases hacc : st.ty c.buddy.start with
    | none =>
      rw [mergeStep_dangling (by rw [getBuddy_start ho.le]; exact hacc)]
      simp [tailFound]
    | some t =>
      rcases hinv.mergeStep ho (by rw [hacc]; rfl) with ⟨h1,_⟩ | ⟨_,_,_,h1,_⟩ <;> rw [h1] <;> simp
  · intro ⟨hty,hord⟩
    obtain hr | ⟨_,d,hd,hs⟩ | ha | hsl := hinv.at_buddy hty
    · simp at hr
    · -- the order of the node is that of the block that starts there
      have hdo := hinv.lists.order d hd
      rw [hs, hord] at hdo
      refine ⟨_,hinv.lists.ring c.order ho.le,Lists.mem_nodes.mpr ⟨d.index,?_,?_⟩⟩
      · rw [Option.some.inj hdo]
        exact hd.2
      · rw [← hs, Option.some.inj hdo]
    · simp at ha
    · simp at hsl

lemma Inv.partition (h : Inv u.buddy F L ∅ u.added ∅) (hlive : u.live = handles L) : Partition u F L := by
  have htiles := h.tiles
  rw [Set.union_empty] at htiles
  have hap := h.apart.1
  rw [Set.union_empty] at hap
  refine ⟨hlive,h.lists.ring,htiles,hap,fun b hb => ⟨?_,Dvd.intro _ rfl⟩,h.lists.order,fun b hb => ⟨h.free b hb,
    h.tail b (Or.inl (Or.inl hb))⟩⟩
  rcases hb with hb | hb
  · exact hb.1
  · exact h.small b (Or.inl hb)

/-- In every run the free blocks on the lists and the live blocks partition the added frames, every call returns
as it should, and `merge` takes only blocks off a list that are on it. -/
theorem buddy_partition (mapped : ℕ → Bool) (u : Usage) (h : Reach mapped Set.univ u) :
    (∃ F L, Partition u F L ∧ Serves u F) ∧ MergesSafely u := by
  obtain ⟨F,L,hinv,hlive,_,_⟩ := reach_inv h
  exact ⟨⟨F,L,hinv.partition hlive,hinv.serves hlive⟩,hinv.mergesSafely hlive⟩

theorem buddy_partition_small : ∃ st1 st2, (init fun _ => true).addRange 0 (4 * FRAME_SIZE) = .ok st1 ∧
    st1.alloc 1 = .ok (.ok 0,st2) ∧
    (∃ F L, Partition ⟨st2,frameRange 0 4,{(0,1)}⟩ F L ∧ Serves ⟨st2,frameRange 0 4,{(0,1)}⟩ F) ∧
    MergesSafely ⟨st2,frameRange 0 4,{(0,1)}⟩ := by
  have h1 : Reach (fun _ => true) Set.univ ⟨_,∅ ∪ frameRange 0 4,∅⟩ :=
    .addRange .init (Set.subset_univ _) (fun m _ => rfl) rfl
  have h2 : Reach (fun _ => true) Set.univ ⟨_,∅ ∪ frameRange 0 4,insert (0,1) ∅⟩ := .alloc h1 (by decide) rfl
  rw [Set.empty_union, insert_empty_eq] at h2
  exact ⟨_,_,rfl,rfl,buddy_partition _ _ h2⟩

end Lilith.Buddy
