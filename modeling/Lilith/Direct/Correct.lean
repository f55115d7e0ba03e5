import Lilith.Direct.Runs

/-! What the callers of the allocator of the direct map can rely on: in all runs, if and only if no frame is outside of the
direct map and `merge` finds the `FrameInfo` of each buddy. -/
namespace Lilith.Direct
open Theory
open Buddy (BuddyAllocator FRAME_SIZE BUDDY_MAX MAX_ORDER frameRange usableFrames MemoryMap)
open Slub (Heap SLUB_MAX Inside frameAt Slab slabBlocks classSize Unmapped slot_bounds slot_apart classSize_bounds)
open Boot (Layout)

/-- The word of eight bytes at `w` has a byte of the object. -/
def Touches (w : ℕ) (p : ℕ × Layout) : Prop := ∃ b, w ≤ b ∧ b < w + 8 ∧ Inside b p

/-- The objects are where they should be, and the calls do what they should. -/
structure Correct (u : Usage) : Prop where
  aligned : ∀ p ∈ u.live, p.2.align ∣ p.1
  inside : ∀ p ∈ u.live, ∀ a, Inside a p → PHYSICAL_MEMORY_OFFSET ≤ a ∧ frameAt a ∈ u.added ∧ a ≠ ZST_SENTINEL
  apart : u.live.Pairwise fun p q => p.1 + p.2.size ≤ q.1 ∨ q.1 + q.2.size ≤ p.1
  alloc : ∀ layout, Proper layout → ∃ res h', directAlloc u.heap layout = .ok (res,h') ∧
    (effectiveSize layout ≤ BUDDY_MAX → ∀ err, res = .error err → err = .outOfMemory) ∧
    (BUDDY_MAX < effectiveSize layout → res = .error .sizeTooBig)
  /-- a free goes to the allocator of the object, with the order of its block -/
  dispatch : ∀ p ∈ u.live, directFree u.heap p.1 =
    if effectiveSize p.2 ≤ SLUB_MAX then u.heap.free p.1
    else do return { u.heap with buddy := ← u.heap.buddy.free (p.1 - PHYSICAL_MEMORY_OFFSET) (blockOrder p.2) }
  free : ∀ p ∈ u.live, ∃ h', directFree u.heap p.1 = .ok h' ∧
    ∀ q ∈ u.live, q ≠ p → ∀ w, Touches w q → h'.words w = u.heap.words w

variable {mapped : ℕ → Bool} {U : Set ℕ} {u : Usage} {h' : Heap} {st' : BuddyAllocator} {layout : Layout} {p q : ℕ × Layout}
  {a n phys : ℕ} {F : ℕ → List ℕ} {B : Set Block} {G : ℕ → Option Slab} {Q : ℕ → List ℕ} {b c : Block}

lemma pairwise_of_filter {α : Type*} {R : α → α → Prop} {P : α → Prop} [DecidablePred P] {l : List α}
    (h1 : (l.filter fun x => P x).Pairwise R) (h2 : (l.filter fun x => ¬ P x).Pairwise R)
    (h : ∀ x ∈ l, ∀ y ∈ l, P x → ¬ P y → R x y ∧ R y x) : l.Pairwise R := by
  induction l with
  | nil => exact List.Pairwise.nil
  | cons x xs ih =>
    have hxs : ∀ y ∈ xs, ∀ z ∈ xs, P y → ¬ P z → R y z ∧ R z y := fun y hy z hz =>
      h y (List.mem_cons_of_mem _ hy) z (List.mem_cons_of_mem _ hz)
    by_cases hx : P x
    · rw [List.filter_cons_of_pos (by simpa using hx), List.pairwise_cons] at h1
      rw [List.filter_cons_of_neg (by simpa using hx)] at h2
      refine List.pairwise_cons.mpr ⟨fun y hy => ?_,ih h1.2 h2 hxs⟩
      by_cases hy' : P y
      · exact h1.1 y (by simp [hy, hy'])
      · exact (h x List.mem_cons_self y (List.mem_cons_of_mem _ hy) hx hy').1
    · rw [List.filter_cons_of_neg (by simpa using hx)] at h1
      rw [List.filter_cons_of_pos (by simpa using hx), List.pairwise_cons] at h2
      refine List.pairwise_cons.mpr ⟨fun y hy => ?_,ih h1 h2.2 hxs⟩
      by_cases hy' : P y
      · exact (h y (List.mem_cons_of_mem _ hy) x List.mem_cons_self hy' hx).2
      · exact h2.1 y (by simp [hy, hy'])

namespace Splits
variable (hs : Splits mapped U u) (ht : Slub.Tracks mapped U u.slub F B G Q)
include ht

lemma apart_of_ne (hb : b ∈ B ∪ slabBlocks G) (hc : c ∈ B ∪ slabBlocks G) (hne : b ≠ c) {x x' y y' : ℕ}
    (hx : PHYSICAL_MEMORY_OFFSET + b.start * FRAME_SIZE ≤ x)
    (hx' : x' ≤ PHYSICAL_MEMORY_OFFSET + (b.start + 2^b.order) * FRAME_SIZE)
    (hy : PHYSICAL_MEMORY_OFFSET + c.start * FRAME_SIZE ≤ y)
    (hy' : y' ≤ PHYSICAL_MEMORY_OFFSET + (c.start + 2^c.order) * FRAME_SIZE) : x' ≤ y ∨ y' ≤ x := by
  rcases ht.inv.buddy.tiles.apart (Or.inl (Or.inr hb)) (Or.inl (Or.inr hc)) hne with hlt | hlt
  · left
    have := Nat.mul_le_mul_right FRAME_SIZE hlt
    omega
  · right
    have := Nat.mul_le_mul_right FRAME_SIZE hlt
    omega

include hs

lemma large_apart (hp : p ∈ u.large) (hq : q ∈ u.live) (hne : q ∈ u.large → handle p ≠ handle q) :
    p.1 + p.2.size ≤ q.1 ∨ q.1 + q.2.size ≤ p.1 := by
  obtain ⟨b,hb,he,ho,_,hhi⟩ := hs.block ht hp
  by_cases hle : effectiveSize q.2 ≤ SLUB_MAX
  · obtain ⟨n,s,_,_,hslab,hslot,hfit,_⟩ := slot ht (mem_small.mpr ⟨hq,hle⟩)
    obtain ⟨hlo',hhi'⟩ := slot_block hslot
    refine apart_of_ne ht (Or.inl hb) (Or.inr hslab) ?_ he.ge hhi hlo' ((Nat.add_le_add_left hfit _).trans hhi')
    rintro rfl
    exact ht.inv.not_slab hb hslab
  · have hq' := mem_large.mpr ⟨hq,Nat.lt_of_not_le hle⟩
    obtain ⟨c,hc,he',ho',_,hhi'⟩ := hs.block ht hq'
    refine apart_of_ne ht (Or.inl hb) (Or.inl hc) ?_ he.ge hhi he'.ge hhi'
    rintro rfl
    apply hne hq'
    rw [handle, handle, he, he', ← ho, ← ho']

lemma word_apart (hp : p ∈ u.small) (hq : q ∈ u.live) (hne : q ≠ p) : p.1 + 8 ≤ q.1 ∨ q.1 + q.2.size ≤ p.1 := by
  obtain ⟨n,s,hG,hc,hslab,hslot,hfit,_⟩ := slot ht hp
  have hsize := (classSize_bounds hc).1
  obtain ⟨hlo,hhi⟩ := slot_block hslot
  have hword := (Nat.add_le_add_left hsize p.1).trans hhi
  by_cases hle : effectiveSize q.2 ≤ SLUB_MAX
  · obtain ⟨m,t,hG',hc',hslab',hslot',hfit',_⟩ := slot ht (mem_small.mpr ⟨hq,hle⟩)
    by_cases hnm : m = n
    · subst hnm
      obtain rfl := Option.some.inj (hG'.symm.trans hG)
      have hne' : p.1 ≠ q.1 := fun he =>
        hne (List.inj_on_of_nodup_map ht.owned.nodup (mem_small.mpr ⟨hq,hle⟩) hp he.symm)
      rcases slot_apart hslot hslot' hne' with hlt | hlt
      · left
        omega
      · right
        omega
    · obtain ⟨hlo',hhi'⟩ := slot_block hslot'
      have hne' : Block.mk 0 n ≠ ⟨0,m⟩ := fun he => hnm (Block.mk.inj he).2.symm
      exact apart_of_ne ht (Or.inr hslab) (Or.inr hslab') hne' hlo hword hlo' ((Nat.add_le_add_left hfit' _).trans hhi')
  · obtain ⟨c,hcB,he',_,_,hhi'⟩ := hs.block ht (mem_large.mpr ⟨hq,Nat.lt_of_not_le hle⟩)
    refine apart_of_ne ht (Or.inr hslab) (Or.inl hcB) ?_ hlo hword he'.ge hhi'
    rintro rfl
    exact ht.inv.not_slab hcB hslab

lemma apart : u.live.Pairwise fun p q => p.1 + p.2.size ≤ q.1 ∨ q.1 + q.2.size ≤ p.1 := by
  have hlarge : u.large.Pairwise fun p q => p.1 + p.2.size ≤ q.1 ∨ q.1 + q.2.size ≤ p.1 := by
    have hnd := hs.nodup
    rw [List.Nodup, List.pairwise_map] at hnd
    exact hnd.imp_of_mem fun {p q} hp hq hne => hs.large_apart ht hp (mem_large.mp hq).1 fun _ => hne
  refine pairwise_of_filter (P := fun p : ℕ × Layout => effectiveSize p.2 ≤ SLUB_MAX) ht.apart hlarge
    fun p hp q hq h1 h2 => ?_
  have hq' := mem_large.mpr ⟨hq,Nat.lt_of_not_le h2⟩
  have hqp := hs.large_apart ht hq' hp fun hp' => absurd h1 (Nat.not_le.mpr (mem_large.mp hp').2)
  exact ⟨hqp.symm,hqp⟩

lemma aligned (hp : p ∈ u.live) : p.2.align ∣ p.1 := by
  by_cases hle : effectiveSize p.2 ≤ SLUB_MAX
  · obtain ⟨_,_,_,_,_,_,_,hdvd⟩ := slot ht (mem_small.mpr ⟨hp,hle⟩)
    exact hdvd
  · obtain ⟨b,_,he,ho,_⟩ := hs.block ht (mem_large.mpr ⟨hp,Nat.lt_of_not_le hle⟩)
    obtain ⟨hproper,hmax⟩ := hs.fits p hp
    have hstart : 2^blockOrder p.2 * FRAME_SIZE ∣ b.start * FRAME_SIZE := by
      rw [← ho]
      exact Nat.mul_dvd_mul_right (Dvd.intro _ rfl) _
    rw [he]
    exact (align_dvd_offset hproper hmax).add ((align_dvd hproper).trans hstart)

omit hs in
/-- `direct_alloc` returns, and fails only as it should. -/
lemma directAlloc_cases (hlow : ∀ n ∈ U, n * FRAME_SIZE < PHYSICAL_MEMORY_MAX_SIZE) (hp : Proper layout) :
    ∃ res h', directAlloc u.heap layout = .ok (res,h') ∧
      (effectiveSize layout ≤ BUDDY_MAX → ∀ err, res = .error err → err = .outOfMemory) ∧
      (BUDDY_MAX < effectiveSize layout → res = .error .sizeTooBig) := by
  have hmax : SLUB_MAX ≤ BUDDY_MAX := by decide
  by_cases hsmall : effectiveSize layout ≤ SLUB_MAX
  · rw [directAlloc_small hp.size hsmall]
    have hnot : ¬ BUDDY_MAX < effectiveSize layout := Nat.not_lt.mpr (hsmall.trans hmax)
    rcases Slub.alloc_ok ht.inv (hp.small hsmall) with h1 | ⟨n,hn,hbig,_⟩ | ⟨h2,_,_,_,x,_,h1,_⟩
    · exact ⟨_,_,h1,fun _ err he => (Except.error.inj he).symm,fun hlt => absurd hlt hnot⟩
    · exact absurd (hlow n (ht.added hn)) (Nat.not_lt.mpr hbig)
    · exact ⟨_,_,h1,by simp,fun hlt => absurd hlt hnot⟩
  · by_cases hle : effectiveSize layout ≤ BUDDY_MAX
    · rw [directAlloc_large hp.size (Nat.lt_of_not_le hsmall) hle]
      rcases ht.inv.allocBlock (blockOrder_le hle) with h1 | ⟨b,st',F',h1,_,_,_,h2⟩
      · change u.heap.buddy.alloc _ = _ at h1
        refine ⟨.error .outOfMemory,_,by rw [h1]; rfl,fun _ err he => (Except.error.inj he).symm,
          fun hlt => absurd hlt (Nat.not_lt.mpr hle)⟩
      · change u.heap.buddy.alloc _ = _ at h1
        have hb : b.start ∈ U :=
          ht.added (h2.buddy.mem_added (Or.inl (Or.inr (Or.inl (Set.mem_insert b B)))) b.start_mem)
        refine ⟨.ok (PHYSICAL_MEMORY_OFFSET + b.start * FRAME_SIZE),{ u.heap with buddy := st' },?_,by simp,
          fun hlt => absurd hlt (Nat.not_lt.mpr hle)⟩
        simp only [h1, physToVirt_of_lt (hlow _ hb), bind, Except.bind]
        rfl
    · rw [directAlloc_big hp.size (Nat.lt_of_not_le hle)]
      exact ⟨_,_,rfl,fun h => absurd h hle,fun _ => rfl⟩

lemma dispatch (h0 : 0 ∉ U) (hp : p ∈ u.live) : directFree u.heap p.1 =
    if effectiveSize p.2 ≤ SLUB_MAX then u.heap.free p.1
    else do return { u.heap with buddy := ← u.heap.buddy.free (p.1 - PHYSICAL_MEMORY_OFFSET) (blockOrder p.2) } := by
  split_ifs with hle
  · exact hs.directFree_small ht h0 (mem_small.mpr ⟨hp,hle⟩)
  · exact hs.directFree_large ht h0 (mem_large.mpr ⟨hp,Nat.lt_of_not_le hle⟩)

/-- `direct_free` returns, and writes at most the first word of the object. -/
lemma directFree_ok (h0 : 0 ∉ U) (hmap : ¬ Unmapped U mapped) (hp : p ∈ u.live) : ∃ h', directFree u.heap p.1 = .ok h' ∧
    ∀ q ∈ u.live, q ≠ p → ∀ w, Touches w q → h'.words w = u.heap.words w := by
  have hadded : ¬ Unmapped u.added mapped := fun ⟨b,ho,hb,hnone⟩ => hmap ⟨b,ho,fun n hn => ht.added (hb n hn),hnone⟩
  by_cases hle : effectiveSize p.2 ≤ SLUB_MAX
  · have hp' := mem_small.mpr ⟨hp,hle⟩
    obtain ⟨c,ha,_⟩ := ht.owned.fits p hp'
    rcases Slub.free_ok ht.inv ha with ⟨h',_,_,_,h1,_,_,hwords,_⟩ | ⟨hun,_⟩
    · refine ⟨h',(hs.directFree_small ht h0 hp').trans h1,fun q hq hne w hw => hwords w ?_⟩
      rintro rfl
      obtain ⟨b,h2,h3,h4,h5⟩ := hw
      rcases hs.word_apart ht hp' hq hne with hlt | hlt
      · omega
      · omega
    · exact absurd hun hadded
  · have hp' := mem_large.mpr ⟨hp,Nat.lt_of_not_le hle⟩
    obtain ⟨b,hb,he,ho,_⟩ := hs.block ht hp'
    rcases ht.inv.freeBlock hb with ⟨st',_,h1,_⟩ | ⟨hun,_⟩
    · refine ⟨{ u.heap with buddy := st' },?_,fun _ _ _ _ _ => rfl⟩
      change u.heap.buddy.free _ _ = _ at h1
      rw [hs.directFree_large ht h0 hp', he, Nat.add_sub_cancel_left, ← ho, h1]
      rfl
    · exact absurd hun hadded

end Splits

lemma Reach.correct (h0 : 0 ∉ U) (hlow : ∀ n ∈ U, n * FRAME_SIZE < PHYSICAL_MEMORY_MAX_SIZE) (hmap : ¬ Unmapped U mapped)
    (hr : Reach mapped U u) : Correct u := by
  have hs := hr.splits h0 hlow
  obtain ⟨F,B,G,Q,ht⟩ := hs.reach.tracks
  refine ⟨fun p hp => hs.aligned ht hp,fun p hp a ha => ?_,hs.apart ht,fun layout hp => Splits.directAlloc_cases ht hlow hp,
    fun p hp => hs.dispatch ht h0 hp,fun p hp => hs.directFree_ok ht h0 hmap hp⟩
  obtain ⟨h1,h2⟩ := hs.inside ht hp ha
  refine ⟨h1,h2,?_⟩
  rintro rfl
  exact h0 (ht.added h2)

section Faults

def blockLayout (order : ℕ) : Layout := ⟨2^order * FRAME_SIZE,FRAME_SIZE⟩

lemma blockLayout_proper {o : ℕ} (ho : o ≤ MAX_ORDER) : Proper (blockLayout o) ∧ SLUB_MAX < effectiveSize (blockLayout o) ∧
    effectiveSize (blockLayout o) ≤ BUDDY_MAX := by
  have hsize : effectiveSize (blockLayout o) = 2^o * FRAME_SIZE := max_eq_left (Nat.le_mul_of_pos_left _ (Nat.two_pow_pos o))
  have hpos : 0 < 2^o * FRAME_SIZE := Nat.mul_pos (Nat.two_pow_pos o) (by decide)
  have hlt : SLUB_MAX < FRAME_SIZE := by decide
  refine ⟨⟨hpos.ne',12,rfl⟩,?_,?_⟩
  · rw [hsize]
    exact hlt.trans_le (Nat.le_mul_of_pos_left _ (Nat.two_pow_pos o))
  · have hmax : BUDDY_MAX = 2^MAX_ORDER * FRAME_SIZE := by decide
    rw [hsize, hmax]
    exact Nat.mul_le_mul_right FRAME_SIZE (Nat.pow_le_pow_right (by decide) ho)

variable (hmap : ∀ n ∈ U, mapped n = true) (hb : ∀ n ∈ b, n ∈ U)
include hmap hb

/-- There is a run in which a block is the first one to be allocated. -/
lemma exists_first (ho : b.order ≤ MAX_ORDER) : ∃ u st', Reach mapped U u ∧
    u.heap.buddy.alloc (blockOrder (blockLayout b.order)) = .ok (.ok (b.start * FRAME_SIZE),st') := by
  obtain ⟨st1,st2,hres,h1,h2⟩ := Buddy.exists_alloc ho fun n hn => hmap n (hb n hn)
  obtain ⟨h,hinit⟩ : ∃ h, (Heap.dummy (BuddyAllocator.init mapped) fun _ => 0).slubInit = .ok h := by
    simp only [Heap.slubInit, Slub.initSizeLookup_eq, bind, Except.bind]
    exact ⟨_,rfl⟩
  have hr : Reach mapped U ⟨h,∅,[]⟩ := .init hinit
  rw [← (Slub.slubInit_ok hinit).1] at hres h1
  have hsub : frameRange b.start (b.start + 2^b.order) ⊆ U := fun m hm =>
    hb m (Block.mem_iff.mpr (Buddy.mem_frameRange.mp hm))
  refine ⟨_,st2,hr.addRange hsub hres h1,?_⟩
  rw [blockLayout, blockOrder_of_block]
  exact h2

lemma low_of_correct (ho : b.order ≤ MAX_ORDER) (hall : ∀ u, Reach mapped U u → Correct u) :
    b.start * FRAME_SIZE < PHYSICAL_MEMORY_MAX_SIZE := by
  obtain ⟨u,st',hr,halloc⟩ := exists_first hmap hb ho
  obtain ⟨hp,hlt,hle⟩ := blockLayout_proper ho
  obtain ⟨res,h',hrun,_⟩ := (hall u hr).alloc _ hp
  obtain ⟨res',st1,h1,_,_,hlow⟩ := directAlloc_large_ok hp hlt hle hrun
  obtain ⟨rfl,rfl⟩ := Prod.mk.inj (Except.ok.inj (h1.symm.trans halloc))
  exact hlow _ rfl

/-- `direct_free` meets a frame without a `FrameInfo` if that of the buddy is not mapped. -/
lemma exists_dangling (h0 : 0 ∉ U) (hlow : ∀ n ∈ U, n * FRAME_SIZE < PHYSICAL_MEMORY_MAX_SIZE) (ho : b.order < MAX_ORDER)
    (hnone : mapped b.buddy.start = false) : ∃ u, Reach mapped U u ∧
      (PHYSICAL_MEMORY_OFFSET + b.start * FRAME_SIZE,blockLayout b.order) ∈ u.live ∧
      directFree u.heap (PHYSICAL_MEMORY_OFFSET + b.start * FRAME_SIZE) = .error .dangling := by
  obtain ⟨u,st',hr,halloc⟩ := exists_first hmap hb ho.le
  obtain ⟨hp,hlt,hle⟩ := blockLayout_proper ho.le
  have hrun : directAlloc u.heap (blockLayout b.order) =
      .ok (.ok (PHYSICAL_MEMORY_OFFSET + b.start * FRAME_SIZE),{ u.heap with buddy := st' }) := by
    rw [directAlloc_large hp.size hlt hle]
    simp only [halloc, physToVirt_of_lt (hlow _ (hb _ b.start_mem)), bind, Except.bind]
    rfl
  have hr' := hr.alloc hp hrun
  have hs := hr'.splits h0 hlow
  obtain ⟨F,B,G,Q,ht⟩ := hs.reach.tracks
  have hty : st'.ty b.buddy.start = none := by
    have hsome : (st'.ty b.buddy.start).isSome = mapped b.buddy.start := ht.inv.mapped b.buddy.start
    rw [hnone] at hsome
    exact Option.isSome_eq_false_iff.mp hsome |> Option.isNone_iff_eq_none.mp
  have hmem : (PHYSICAL_MEMORY_OFFSET + b.start * FRAME_SIZE,blockLayout b.order) ∈ Usage.large
      ⟨{ u.heap with buddy := st' },u.added,(PHYSICAL_MEMORY_OFFSET + b.start * FRAME_SIZE,blockLayout b.order) :: u.live⟩ :=
    mem_large.mpr ⟨List.mem_cons_self,hlt⟩
  refine ⟨_,hr',List.mem_cons_self,(hs.directFree_large ht h0 hmem).trans ?_⟩
  have hfree := Buddy.free_dangling ho hty
  rw [blockLayout, blockOrder_of_block, Nat.add_sub_cancel_left]
  simp only [hfree, bind, Except.bind]

end Faults

/-- The allocator is correct in all runs over frames of `U`, if and only if all these frames are in the direct map and the
buddy of every block of them, of an order that can be merged, starts with a frame whose `FrameInfo` is mapped. -/
theorem direct_correct_iff (hmap : ∀ n ∈ U, mapped n = true) (h0 : 0 ∉ U) :
    (∀ u, Reach mapped U u → Correct u) ↔ (∀ n ∈ U, n * FRAME_SIZE < PHYSICAL_MEMORY_MAX_SIZE) ∧
      ∀ b : Block, b.order < MAX_ORDER → (∀ n ∈ b, n ∈ U) → mapped b.buddy.start = true := by
  constructor
  · intro hall
    have hlow : ∀ n ∈ U, n * FRAME_SIZE < PHYSICAL_MEMORY_MAX_SIZE := by
      intro n hn
      have hb : ∀ m ∈ (⟨0,n⟩ : Block), m ∈ U := by
        intro m hm
        rw [Block.mem_iff, Slub.start_zero, pow_zero] at hm
        obtain rfl : m = n := by omega
        exact hn
      have := low_of_correct hmap hb (Nat.zero_le _) hall
      rwa [Slub.start_zero] at this
    refine ⟨hlow,fun b ho hb => ?_⟩
    by_contra hnone
    obtain ⟨u,hr,hl,hrun⟩ := exists_dangling hmap hb h0 hlow ho (Bool.eq_false_of_not_eq_true hnone)
    obtain ⟨h',hok,_⟩ := (hall u hr).free _ hl
    rw [hrun] at hok
    simp at hok
  · intro ⟨hlow,hbuddy⟩ u hr
    refine hr.correct h0 hlow fun ⟨b,ho,hb,hnone⟩ => ?_
    rw [hbuddy b ho hb] at hnone
    simp at hnone

/-- A free span of one block of the largest order. -/
theorem direct_correct_whole : 0 ∉ usableFrames [⟨0x400000,0x800000,.free⟩] ∧
    ∀ u, Reach (Buddy.mapped [⟨0x400000,0x800000,.free⟩]) (usableFrames [⟨0x400000,0x800000,.free⟩]) u → Correct u := by
  obtain ⟨hmap,hblock,hbuddy⟩ := Buddy.mapped_whole
  have hrange : ∀ n ∈ usableFrames [⟨0x400000,0x800000,.free⟩], 1024 ≤ n ∧ n < 2048 := by
    intro n hn
    have hn := hblock n hn
    rw [Block.mem_iff] at hn
    exact hn
  have h0 : 0 ∉ usableFrames [⟨0x400000,0x800000,.free⟩] := fun h => by
    have := hrange 0 h
    omega
  refine ⟨h0,(direct_correct_iff (fun n hn => Buddy.mapped_of_usable hmap hn) h0).mpr ⟨fun n hn => ?_,hbuddy⟩⟩
  have := hrange n hn
  unfold FRAME_SIZE PHYSICAL_MEMORY_MAX_SIZE
  omega

/-- The memory from 1 MiB to 1.5 MiB is free, and an object of 512 KiB is allocated: to free it is a fault. -/
theorem direct_free_dangling : MemoryMap [⟨0x100000,0x180000,.free⟩] ∧ 0 ∉ usableFrames [⟨0x100000,0x180000,.free⟩] ∧
    ∃ u, Reach (Buddy.mapped [⟨0x100000,0x180000,.free⟩]) (usableFrames [⟨0x100000,0x180000,.free⟩]) u ∧
      (PHYSICAL_MEMORY_OFFSET + 0x100000,⟨0x80000,0x1000⟩) ∈ u.live ∧
      directFree u.heap (PHYSICAL_MEMORY_OFFSET + 0x100000) = .error .dangling := by
  obtain ⟨hmap,hrange,hmem,hnone⟩ := Buddy.not_mapped_behind
  have h0 : 0 ∉ usableFrames [⟨0x100000,0x180000,.free⟩] := fun h => by
    have := hrange 0 h
    omega
  have hlow : ∀ n ∈ usableFrames [⟨0x100000,0x180000,.free⟩], n * FRAME_SIZE < PHYSICAL_MEMORY_MAX_SIZE := by
    intro n hn
    have := hrange n hn
    unfold FRAME_SIZE PHYSICAL_MEMORY_MAX_SIZE
    omega
  exact ⟨hmap,h0,exists_dangling (fun n hn => Buddy.mapped_of_usable hmap hn) hmem h0 hlow (by decide) hnone⟩

end Lilith.Direct
