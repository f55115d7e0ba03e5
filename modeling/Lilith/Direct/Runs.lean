import Lilith.Buddy.Mapped
import Lilith.Slub.Runs
import Lilith.Direct.Model

/-! Runs of the allocator of the direct map. Such a run is one of the slab allocator, over a buddy allocator whose other
blocks are the larger objects. -/
namespace Lilith.Direct
open Theory
open Buddy (BuddyAllocator FRAME_SIZE BUDDY_MAX MAX_ORDER frameRange handles)
open Slub (Heap SLUB_MAX Inside frameAt Slab Holds slabBlocks classSize Small NUM_SIZE_CLASSES Unmapped slots slot_bounds slot_apart
  frameAt_slot classSize_bounds)
open Boot (Layout)

/-- The allocator with what its callers know: the frames that were added, and the address and the layout of each object
that was allocated and not freed. -/
structure Usage where
  heap : Heap
  added : Set ℕ
  live : List (ℕ × Layout)

/-- The byte is in an object of the callers or in no frame of the allocator. -/
def Usage.Foreign (u : Usage) (a : ℕ) : Prop :=
  (∃ p ∈ u.live, Inside a p) ∨ a < PHYSICAL_MEMORY_OFFSET ∨ frameAt a ∉ u.added

/-- The states that successful calls lead to, where only frames of `U` are added. Between calls the owners of objects
and of other memory write to it, which changes the words of eight bytes that have one of these bytes. -/
inductive Reach (mapped : ℕ → Bool) (U : Set ℕ) : Usage → Prop
  | init {words : ℕ → ℕ} {h : Heap} (hrun : (Heap.dummy (BuddyAllocator.init mapped) words).slubInit = .ok h) :
      Reach mapped U ⟨h,∅,[]⟩
  | addRange {u : Usage} {st' : BuddyAllocator} {n e : ℕ} (h : Reach mapped U u) (hU : frameRange n e ⊆ U)
      (hres : ∀ m ∈ frameRange n e, u.heap.buddy.ty m = some .reserved)
      (hrun : u.heap.buddy.addRange (n * FRAME_SIZE) (e * FRAME_SIZE) = .ok st') :
      Reach mapped U ⟨{ u.heap with buddy := st' },u.added ∪ frameRange n e,u.live⟩
  | alloc {u : Usage} {h' : Heap} {layout : Layout} {a : ℕ} (h : Reach mapped U u) (hp : Proper layout)
      (hrun : directAlloc u.heap layout = .ok (.ok a,h')) : Reach mapped U ⟨h',u.added,(a,layout) :: u.live⟩
  | allocFails {u : Usage} {h' : Heap} {layout : Layout} {err : MemoryError} (h : Reach mapped U u) (hp : Proper layout)
      (hrun : directAlloc u.heap layout = .ok (.error err,h')) : Reach mapped U ⟨h',u.added,u.live⟩
  | allocFrame {u : Usage} {h' : Heap} {phys : ℕ} (h : Reach mapped U u) (hrun : allocFrame u.heap = .ok (.ok phys,h')) :
      Reach mapped U ⟨h',u.added,(PHYSICAL_MEMORY_OFFSET + phys,FRAME_LAYOUT) :: u.live⟩
  | allocFrameFails {u : Usage} {h' : Heap} {err : MemoryError} (h : Reach mapped U u)
      (hrun : allocFrame u.heap = .ok (.error err,h')) : Reach mapped U ⟨h',u.added,u.live⟩
  | free {u : Usage} {h' : Heap} {layout : Layout} {a : ℕ} (h : Reach mapped U u) (hl : (a,layout) ∈ u.live)
      (hrun : directFree u.heap a = .ok h') : Reach mapped U ⟨h',u.added,u.live.erase (a,layout)⟩
  | write {u : Usage} {words : ℕ → ℕ} (h : Reach mapped U u)
      (hw : ∀ a, words a ≠ u.heap.words a → ∃ b, a ≤ b ∧ b < a + 8 ∧ u.Foreign b) :
      Reach mapped U ⟨{ u.heap with words := words },u.added,u.live⟩

def Usage.small (u : Usage) : List (ℕ × Layout) := u.live.filter fun p => effectiveSize p.2 ≤ SLUB_MAX

def Usage.large (u : Usage) : List (ℕ × Layout) := u.live.filter fun p => ¬ effectiveSize p.2 ≤ SLUB_MAX

/-- The address and the order of the block of an object. -/
def handle (p : ℕ × Layout) : ℕ × ℕ := (p.1 - PHYSICAL_MEMORY_OFFSET,blockOrder p.2)

def Usage.slub (u : Usage) : Slub.Usage := ⟨u.heap,u.added,{ q | ∃ p ∈ u.large, q = handle p },u.small⟩

variable {mapped : ℕ → Bool} {U : Set ℕ} {u : Usage} {h' : Heap} {st' : BuddyAllocator} {layout : Layout} {p q : ℕ × Layout}
  {a n phys : ℕ} {F : ℕ → List ℕ} {B : Set Block} {G : ℕ → Option Slab} {Q : ℕ → List ℕ}

lemma mem_small : p ∈ u.small ↔ p ∈ u.live ∧ effectiveSize p.2 ≤ SLUB_MAX := by simp [Usage.small]

lemma mem_large : p ∈ u.large ↔ p ∈ u.live ∧ SLUB_MAX < effectiveSize p.2 := by simp [Usage.large]

lemma Proper.small (h : Proper layout) (hle : effectiveSize layout ≤ SLUB_MAX) : Small layout := by
  obtain ⟨k,hk⟩ := h.align
  exact ⟨⟨Nat.pos_of_ne_zero h.size,(le_max_left _ _).trans hle⟩,k,hk,hk ▸ (le_max_right _ _).trans hle⟩

/-- A run of the two allocators with the objects of the callers. -/
structure Splits (mapped : ℕ → Bool) (U : Set ℕ) (u : Usage) : Prop where
  reach : Slub.Reach mapped U u.slub
  nodup : (u.large.map handle).Nodup
  fits : ∀ p ∈ u.live, Proper p.2 ∧ effectiveSize p.2 ≤ BUDDY_MAX
  mapped : ∀ p ∈ u.large, ∃ phys < PHYSICAL_MEMORY_MAX_SIZE, p.1 = PHYSICAL_MEMORY_OFFSET + phys

/-- A block that the buddy allocator gives out is new, and of added frames. -/
lemma alloc_block {s : Slub.Usage} {order addr : ℕ} (hr : Slub.Reach mapped U s) (ho : order ≤ MAX_ORDER)
    (hrun : s.heap.buddy.alloc order = .ok (.ok addr,st')) :
    ∃ b : Block, addr = b.start * FRAME_SIZE ∧ (addr,order) ∉ s.blocks ∧ b.start ∈ U := by
  obtain ⟨F,B,G,Q,ht⟩ := hr.tracks
  rcases ht.inv.allocBlock ho with h1 | ⟨b,st1,F1,h1,rfl,hB,_,h2⟩
  · rw [h1] at hrun
    simp at hrun
  · obtain ⟨h3,rfl⟩ := Prod.mk.inj (Except.ok.inj (h1.symm.trans hrun))
    obtain rfl := Except.ok.inj h3
    refine ⟨b,rfl,fun hb => ?_,ht.added (h2.buddy.mem_added (Or.inl (Or.inr (Or.inl (Set.mem_insert b B)))) b.start_mem)⟩
    rw [ht.blocks] at hb
    obtain ⟨c,hc,he⟩ := hb
    rw [Buddy.handle_inj he] at hB
    exact hB hc

lemma slot_block {c : ℕ} (h : a ∈ slots n c) : PHYSICAL_MEMORY_OFFSET + (Block.mk 0 n).start * FRAME_SIZE ≤ a ∧
    a + classSize c ≤ PHYSICAL_MEMORY_OFFSET + ((Block.mk 0 n).start + 2^(Block.mk 0 n).order) * FRAME_SIZE := by
  rw [Slub.start_zero]
  exact slot_bounds h

namespace Splits

lemma allocBlock (hs : Splits mapped U u) (hlow : ∀ n ∈ U, n * FRAME_SIZE < PHYSICAL_MEMORY_MAX_SIZE) (hp : Proper layout)
    (hlt : SLUB_MAX < effectiveSize layout) (hle : effectiveSize layout ≤ BUDDY_MAX)
    (hrun : u.heap.buddy.alloc (blockOrder layout) = .ok (.ok phys,st')) :
    Splits mapped U ⟨{ u.heap with buddy := st' },u.added,(PHYSICAL_MEMORY_OFFSET + phys,layout) :: u.live⟩ := by
  obtain ⟨b,rfl,hnew,hU⟩ := alloc_block hs.reach (blockOrder_le hle) hrun
  have hlarge : Usage.large ⟨{ u.heap with buddy := st' },u.added,(PHYSICAL_MEMORY_OFFSET + b.start * FRAME_SIZE,layout) :: u.live⟩ =
      (PHYSICAL_MEMORY_OFFSET + b.start * FRAME_SIZE,layout) :: u.large :=
    List.filter_cons_of_pos (by simpa using hlt)
  have hsmall : Usage.small ⟨{ u.heap with buddy := st' },u.added,(PHYSICAL_MEMORY_OFFSET + b.start * FRAME_SIZE,layout) :: u.live⟩ =
      u.small := List.filter_cons_of_neg (by simpa using hlt)
  have hhandle : handle (PHYSICAL_MEMORY_OFFSET + b.start * FRAME_SIZE,layout) = (b.start * FRAME_SIZE,blockOrder layout) := by
    rw [handle, Nat.add_sub_cancel_left]
  refine ⟨?_,?_,fun p hp' => ?_,fun p hp' => ?_⟩
  · have hr := hs.reach.allocBlock (blockOrder_le hle) hrun
    have hset : { q | ∃ p ∈ (PHYSICAL_MEMORY_OFFSET + b.start * FRAME_SIZE,layout) :: u.large, q = handle p } =
        insert (b.start * FRAME_SIZE,blockOrder layout) u.slub.blocks := by
      ext q
      simp only [Set.mem_ofPred_eq, List.mem_cons, exists_eq_or_imp, hhandle, Set.mem_insert_iff, Usage.slub]
    rw [Usage.slub, hlarge, hsmall, hset]
    exact hr
  · rw [hlarge, List.map_cons, List.nodup_cons, hhandle]
    refine ⟨fun hm => hnew ?_,hs.nodup⟩
    obtain ⟨q,hq,he⟩ := List.mem_map.mp hm
    exact ⟨q,hq,he.symm⟩
  · rcases List.mem_cons.mp hp' with rfl | hp'
    · exact ⟨hp,hle⟩
    · exact hs.fits p hp'
  · rw [hlarge] at hp'
    rcases List.mem_cons.mp hp' with rfl | hp'
    · exact ⟨_,hlow _ hU,rfl⟩
    · exact hs.mapped p hp'

lemma of_reach (hs : Splits mapped U u) {A : Set ℕ} (hr : Slub.Reach mapped U ⟨h',A,u.slub.blocks,u.small⟩) :
    Splits mapped U ⟨h',A,u.live⟩ := ⟨hr,hs.nodup,hs.fits,hs.mapped⟩

lemma alloc (hs : Splits mapped U u) (hp : Proper layout) (hle : effectiveSize layout ≤ SLUB_MAX)
    (hrun : u.heap.alloc layout = .ok (.ok a,h')) : Splits mapped U ⟨h',u.added,(a,layout) :: u.live⟩ := by
  have hlarge : Usage.large ⟨h',u.added,(a,layout) :: u.live⟩ = u.large := List.filter_cons_of_neg (by simpa using hle)
  have hsmall : Usage.small ⟨h',u.added,(a,layout) :: u.live⟩ = (a,layout) :: u.small :=
    List.filter_cons_of_pos (by simpa using hle)
  have hmax : SLUB_MAX ≤ BUDDY_MAX := by decide
  refine ⟨?_,by rw [hlarge]; exact hs.nodup,fun p hp' => ?_,by rw [hlarge]; exact hs.mapped⟩
  · rw [Usage.slub, hlarge, hsmall]
    exact hs.reach.alloc (hp.small hle) hrun
  · rcases List.mem_cons.mp hp' with rfl | hp'
    · exact ⟨hp,hle.trans hmax⟩
    · exact hs.fits p hp'

section Places
variable (hs : Splits mapped U u) (ht : Slub.Tracks mapped U u.slub F B G Q)
include hs ht

lemma block (hp : p ∈ u.large) : ∃ b ∈ B, p.1 = PHYSICAL_MEMORY_OFFSET + b.start * FRAME_SIZE ∧ b.order = blockOrder p.2 ∧
    b.start * FRAME_SIZE < PHYSICAL_MEMORY_MAX_SIZE ∧
    p.1 + p.2.size ≤ PHYSICAL_MEMORY_OFFSET + (b.start + 2^b.order) * FRAME_SIZE := by
  obtain ⟨phys,hlt,he⟩ := hs.mapped p hp
  have hmem : handle p ∈ u.slub.blocks := ⟨p,hp,rfl⟩
  rw [ht.blocks] at hmem
  obtain ⟨b,hb,hh⟩ := hmem
  obtain ⟨h1,h2⟩ := Prod.mk.inj hh
  rw [he, Nat.add_sub_cancel_left] at h1
  subst h1
  have hsize : p.2.size ≤ 2^b.order * FRAME_SIZE := by
    rw [← h2]
    exact (le_max_left _ _).trans effectiveSize_le
  refine ⟨b,hb,he,h2.symm,hlt,?_⟩
  rw [he, Nat.add_mul]
  omega

omit hs in
lemma slot (hp : p ∈ u.small) : ∃ n s, G n = some s ∧ s.cache < NUM_SIZE_CLASSES ∧ Block.mk 0 n ∈ slabBlocks G ∧
    p.1 ∈ slots n s.cache ∧ p.2.size ≤ classSize s.cache ∧ p.2.align ∣ p.1 := by
  obtain ⟨c,⟨n,s,hG,rfl,hslot,_⟩,hfit⟩ := ht.owned.fits p hp
  exact ⟨n,s,hG,(ht.inv.core.cache n s hG).1,Slub.mem_slabBlocks (by rw [hG]; rfl),hslot,hfit⟩

/-- Every object is in a live block of the buddy allocator. -/
lemma place (hp : p ∈ u.live) : ∃ b ∈ B ∪ slabBlocks G, PHYSICAL_MEMORY_OFFSET + b.start * FRAME_SIZE ≤ p.1 ∧
    p.1 + p.2.size ≤ PHYSICAL_MEMORY_OFFSET + (b.start + 2^b.order) * FRAME_SIZE := by
  by_cases hle : effectiveSize p.2 ≤ SLUB_MAX
  · obtain ⟨n,s,_,_,hb,hslot,hfit,_⟩ := slot ht (mem_small.mpr ⟨hp,hle⟩)
    obtain ⟨hlo,hhi⟩ := slot_block hslot
    exact ⟨⟨0,n⟩,Or.inr hb,hlo,(Nat.add_le_add_left hfit _).trans hhi⟩
  · obtain ⟨b,hb,he,_,_,hhi⟩ := hs.block ht (mem_large.mpr ⟨hp,Nat.lt_of_not_le hle⟩)
    exact ⟨b,Or.inl hb,he.ge,hhi⟩

lemma inside (hp : p ∈ u.live) (ha : Inside a p) : PHYSICAL_MEMORY_OFFSET ≤ a ∧ frameAt a ∈ u.added := by
  obtain ⟨b,hb,hlo,hhi⟩ := hs.place ht hp
  obtain ⟨h1,h2⟩ := ha
  refine ⟨by omega,ht.inv.buddy.mem_added (Or.inl (Or.inr hb)) (Block.mem_iff.mpr ?_)⟩
  unfold frameAt
  unfold FRAME_SIZE at *
  omega

/-- The address of an object is not that of the objects without size. -/
lemma ne_sentinel (h0 : 0 ∉ U) (hp : p ∈ u.live) : p.1 ≠ ZST_SENTINEL := by
  intro he
  have hpos : 0 < p.2.size := Nat.pos_of_ne_zero (hs.fits p hp).1.size
  have hin := (hs.inside ht hp ⟨le_rfl,by omega⟩).2
  rw [he] at hin
  exact h0 (ht.added hin)

lemma directFree_small (h0 : 0 ∉ U) (hp : p ∈ u.small) : directFree u.heap p.1 = u.heap.free p.1 := by
  have hne := hs.ne_sentinel ht h0 (mem_small.mp hp).1
  obtain ⟨n,s,hG,hc,_,hslot,_⟩ := slot ht hp
  have hn := (ht.inv.core.cache n s hG).2
  have hframe : (p.1 - PHYSICAL_MEMORY_OFFSET) / FRAME_SIZE = n := frameAt_slot hc hslot
  obtain ⟨fi,hfi,hty⟩ := Buddy.ty_some (ht.inv.typed n (by rw [hG]; rfl))
  have hread : u.heap.buddy.frameInfo n = .ok fi := Buddy.frameInfo_ok hfi
  simp only [directFree, hne, if_false, Slub.virtToPhys_slot hc hn hslot, hframe, hread, hty, bind, Except.bind]

lemma directFree_large (h0 : 0 ∉ U) (hp : p ∈ u.large) : directFree u.heap p.1 = (do
    return { u.heap with buddy := ← u.heap.buddy.free (p.1 - PHYSICAL_MEMORY_OFFSET) (blockOrder p.2) }) := by
  have hne := hs.ne_sentinel ht h0 (mem_large.mp hp).1
  obtain ⟨b,hb,he,ho,hlt,_⟩ := hs.block ht hp
  have hty := ht.inv.others b hb
  have hlive := ht.inv.buddy.live b (Or.inl hb)
  rcases hlive with ⟨_,horder⟩ | hslab
  · obtain ⟨fi,hfi,hty⟩ := Buddy.ty_some hty
    have hread : u.heap.buddy.frameInfo b.start = .ok fi := Buddy.frameInfo_ok hfi
    have hvirt := virtToPhys_add hlt
    have hnode : u.heap.buddy.read (.frame b.start) = _ := Buddy.read_ok horder
    rw [he] at hne
    rw [he, Nat.add_sub_cancel_left, ← ho]
    simp only [directFree, hne, if_false, hvirt, Nat.mul_div_cancel _ (by decide : 0 < FRAME_SIZE), hread, hty, hnode, bind,
      Except.bind]
  · rw [hty] at hslab
    simp at hslab

/-- The bytes of others are not in slabs, or in objects of the callers there. -/
lemma foreign (ha : u.Foreign a) : u.slub.Foreign a := by
  rcases ha with ⟨p,hp,hin⟩ | hlow | hout
  · by_cases hle : effectiveSize p.2 ≤ SLUB_MAX
    · exact Or.inl ⟨p,mem_small.mpr ⟨hp,hle⟩,hin⟩
    · obtain ⟨b,hb,he,_,_,hhi⟩ := hs.block ht (mem_large.mpr ⟨hp,Nat.lt_of_not_le hle⟩)
      have hmem : frameAt a ∈ b := by
        obtain ⟨h1,h2⟩ := hin
        rw [Block.mem_iff]
        unfold frameAt
        unfold FRAME_SIZE at *
        omega
      refine Or.inr (Or.inr ?_)
      change u.heap.buddy.ty (frameAt a) ≠ some .slab
      by_cases hstart : frameAt a = b.start
      · have hty : u.heap.buddy.ty b.start = _ := ht.inv.others b hb
        rw [hstart, hty]
        simp
      · have hty : u.heap.buddy.ty (frameAt a) = _ := ht.inv.buddy.tail b (Or.inl (Or.inr (Or.inl hb))) _ hmem hstart
        rw [hty]
        simp
  · exact Or.inr (Or.inl hlow)
  · refine Or.inr (Or.inr fun hty => ?_)
    have := ht.inv.buddy.outside _ hout (Set.notMem_empty _) _ hty
    simp at this

end Places

lemma free (hs : Splits mapped U u) (hp : p ∈ u.small) (hrun : u.heap.free p.1 = .ok h') :
    Splits mapped U ⟨h',u.added,u.live.erase p⟩ := by
  have hnot : p ∉ u.large := fun hl => Nat.not_le.mpr (mem_large.mp hl).2 (mem_small.mp hp).2
  have hsmall : Usage.small ⟨h',u.added,u.live.erase p⟩ = u.small.erase p := List.erase_filter.symm
  have hlarge : Usage.large ⟨h',u.added,u.live.erase p⟩ = u.large :=
    List.erase_filter.symm.trans (List.erase_of_not_mem hnot)
  refine ⟨?_,by rw [hlarge]; exact hs.nodup,fun q hq => hs.fits q (List.mem_of_mem_erase hq),by rw [hlarge]; exact hs.mapped⟩
  rw [Usage.slub, hlarge, hsmall]
  exact hs.reach.free hp hrun

lemma freeBlock (hs : Splits mapped U u) (hp : p ∈ u.large)
    (hrun : u.heap.buddy.free (p.1 - PHYSICAL_MEMORY_OFFSET) (blockOrder p.2) = .ok st') :
    Splits mapped U ⟨{ u.heap with buddy := st' },u.added,u.live.erase p⟩ := by
  have hnot : p ∉ u.small := fun hl => Nat.not_le.mpr (mem_large.mp hp).2 (mem_small.mp hl).2
  have hlarge : Usage.large ⟨{ u.heap with buddy := st' },u.added,u.live.erase p⟩ = u.large.erase p := List.erase_filter.symm
  have hsmall : Usage.small ⟨{ u.heap with buddy := st' },u.added,u.live.erase p⟩ = u.small :=
    List.erase_filter.symm.trans (List.erase_of_not_mem hnot)
  have hperm := List.perm_cons_erase hp
  have hnd := (hperm.map handle).nodup_iff.mp hs.nodup
  rw [List.map_cons, List.nodup_cons] at hnd
  have hset : { q | ∃ p' ∈ u.large.erase p, q = handle p' } = u.slub.blocks \ {handle p} := by
    ext q
    simp only [Set.mem_sdiff, Set.mem_singleton_iff]
    constructor
    · rintro ⟨p',hp',rfl⟩
      exact ⟨⟨p',List.mem_of_mem_erase hp',rfl⟩,fun he => hnd.1 (he ▸ List.mem_map_of_mem hp')⟩
    · rintro ⟨⟨p',hp',rfl⟩,hne⟩
      refine ⟨p',(List.mem_cons.mp (hperm.mem_iff.mp hp')).resolve_left ?_,rfl⟩
      rintro rfl
      exact hne rfl
  refine ⟨?_,by rw [hlarge]; exact hnd.2,fun q hq => hs.fits q (List.mem_of_mem_erase hq),fun q hq => ?_⟩
  · rw [Usage.slub, hlarge, hsmall, hset]
    exact hs.reach.freeBlock ⟨p,hp,rfl⟩ hrun
  · rw [hlarge] at hq
    exact hs.mapped q (List.mem_of_mem_erase hq)

end Splits

lemma directAlloc_large_ok {self : Heap} (hp : Proper layout) (hlt : SLUB_MAX < effectiveSize layout)
    (hle : effectiveSize layout ≤ BUDDY_MAX) {res : Except MemoryError ℕ} (hrun : directAlloc self layout = .ok (res,h')) :
    ∃ res' st', self.buddy.alloc (blockOrder layout) = .ok (res',st') ∧ h' = { self with buddy := st' } ∧
      res = res'.map (PHYSICAL_MEMORY_OFFSET + ·) ∧ ∀ phys, res' = .ok phys → phys < PHYSICAL_MEMORY_MAX_SIZE := by
  rw [directAlloc_large hp.size hlt hle] at hrun
  obtain ⟨⟨res',st'⟩,h1,h2⟩ := bind_ok hrun
  cases res' with
  | error e =>
    obtain ⟨rfl,rfl⟩ := Prod.mk.inj (Except.ok.inj h2)
    exact ⟨_,st',h1,rfl,rfl,by simp⟩
  | ok phys =>
    obtain ⟨virt,h3,h4⟩ := bind_ok h2
    obtain ⟨rfl,rfl⟩ := Prod.mk.inj (Except.ok.inj h4)
    obtain ⟨hlow,hvirt⟩ := physToVirt_ok h3
    refine ⟨_,st',h1,rfl,congrArg Except.ok hvirt,fun phys' he => ?_⟩
    rwa [← Except.ok.inj he]

lemma allocFrame_ok {self : Heap} {res : Except MemoryError ℕ} (hrun : allocFrame self = .ok (res,h')) :
    ∃ st', self.buddy.alloc 0 = .ok (res,st') ∧ h' = { self with buddy := st' } := by
  obtain ⟨⟨res',st'⟩,h1,h2⟩ := bind_ok hrun
  obtain ⟨rfl,rfl⟩ := Prod.mk.inj (Except.ok.inj h2)
  exact ⟨st',h1,rfl⟩

lemma frameLayout : Proper FRAME_LAYOUT ∧ SLUB_MAX < effectiveSize FRAME_LAYOUT ∧ effectiveSize FRAME_LAYOUT ≤ BUDDY_MAX ∧
    blockOrder FRAME_LAYOUT = 0 := by
  refine ⟨⟨by decide,12,rfl⟩,by decide,by decide,?_⟩
  have := blockOrder_of_block 0
  rwa [pow_zero, Nat.one_mul] at this

/-- Every run is a run of the two allocators. -/
theorem Reach.splits (h0 : 0 ∉ U) (hlow : ∀ n ∈ U, n * FRAME_SIZE < PHYSICAL_MEMORY_MAX_SIZE) (hr : Reach mapped U u) :
    Splits mapped U u := by
  induction hr with
  | @init words h hrun =>
    have hr := @Slub.Reach.init mapped U words h hrun
    have hempty : { q | ∃ p ∈ ([] : List (ℕ × Layout)), q = handle p } = ∅ := by
      ext q
      simp
    rw [← hempty] at hr
    exact ⟨hr,List.nodup_nil,by simp,by simp [Usage.large]⟩
  | addRange _ hU hres hrun ih => exact ih.of_reach (ih.reach.addRange hU hres hrun)
  | @alloc u h' layout a _ hp hrun ih =>
    by_cases hsmall : effectiveSize layout ≤ SLUB_MAX
    · rw [directAlloc_small hp.size hsmall] at hrun
      exact ih.alloc hp hsmall hrun
    · by_cases hle : effectiveSize layout ≤ BUDDY_MAX
      · obtain ⟨res',st',h1,rfl,h3,_⟩ := directAlloc_large_ok hp (Nat.lt_of_not_le hsmall) hle hrun
        cases res' with
        | error e => simp [Except.map] at h3
        | ok phys =>
          rw [Except.ok.inj h3]
          exact ih.allocBlock hlow hp (Nat.lt_of_not_le hsmall) hle h1
      · rw [directAlloc_big hp.size (Nat.lt_of_not_le hle)] at hrun
        simp at hrun
  | @allocFails u h' layout err _ hp hrun ih =>
    by_cases hsmall : effectiveSize layout ≤ SLUB_MAX
    · rw [directAlloc_small hp.size hsmall] at hrun
      exact ih.of_reach (ih.reach.allocFails (hp.small hsmall) hrun)
    · by_cases hle : effectiveSize layout ≤ BUDDY_MAX
      · obtain ⟨res',st',h1,rfl,h3,_⟩ := directAlloc_large_ok hp (Nat.lt_of_not_le hsmall) hle hrun
        cases res' with
        | error e => exact ih.of_reach (ih.reach.allocBlockFails (blockOrder_le hle) h1)
        | ok phys => simp [Except.map] at h3
      · rw [directAlloc_big hp.size (Nat.lt_of_not_le hle)] at hrun
        obtain ⟨_,rfl⟩ := Prod.mk.inj (Except.ok.inj hrun)
        exact ih
  | allocFrame _ hrun ih =>
    obtain ⟨st',h1,rfl⟩ := allocFrame_ok hrun
    obtain ⟨hp,hlt,hle,ho⟩ := frameLayout
    exact ih.allocBlock hlow hp hlt hle (ho.symm ▸ h1)
  | allocFrameFails _ hrun ih =>
    obtain ⟨st',h1,rfl⟩ := allocFrame_ok hrun
    exact ih.of_reach (ih.reach.allocBlockFails (Nat.zero_le _) h1)
  | @free u h' layout a _ hl hrun ih =>
    obtain ⟨F,B,G,Q,ht⟩ := ih.reach.tracks
    by_cases hsmall : effectiveSize layout ≤ SLUB_MAX
    · have hp := mem_small.mpr ⟨hl,hsmall⟩
      rw [ih.directFree_small ht h0 hp] at hrun
      exact ih.free hp hrun
    · have hp := mem_large.mpr ⟨hl,Nat.lt_of_not_le hsmall⟩
      rw [ih.directFree_large ht h0 hp] at hrun
      obtain ⟨st',h1,h2⟩ := bind_ok hrun
      obtain rfl := Except.ok.inj h2
      exact ih.freeBlock hp h1
  | @write u words _ hw ih =>
    obtain ⟨F,B,G,Q,ht⟩ := ih.reach.tracks
    refine ih.of_reach (ih.reach.write fun a ha => ?_)
    obtain ⟨b,h1,h2,h3⟩ := hw a ha
    exact ⟨b,h1,h2,ih.foreign ht h3⟩

end Lilith.Direct
