import Lilith.Direct.Correct
import Lilith.Buddy.Coalesced

/-! Leaks and fragmentation of the direct map. Each frame is in a free block or in the one block of an object, and a run
that frees what it allocated leaves the free blocks as they were. -/
namespace Lilith.Direct
open Theory
open Buddy (BuddyAllocator FRAME_SIZE BUDDY_MAX MAX_ORDER frameRange freeBlocks IsCoalesced)
open Slub (Heap SLUB_MAX Inside frameAt Slab slabBlocks slotCount frameAt_slot length_slots)
open Boot (Layout)

/-- The block that an object takes: its own one, or that of its slab. -/
def Takes (p : ℕ × Layout) (b : Block) : Prop :=
  if effectiveSize p.2 ≤ SLUB_MAX then b.order = 0 ∧ b.start = frameAt p.1 else (b.start * FRAME_SIZE,b.order) = handle p

def taken (live : List (ℕ × Layout)) : Set Block := { b | ∃ p ∈ live, Takes p b }

/-- Runs from `u` on, with the objects that were allocated in the run and not freed: only these are freed. -/
inductive Churns (u : Usage) : Usage → List (ℕ × Layout) → Prop
  | refl : Churns u u []
  | alloc {u1 : Usage} {held : List (ℕ × Layout)} {h' : Heap} {layout : Layout} {a : ℕ} (h : Churns u u1 held)
      (hp : Proper layout) (hrun : directAlloc u1.heap layout = .ok (.ok a,h')) :
      Churns u ⟨h',u1.added,(a,layout) :: u1.live⟩ ((a,layout) :: held)
  | allocFails {u1 : Usage} {held : List (ℕ × Layout)} {h' : Heap} {layout : Layout} {err : MemoryError} (h : Churns u u1 held)
      (hp : Proper layout) (hrun : directAlloc u1.heap layout = .ok (.error err,h')) : Churns u ⟨h',u1.added,u1.live⟩ held
  | allocFrame {u1 : Usage} {held : List (ℕ × Layout)} {h' : Heap} {phys : ℕ} (h : Churns u u1 held)
      (hrun : allocFrame u1.heap = .ok (.ok phys,h')) :
      Churns u ⟨h',u1.added,(PHYSICAL_MEMORY_OFFSET + phys,FRAME_LAYOUT) :: u1.live⟩
        ((PHYSICAL_MEMORY_OFFSET + phys,FRAME_LAYOUT) :: held)
  | allocFrameFails {u1 : Usage} {held : List (ℕ × Layout)} {h' : Heap} {err : MemoryError} (h : Churns u u1 held)
      (hrun : allocFrame u1.heap = .ok (.error err,h')) : Churns u ⟨h',u1.added,u1.live⟩ held
  | free {u1 : Usage} {held : List (ℕ × Layout)} {h' : Heap} {p : ℕ × Layout} (h : Churns u u1 held) (hl : p ∈ held)
      (hrun : directFree u1.heap p.1 = .ok h') : Churns u ⟨h',u1.added,u1.live.erase p⟩ (held.erase p)
  | write {u1 : Usage} {held : List (ℕ × Layout)} {words : ℕ → ℕ} (h : Churns u u1 held)
      (hw : ∀ a, words a ≠ u1.heap.words a → ∃ b, a ≤ b ∧ b < a + 8 ∧ u1.Foreign b) :
      Churns u ⟨{ u1.heap with words := words },u1.added,u1.live⟩ held

variable {mapped : ℕ → Bool} {U : Set ℕ} {u u' : Usage} {h' : Heap} {st' : BuddyAllocator} {layout : Layout} {p : ℕ × Layout}
  {F : ℕ → List ℕ} {B : Set Block} {G : ℕ → Option Slab} {Q : ℕ → List ℕ} {b : Block} {live live' held : List (ℕ × Layout)}

lemma taken_perm (h : live.Perm live') : taken live = taken live' := by
  ext b
  simp only [taken, Set.mem_ofPred_eq, h.mem_iff]

namespace Splits

/-- The live blocks of the buddy allocator are those that objects take: no slab is without an object. -/
lemma taken_eq (ht : Slub.Tracks mapped U u.slub F B G Q) : taken u.live = B ∪ slabBlocks G := by
  ext b
  constructor
  · rintro ⟨p,hp,htakes⟩
    unfold Takes at htakes
    split_ifs at htakes with hle
    · obtain ⟨ho,hstart⟩ := htakes
      obtain ⟨n,s,hG,hc,_,hslot,_⟩ := slot ht (mem_small.mpr ⟨hp,hle⟩)
      rw [frameAt_slot hc hslot] at hstart
      exact Or.inr ⟨ho,by rw [hstart, hG]; rfl⟩
    · have hin : handle p ∈ u.slub.blocks := ⟨p,mem_large.mpr ⟨hp,Nat.lt_of_not_le hle⟩,rfl⟩
      rw [ht.blocks] at hin
      obtain ⟨c,hc,he⟩ := hin
      rw [Buddy.handle_inj (htakes.trans he)]
      exact Or.inl hc
  · rintro (hb | ⟨ho,hsome⟩)
    · have hin : (b.start * FRAME_SIZE,b.order) ∈ u.slub.blocks := by
        rw [ht.blocks]
        exact ⟨b,hb,rfl⟩
      obtain ⟨p,hp,he⟩ := hin
      obtain ⟨hlive,hlt⟩ := mem_large.mp hp
      refine ⟨p,hlive,?_⟩
      rw [Takes, if_neg (Nat.not_le.mpr hlt)]
      exact he
    · obtain ⟨s,hG⟩ := Option.isSome_iff_exists.mp hsome
      -- some slot of the slab is not free
      have hlen := (ht.slots_perm hG).length_eq
      rw [List.length_append, length_slots] at hlen
      have hret := ht.inv.retained b.start s hG
      obtain ⟨a,ha⟩ := List.exists_mem_of_length_pos (l := u.slub.objects b.start) (by omega)
      obtain ⟨hlive,hframe⟩ := List.mem_filter.mp ha
      obtain ⟨p,hp,rfl⟩ := List.mem_map.mp hlive
      obtain ⟨hl,hle⟩ := mem_small.mp hp
      refine ⟨p,hl,?_⟩
      rw [Takes, if_pos hle]
      exact ⟨ho,(of_decide_eq_true hframe).symm⟩

lemma isCoalesced_iff {st : BuddyAllocator} {L : Set Block} {A : Set ℕ} (hi : Buddy.Inv st F L ∅ A ∅) :
    IsCoalesced st ↔ Coalesced MAX_ORDER (Buddy.Free F) := by rw [IsCoalesced, hi.freeBlocks_eq]

lemma directAlloc_coalesced (hs : Splits mapped U u) (hp : Proper layout) (hco : IsCoalesced u.heap.buddy)
    {res : Except MemoryError ℕ} (hrun : directAlloc u.heap layout = .ok (res,h')) : IsCoalesced h'.buddy := by
  obtain ⟨F,B,G,Q,ht⟩ := hs.reach.tracks
  have hin : Buddy.Inv u.heap.buddy F (B ∪ slabBlocks G) ∅ u.added ∅ := ht.inv.buddy
  by_cases hsmall : effectiveSize layout ≤ SLUB_MAX
  · rw [directAlloc_small hp.size hsmall] at hrun
    rcases Slub.alloc_ok ht.inv (hp.small hsmall) with h1 | ⟨_,_,_,e,h1⟩ | ⟨h2,F2,G2,Q2,x,c,h1,hinv,_,_,_,_,_,hkeep⟩
    · obtain ⟨_,rfl⟩ := Prod.mk.inj (Except.ok.inj (h1.symm.trans hrun))
      exact hco
    · cases h1.symm.trans hrun
    · obtain ⟨_,rfl⟩ := Prod.mk.inj (Except.ok.inj (h1.symm.trans hrun))
      exact (isCoalesced_iff hinv.buddy).mpr (hkeep ((isCoalesced_iff hin).mp hco))
  · by_cases hle : effectiveSize layout ≤ BUDDY_MAX
    · obtain ⟨res',st',h1,rfl,_⟩ := directAlloc_large_ok hp (Nat.lt_of_not_le hsmall) hle hrun
      exact hin.alloc_coalesced hco h1
    · rw [directAlloc_big hp.size (Nat.lt_of_not_le hle)] at hrun
      obtain ⟨_,rfl⟩ := Prod.mk.inj (Except.ok.inj hrun)
      exact hco

lemma directFree_coalesced (hs : Splits mapped U u) (h0 : 0 ∉ U) (hp : p ∈ u.live) (hco : IsCoalesced u.heap.buddy)
    (hrun : directFree u.heap p.1 = .ok h') : IsCoalesced h'.buddy := by
  obtain ⟨F,B,G,Q,ht⟩ := hs.reach.tracks
  have hin : Buddy.Inv u.heap.buddy F (B ∪ slabBlocks G) ∅ u.added ∅ := ht.inv.buddy
  by_cases hle : effectiveSize p.2 ≤ SLUB_MAX
  · have hp' := mem_small.mpr ⟨hp,hle⟩
    obtain ⟨c,ha,_⟩ := ht.owned.fits p hp'
    rw [hs.directFree_small ht h0 hp'] at hrun
    rcases Slub.free_ok ht.inv ha with ⟨h2,F2,G2,Q2,h1,hinv,_,_,hkeep⟩ | ⟨_,h1⟩
    · obtain rfl := Except.ok.inj (h1.symm.trans hrun)
      exact (isCoalesced_iff hinv.buddy).mpr (hkeep ((isCoalesced_iff hin).mp hco))
    · cases h1.symm.trans hrun
  · have hp' := mem_large.mpr ⟨hp,Nat.lt_of_not_le hle⟩
    obtain ⟨b,hb,he,ho,_⟩ := hs.block ht hp'
    rw [hs.directFree_large ht h0 hp'] at hrun
    obtain ⟨st',h1,h2⟩ := bind_ok hrun
    obtain rfl := Except.ok.inj h2
    rw [he, Nat.add_sub_cancel_left, ← ho] at h1
    exact hin.free_coalesced hco (Or.inl hb) h1

end Splits

def allocAndFree : Except Fault Heap := do
  let h0 ← (Heap.dummy (BuddyAllocator.init fun _ => true) fun _ => 0).slubInit
  let st ← h0.buddy.addRange (1 * FRAME_SIZE) (2 * FRAME_SIZE)
  let (a,h1) ← directAlloc { h0 with buddy := st } ⟨24,8⟩
  assert (a = .ok (PHYSICAL_MEMORY_OFFSET + 4096)) "unexpected address"
  directFree h1 (PHYSICAL_MEMORY_OFFSET + 4096)

section Runs
variable (h0 : 0 ∉ U) (hlow : ∀ n ∈ U, n * FRAME_SIZE < PHYSICAL_MEMORY_MAX_SIZE)
include h0 hlow

/-- In every run each added frame is in one free block or in one block that objects take. Nothing is lost: when all objects
are freed, all frames are in free blocks. -/
theorem frames_accounted (hr : Reach mapped U u) : Tiles (freeBlocks u.heap.buddy ∪ taken u.live) u.added ∧
    Disjoint (freeBlocks u.heap.buddy) (taken u.live) ∧
    (u.live = [] → ∀ n ∈ u.added, ∃ b ∈ freeBlocks u.heap.buddy, n ∈ b) := by
  have hs := hr.splits h0 hlow
  obtain ⟨F,B,G,Q,ht⟩ := hs.reach.tracks
  have hin : Buddy.Inv u.heap.buddy F (B ∪ slabBlocks G) ∅ u.added ∅ := ht.inv.buddy
  have htiles := hin.tiles
  have hdis := hin.apart.1
  rw [Set.union_empty, ← hin.freeBlocks_eq, ← Splits.taken_eq ht] at htiles
  rw [Set.union_empty, ← hin.freeBlocks_eq, ← Splits.taken_eq ht] at hdis
  refine ⟨htiles,hdis,fun he n hn => ?_⟩
  obtain ⟨b,hb | ⟨p,hp,_⟩,hm⟩ := (htiles.cover n).mp hn
  · exact ⟨b,hb,hm⟩
  · rw [he] at hp
    cases hp

omit h0 hlow in
/-- A run over one frame that frees its only object. -/
lemma exists_churn : ∃ u u', Reach (fun _ => true) {1} u ∧ IsCoalesced u.heap.buddy ∧ Churns u u' [] ∧
    Reach (fun _ => true) {1} u' ∧ u'.live = [] ∧ u'.added = frameRange 1 2 := by
  have hok : allocAndFree.isOk = true := by decide +kernel
  cases hrun : allocAndFree with
  | error e =>
    rw [hrun] at hok
    cases hok
  | ok h3 =>
    obtain ⟨h0,e0,hrun⟩ := bind_ok hrun
    obtain ⟨st,e1,hrun⟩ := bind_ok hrun
    obtain ⟨⟨a,h1⟩,e2,hrun⟩ := bind_ok hrun
    obtain ⟨_,e3,hfree⟩ := bind_ok hrun
    obtain rfl := assert_ok e3
    have hbuddy := (Slub.slubInit_ok e0).1
    have hp : Proper ⟨24,8⟩ := ⟨by decide,3,rfl⟩
    have hsub : frameRange 1 2 ⊆ {1} := fun m hm => by
      obtain ⟨h1,h2⟩ := Buddy.mem_frameRange.mp hm
      exact Set.mem_singleton_iff.mpr (by omega)
    have hres : ∀ m ∈ frameRange 1 2, h0.buddy.ty m = some .reserved := fun m _ => by rw [hbuddy]; rfl
    have r1 := (Reach.init e0).addRange hsub hres e1
    have hnone : freeBlocks h0.buddy = ∅ := by
      rw [hbuddy]
      ext b
      simp [freeBlocks, BuddyAllocator.ty, BuddyAllocator.init]
    have hco : IsCoalesced st := by
      have hinv := Buddy.Inv.init fun _ => true
      rw [← hbuddy] at hinv
      refine hinv.addRange_coalesced ?_ hres (by rw [hnone]; simp) e1
      rw [IsCoalesced, hnone]
      intro b hb
      cases hb
    have hc := (Churns.alloc (@Churns.refl ⟨{ h0 with buddy := st },∅ ∪ frameRange 1 2,[]⟩) hp e2).free List.mem_cons_self hfree
    have r3 := (r1.alloc hp e2).free List.mem_cons_self hfree
    rw [List.erase_cons_head] at hc r3
    rw [Set.empty_union] at r1 r3 hc
    exact ⟨_,_,r1,hco,hc,r3,rfl,rfl⟩

omit h0 hlow in
theorem frames_accounted_one : ∃ u, Reach (fun _ => true) {1} u ∧ u.live = [] ∧
    ∃ b ∈ freeBlocks u.heap.buddy, 1 ∈ b := by
  obtain ⟨_,u,_,_,_,hr,hlive,hadd⟩ := exists_churn
  have h := frames_accounted (by decide) (fun n hn => by rw [Set.mem_singleton_iff.mp hn]; decide) hr
  exact ⟨u,hr,hlive,h.2.2 hlive 1 (by rw [hadd]; exact Buddy.mem_frameRange.mpr ⟨le_rfl,by decide⟩)⟩

lemma Churns.reach (h : Churns u u' held) (hu : Reach mapped U u) (hco : IsCoalesced u.heap.buddy) :
    Reach mapped U u' ∧ IsCoalesced u'.heap.buddy ∧ u'.added = u.added ∧ u'.live.Perm (held ++ u.live) := by
  induction h with
  | refl => exact ⟨hu,hco,rfl,List.Perm.refl _⟩
  | alloc _ hp hrun ih =>
    obtain ⟨hr,hc,hadd,hperm⟩ := ih
    exact ⟨hr.alloc hp hrun,(hr.splits h0 hlow).directAlloc_coalesced hp hc hrun,hadd,hperm.cons _⟩
  | allocFails _ hp hrun ih =>
    obtain ⟨hr,hc,hadd,hperm⟩ := ih
    exact ⟨hr.allocFails hp hrun,(hr.splits h0 hlow).directAlloc_coalesced hp hc hrun,hadd,hperm⟩
  | allocFrame _ hrun ih =>
    obtain ⟨hr,hc,hadd,hperm⟩ := ih
    obtain ⟨F,B,G,Q,ht⟩ := (hr.splits h0 hlow).reach.tracks
    obtain ⟨st',h1,rfl⟩ := allocFrame_ok hrun
    exact ⟨hr.allocFrame hrun,ht.inv.buddy.alloc_coalesced hc h1,hadd,hperm.cons _⟩
  | allocFrameFails _ hrun ih =>
    obtain ⟨hr,hc,hadd,hperm⟩ := ih
    obtain ⟨F,B,G,Q,ht⟩ := (hr.splits h0 hlow).reach.tracks
    obtain ⟨st',h1,rfl⟩ := allocFrame_ok hrun
    exact ⟨hr.allocFrameFails hrun,ht.inv.buddy.alloc_coalesced hc h1,hadd,hperm⟩
  | @free u1 held h' p _ hl hrun ih =>
    obtain ⟨hr,hc,hadd,hperm⟩ := ih
    have hin : p ∈ u1.live := hperm.mem_iff.mpr (List.mem_append_left _ hl)
    refine ⟨hr.free hin hrun,(hr.splits h0 hlow).directFree_coalesced h0 hin hc hrun,hadd,?_⟩
    rw [← List.erase_append_left _ hl]
    exact hperm.erase p
  | write _ hw ih =>
    obtain ⟨hr,hc,hadd,hperm⟩ := ih
    exact ⟨hr.write hw,hc,hadd,hperm⟩

/-- Every run from a coalesced state that frees all objects it allocated ends with the free blocks that it began with, and
with the other objects in the blocks that they were in. -/
theorem churn_restores (hu : Reach mapped U u) (hco : IsCoalesced u.heap.buddy) (hrun : Churns u u' []) :
    freeBlocks u'.heap.buddy = freeBlocks u.heap.buddy ∧ taken u'.live = taken u.live := by
  obtain ⟨hu',hco',hadd,hperm⟩ := hrun.reach h0 hlow hu hco
  have htaken : taken u'.live = taken u.live := taken_perm hperm
  obtain ⟨ht,hd,_⟩ := frames_accounted h0 hlow hu
  obtain ⟨ht',hd',_⟩ := frames_accounted h0 hlow hu'
  rw [hadd, htaken] at ht'
  rw [htaken] at hd'
  exact ⟨hco'.unique hco (ht'.of_union hd') (ht.of_union hd) (fun b hb => hb.1) (fun b hb => hb.1),htaken⟩

end Runs

theorem churn_restores_one : ∃ u u', Churns u u' [] ∧ freeBlocks u'.heap.buddy = freeBlocks u.heap.buddy := by
  obtain ⟨u,u',hr,hco,hc,_⟩ := exists_churn
  exact ⟨u,u',hc,(churn_restores (by decide) (fun n hn => by rw [Set.mem_singleton_iff.mp hn]; decide) hr hco hc).1⟩

end Lilith.Direct
