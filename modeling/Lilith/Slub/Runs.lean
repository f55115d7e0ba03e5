import Lilith.Slub.Free

/-! Runs of the slab allocator, over a buddy allocator that has other users. -/
namespace Lilith.Slub
open Theory
open Buddy (ListPtr SlabList FrameInfo FrameType BuddyAllocator FRAME_SIZE MAX_ORDER KeepsLive frameRange handles)
open Boot (Layout)

/-- The allocators with what their callers know: the frames that were added, the address and the order of each block that
others have, and the address and the layout of each object that was allocated and not freed. -/
structure Usage where
  heap : Heap
  added : Set ℕ
  blocks : Set (ℕ × ℕ)
  live : List (ℕ × Layout)

/-- The address is in an object. -/
def Inside (a : ℕ) (object : ℕ × Layout) : Prop := object.1 ≤ a ∧ a < object.1 + object.2.size

/-- The byte is in an object of the callers or in no slab. -/
def Usage.Foreign (u : Usage) (a : ℕ) : Prop :=
  (∃ p ∈ u.live, Inside a p) ∨ a < PHYSICAL_MEMORY_OFFSET ∨ u.heap.buddy.ty (frameAt a) ≠ some .slab

/-- The states that successful calls lead to, where only frames of `U` are added. Between calls the owners of objects
and of other memory write to it, which changes the words of eight bytes that have one of these bytes. -/
inductive Reach (mapped : ℕ → Bool) (U : Set ℕ) : Usage → Prop
  | init {words : ℕ → ℕ} {h : Heap} (hrun : (Heap.dummy (BuddyAllocator.init mapped) words).slubInit = .ok h) :
      Reach mapped U ⟨h,∅,∅,[]⟩
  | addRange {u : Usage} {st' : BuddyAllocator} {n e : ℕ} (h : Reach mapped U u) (hU : frameRange n e ⊆ U)
      (hres : ∀ m ∈ frameRange n e, u.heap.buddy.ty m = some .reserved)
      (hrun : u.heap.buddy.addRange (n * FRAME_SIZE) (e * FRAME_SIZE) = .ok st') :
      Reach mapped U ⟨{ u.heap with buddy := st' },u.added ∪ frameRange n e,u.blocks,u.live⟩
  | allocBlock {u : Usage} {st' : BuddyAllocator} {addr order : ℕ} (h : Reach mapped U u) (ho : order ≤ MAX_ORDER)
      (hrun : u.heap.buddy.alloc order = .ok (.ok addr,st')) :
      Reach mapped U ⟨{ u.heap with buddy := st' },u.added,insert (addr,order) u.blocks,u.live⟩
  | allocBlockFails {u : Usage} {st' : BuddyAllocator} {err : MemoryError} {order : ℕ} (h : Reach mapped U u)
      (ho : order ≤ MAX_ORDER) (hrun : u.heap.buddy.alloc order = .ok (.error err,st')) :
      Reach mapped U ⟨{ u.heap with buddy := st' },u.added,u.blocks,u.live⟩
  | freeBlock {u : Usage} {st' : BuddyAllocator} {addr order : ℕ} (h : Reach mapped U u) (hb : (addr,order) ∈ u.blocks)
      (hrun : u.heap.buddy.free addr order = .ok st') :
      Reach mapped U ⟨{ u.heap with buddy := st' },u.added,u.blocks \ {(addr,order)},u.live⟩
  | alloc {u : Usage} {h' : Heap} {layout : Layout} {a : ℕ} (h : Reach mapped U u) (hs : Small layout)
      (hrun : u.heap.alloc layout = .ok (.ok a,h')) : Reach mapped U ⟨h',u.added,u.blocks,(a,layout) :: u.live⟩
  | allocFails {u : Usage} {h' : Heap} {layout : Layout} {err : MemoryError} (h : Reach mapped U u) (hs : Small layout)
      (hrun : u.heap.alloc layout = .ok (.error err,h')) : Reach mapped U ⟨h',u.added,u.blocks,u.live⟩
  | free {u : Usage} {h' : Heap} {layout : Layout} {a : ℕ} (h : Reach mapped U u) (hl : (a,layout) ∈ u.live)
      (hrun : u.heap.free a = .ok h') : Reach mapped U ⟨h',u.added,u.blocks,u.live.erase (a,layout)⟩
  | write {u : Usage} {words : ℕ → ℕ} (h : Reach mapped U u)
      (hw : ∀ a, words a ≠ u.heap.words a → ∃ b, a ≤ b ∧ b < a + 8 ∧ u.Foreign b) :
      Reach mapped U ⟨{ u.heap with words := words },u.added,u.blocks,u.live⟩

variable {mapped : ℕ → Bool} {U : Set ℕ} {u : Usage} {h h' : Heap} {F F' : ℕ → List ℕ} {B B' : Set Block} {A A' : Set ℕ}
  {M : ℕ → Bool} {G : ℕ → Option Slab} {Q : ℕ → List ℕ} {st' : BuddyAllocator} {b : Block} {n c a order : ℕ}
  {live : List (ℕ × Layout)} {layout : Layout}

/-- The objects of the callers are those in use. -/
structure Owned (live : List (ℕ × Layout)) (G : ℕ → Option Slab) : Prop where
  nodup : (live.map Prod.fst).Nodup
  held : ∀ a, (∃ c, Holds G a c) → a ∈ live.map Prod.fst
  fits : ∀ p ∈ live, ∃ c, Holds G p.1 c ∧ p.2.size ≤ classSize c ∧ p.2.align ∣ p.1

namespace Inv

/-- A call of the buddy allocator that keeps the slabs. -/
lemma of_buddy (hi : Inv h F B A M G Q) (hb : Buddy.Inv st' F' (B' ∪ slabBlocks G) ∅ A' ∅)
    (hframes : ∀ n, (G n).isSome → st'.frames n = h.buddy.frames n)
    (hothers : ∀ b ∈ B', st'.ty b.start = some .buddyAllocated) (hmapped : ∀ n, (st'.ty n).isSome = M n) :
    Inv { h with buddy := st' } F' B' A' M G Q := by
  refine ⟨⟨hi.core.congr rfl rfl (fun n s hG => ?_) fun _ _ _ _ _ => rfl,hb,fun n hn => ?_,hothers,hmapped⟩,hi.listed,hi.retained⟩
  · simp only [Heap.node, hframes n (by rw [hG]; rfl)]
  · simp only [BuddyAllocator.ty, hframes n hn]
    exact hi.typed n hn

/-- What a call keeps of the live blocks. -/
lemma frames_of_keepsLive {L : Set Block} (hlive : KeepsLive h.buddy st' L) (hsub : slabBlocks G ⊆ L) (n : ℕ)
    (hn : (G n).isSome) : st'.frames n = h.buddy.frames n := by
  have := hlive.frames ⟨0,n⟩ (hsub (mem_slabBlocks hn))
  rwa [start_zero] at this

lemma ty_of_keepsLive {L : Set Block} (hi : Inv h F B A M G Q) (hlive : KeepsLive h.buddy st' L) (hb : b ∈ B) (hL : b ∈ L) :
    st'.ty b.start = some .buddyAllocated := by
  simp only [BuddyAllocator.ty, hlive.frames b hL]
  exact hi.others b hb

/-- A block of others is not that of a slab. -/
lemma not_slab (hi : Inv h F B A M G Q) (hb : b ∈ B) : b ∉ slabBlocks G := by
  intro ⟨_,hG⟩
  have hty := hi.others b hb
  rw [hi.typed _ hG] at hty
  simp at hty

lemma allocBlock (hi : Inv h F B A M G Q) (ho : order ≤ MAX_ORDER) :
    h.buddy.alloc order = .ok (.error .outOfMemory,h.buddy) ∨
    ∃ b st' F', h.buddy.alloc order = .ok (.ok (b.start * FRAME_SIZE),st') ∧ b.order = order ∧ b ∉ B ∧ b ∉ slabBlocks G ∧
      Inv { h with buddy := st' } F' (insert b B) A M G Q := by
  rcases hi.buddy.alloc_ok ho with ⟨h1,_⟩ | ⟨_,b,st',F',h1,hb,hL,hinv,hlive,_⟩
  · exact Or.inl h1
  · refine Or.inr ⟨b,st',F',h1,hb,fun hB => hL (Or.inl hB),fun hG => hL (Or.inr hG),hi.of_buddy ?_ ?_ ?_ ?_⟩
    · rw [Set.insert_union]
      exact hinv
    · exact frames_of_keepsLive hlive Set.subset_union_right
    · intro d hd
      rcases hd with rfl | hd
      · have := Buddy.alloc_ty h1
        rwa [Nat.mul_div_cancel _ (by decide)] at this
      · exact hi.ty_of_keepsLive hlive hd (Or.inl hd)
    · exact fun n => (hlive.mapped n).trans (hi.mapped n)

lemma freeBlock (hi : Inv h F B A M G Q) (hb : b ∈ B) :
    (∃ st' F', h.buddy.free (b.start * FRAME_SIZE) b.order = .ok st' ∧ Inv { h with buddy := st' } F' (B \ {b}) A M G Q) ∨
    Unmapped A M ∧ h.buddy.free (b.start * FRAME_SIZE) b.order = .error .dangling := by
  have hslab : b ∉ slabBlocks G := hi.not_slab hb
  have hsub : slabBlocks G ⊆ (B ∪ slabBlocks G) \ {b} := by
    intro d hd
    refine ⟨Or.inr hd,?_⟩
    rintro rfl
    exact hslab hd
  rcases hi.buddy.free_cases (Or.inl hb) with ⟨st',F',r,hinv,hlive,_,_⟩ | ⟨r,m,hm,hnone⟩
  · refine Or.inl ⟨st',F',r,hi.of_buddy ?_ ?_ ?_ ?_⟩
    · rw [Set.union_sdiff_distrib, Set.sdiff_singleton_eq_self hslab] at hinv
      exact hinv
    · exact frames_of_keepsLive hlive hsub
    · exact fun d hd => hi.ty_of_keepsLive hlive hd.1 ⟨Or.inl hd.1,hd.2⟩
    · exact fun n => (hlive.mapped n).trans (hi.mapped n)
  · obtain ⟨d,ho,hd,rfl⟩ := hi.buddy.inspects_block (Or.inl hb) hm
    refine Or.inr ⟨⟨d,ho,hd,?_⟩,r⟩
    rw [← hi.mapped, hnone]
    rfl

lemma addRange {e : ℕ} (hi : Inv h F B A M G Q) (hres : ∀ m ∈ frameRange n e, h.buddy.ty m = some .reserved) :
    ∃ st' F', h.buddy.addRange (n * FRAME_SIZE) (e * FRAME_SIZE) = .ok st' ∧
      Inv { h with buddy := st' } F' B (A ∪ frameRange n e) M G Q := by
  obtain ⟨st',F',r,hinv,hlive,_⟩ := hi.buddy.addRange_ok hres
  refine ⟨st',F',r,hi.of_buddy hinv ?_ ?_ ?_⟩
  · exact frames_of_keepsLive hlive Set.subset_union_right
  · exact fun d hd => hi.ty_of_keepsLive hlive hd (Or.inl hd)
  · exact fun n => (hlive.mapped n).trans (hi.mapped n)

/-- Every frame of the type is that of a slab. -/
lemma slab_iff (hi : Inv h F B A M G Q) : (G n).isSome ↔ h.buddy.ty n = some .slab := by
  refine ⟨hi.typed n,fun hty => ?_⟩
  have hn : n ∈ A := by
    by_contra hn
    have := hi.buddy.outside n hn (Set.notMem_empty n) _ hty
    simp at this
  obtain ⟨b,hb,hnb⟩ := (hi.buddy.tiles.cover n).mp hn
  by_cases hstart : n = b.start
  · rw [hstart] at hty ⊢
    rcases hb with (hb | hb | ⟨_,hb⟩) | hb
    · rw [hi.buddy.free b hb] at hty
      simp at hty
    · rw [hi.others b hb] at hty
      simp at hty
    · exact hb
    · exact absurd hb (Set.notMem_empty b)
  · rw [hi.buddy.tail b hb n hnb hstart] at hty
    simp at hty

/-- The bytes of a free object are not of an object in use. -/
lemma not_foreign (hi : Inv h F B A M G Q) (hl : Owned live G) {s : Slab} (hG : G n = some s) (ha : a ∈ s.free) {b : ℕ}
    (hab : a ≤ b) (hb : b < a + 8) : ¬ Usage.Foreign ⟨h,A,handles B,live⟩ b := by
  have hslot := (hi.core.free n s hG).2 a ha
  have hc := (hi.core.cache n s hG).1
  have hsize := (classSize_bounds hc).1
  obtain ⟨hlo,hhi⟩ := slot_bounds hslot
  have hframe : frameAt b = n := by
    unfold frameAt
    unfold FRAME_SIZE at *
    omega
  rintro (⟨p,hp,hin⟩ | hlow | hty)
  · obtain ⟨c,⟨m,s',hG',rfl,hslot',hused⟩,hfit,_⟩ := hl.fits p hp
    have hc' := (hi.core.cache m s' hG').1
    obtain ⟨hlo',hhi'⟩ := slot_bounds hslot'
    obtain ⟨h1,h2⟩ := hin
    have hm : m = n := by
      rw [← hframe]
      unfold frameAt
      unfold FRAME_SIZE at *
      omega
    subst hm
    obtain rfl := Option.some.inj (hG'.symm.trans hG)
    have hne : a ≠ p.1 := by
      rintro rfl
      exact hused ha
    rcases slot_apart hslot hslot' hne with hlt | hlt
    · omega
    · omega
  · omega
  · exact hty (by rw [hframe]; exact hi.typed n (by rw [hG]; rfl))

/-- Writes of the owners of other bytes. -/
lemma write (hi : Inv h F B A M G Q) (hl : Owned live G) {words : ℕ → ℕ}
    (hw : ∀ a, words a ≠ h.words a → ∃ b, a ≤ b ∧ b < a + 8 ∧ Usage.Foreign ⟨h,A,handles B,live⟩ b) :
    Inv { h with words := words } F B A M G Q := by
  refine ⟨⟨hi.core.congr rfl rfl (fun _ _ _ => rfl) fun n s hG a ha => ?_,hi.buddy,hi.typed,hi.others,hi.mapped⟩,hi.listed,
    hi.retained⟩
  by_contra hne
  obtain ⟨b,hab,hb,hforeign⟩ := hw a hne
  exact hi.not_foreign hl hG ha hab hb hforeign

end Inv

namespace Owned
variable {G' : ℕ → Option Slab} {x : ℕ}

/-- An object that was given out. -/
lemma alloc (hl : Owned live G) (hnew : ∀ c, ¬ Holds G x c)
    (hholds : ∀ a c', Holds G' a c' ↔ Holds G a c' ∨ a = x ∧ c' = c) (hs : Small layout) (hsize : layout.size ≤ classSize c)
    (halign : layout.align ∣ classSize c) : Owned ((x,layout) :: live) G' := by
  have hheld : Holds G' x c := (hholds x c).mpr (Or.inr ⟨rfl,rfl⟩)
  have hdvd : layout.align ∣ x := by
    obtain ⟨n,s,_,_,hslot,_⟩ := hheld
    exact dvd_slot halign hs.align_dvd hslot
  have hx : x ∉ live.map Prod.fst := by
    intro hx
    obtain ⟨p,hp,rfl⟩ := List.mem_map.mp hx
    obtain ⟨c',h1,_⟩ := hl.fits p hp
    exact hnew c' h1
  refine ⟨List.nodup_cons.mpr ⟨hx,hl.nodup⟩,fun a ha => ?_,fun p hp => ?_⟩
  · obtain ⟨c',ha⟩ := ha
    rcases (hholds a c').mp ha with ha | ⟨rfl,_⟩
    · exact List.mem_cons_of_mem _ (hl.held a ⟨c',ha⟩)
    · exact List.mem_cons_self
  · rcases List.mem_cons.mp hp with rfl | hp
    · exact ⟨c,hheld,hsize,hdvd⟩
    · obtain ⟨c',h1,h2⟩ := hl.fits p hp
      exact ⟨c',(hholds p.1 c').mpr (Or.inl h1),h2⟩

/-- An object that was freed. -/
lemma free (hl : Owned live G) (ha : (a,layout) ∈ live) (hholds : ∀ b c', Holds G' b c' ↔ Holds G b c' ∧ b ≠ a) :
    Owned (live.erase (a,layout)) G' := by
  have hperm := List.perm_cons_erase ha
  have hnd := (hperm.map Prod.fst).nodup_iff.mp hl.nodup
  rw [List.map_cons, List.nodup_cons] at hnd
  refine ⟨hnd.2,fun b hb => ?_,fun p hp => ?_⟩
  · obtain ⟨c',hb⟩ := hb
    obtain ⟨h1,h2⟩ := (hholds b c').mp hb
    have hmem := (hperm.map Prod.fst).mem_iff.mp (hl.held b ⟨c',h1⟩)
    rw [List.map_cons, List.mem_cons] at hmem
    exact hmem.resolve_left h2
  · obtain ⟨c',h1,h2⟩ := hl.fits p (List.mem_of_mem_erase hp)
    refine ⟨c',(hholds p.1 c').mpr ⟨h1,?_⟩,h2⟩
    intro he
    have hin := List.mem_map_of_mem (f := Prod.fst) hp
    rw [he] at hin
    exact hnd.1 hin

end Owned

/-- The state of a run: the invariant, and what the callers know. -/
structure Tracks (mapped : ℕ → Bool) (U : Set ℕ) (u : Usage) (F : ℕ → List ℕ) (B : Set Block) (G : ℕ → Option Slab)
    (Q : ℕ → List ℕ) : Prop where
  inv : Inv u.heap F B u.added mapped G Q
  blocks : u.blocks = handles B
  owned : Owned u.live G
  added : u.added ⊆ U

lemma slubInit_ok {buddy : BuddyAllocator} {words : ℕ → ℕ} (hrun : (Heap.dummy buddy words).slubInit = .ok h) :
    h.buddy = buddy ∧ h.sizeLookup = lookupTable ∧ ∀ c < NUM_SIZE_CLASSES,
      h.slabs c = ⟨⟨.head c,.head c,0,0,c⟩,classSize c,0,slotCount c⟩ := by
  simp only [Heap.slubInit, initSizeLookup_eq, bind, Except.bind] at hrun
  obtain rfl := Except.ok.inj hrun
  refine ⟨rfl,rfl,fun c hc => ?_⟩
  simp only [getElem?_sizeClasses hc]
  rfl

/-- After `slub_init` there is no slab. -/
lemma tracks_init {words : ℕ → ℕ} (hrun : (Heap.dummy (BuddyAllocator.init mapped) words).slubInit = .ok h) :
    Tracks mapped U ⟨h,∅,∅,[]⟩ (fun _ => []) ∅ (fun _ => none) fun _ => [] := by
  obtain ⟨hbuddy,hlookup,hslabs⟩ := slubInit_ok hrun
  have hnode : ∀ c < NUM_SIZE_CLASSES, h.node (.head c) = some ⟨.head c,.head c,0,0,c⟩ := fun c hc => by
    rw [Heap.node, if_pos hc, hslabs c hc]
  have hblocks : (∅ : Set Block) ∪ slabBlocks (fun _ => none) = ∅ := by
    ext b
    simp [slabBlocks]
  have hcore : Core h (fun _ => none) fun _ => [] := by
    refine ⟨hlookup,fun c hc => ?_,fun c hc => ⟨0,0,?_⟩,⟨fun c hc => Ring.nil_iff.mpr ?_,fun c _ d _ hcd y hy => ?_⟩,by simp,
      by simp,by simp,by simp⟩
    · rw [hslabs c hc]
      exact ⟨rfl,rfl,rfl⟩
    · rw [Heap.data, hnode c hc]
      rfl
    · rw [Heap.next, Heap.prev, hnode c hc]
      exact ⟨rfl,rfl⟩
    · simp only [List.map_nil, List.mem_singleton] at hy ⊢
      rw [hy]
      intro he
      exact hcd (ListPtr.head.inj he)
  refine ⟨⟨⟨hcore,?_,by simp,by simp,fun n => ?_⟩,by simp,by simp⟩,by simp [handles],⟨List.nodup_nil,?_,by simp⟩,
    Set.empty_subset U⟩
  · rw [hblocks, hbuddy]
    exact Buddy.Inv.init mapped
  · rw [hbuddy]
    simp only [BuddyAllocator.ty, BuddyAllocator.init]
    cases mapped n <;> rfl
  · rintro a ⟨c,n,s,hG,_⟩
    simp at hG

/-- In every run the invariant holds. -/
theorem Reach.tracks (hr : Reach mapped U u) : ∃ F B G Q, Tracks mapped U u F B G Q := by
  induction hr with
  | init hrun => exact ⟨_,_,_,_,tracks_init hrun⟩
  | @addRange u st' n e _ hU hres hrun ih =>
    obtain ⟨F,B,G,Q,ht⟩ := ih
    obtain ⟨st1,F1,h1,h2⟩ := ht.inv.addRange hres
    obtain rfl := Except.ok.inj (h1.symm.trans hrun)
    exact ⟨F1,B,G,Q,h2,ht.blocks,ht.owned,Set.union_subset ht.added hU⟩
  | @allocBlock u st' addr order _ ho hrun ih =>
    obtain ⟨F,B,G,Q,ht⟩ := ih
    rcases ht.inv.allocBlock ho with h1 | ⟨b,st1,F1,h1,rfl,_,_,h2⟩
    · rw [h1] at hrun
      simp at hrun
    · obtain ⟨h3,rfl⟩ := Prod.mk.inj (Except.ok.inj (h1.symm.trans hrun))
      obtain rfl := Except.ok.inj h3
      refine ⟨F1,insert b B,G,Q,h2,?_,ht.owned,ht.added⟩
      rw [Buddy.handles_insert, ht.blocks]
  | @allocBlockFails u st' err order _ ho hrun ih =>
    obtain ⟨F,B,G,Q,ht⟩ := ih
    rcases ht.inv.allocBlock ho with h1 | ⟨b,st1,F1,h1,_⟩
    · obtain ⟨_,rfl⟩ := Prod.mk.inj (Except.ok.inj (h1.symm.trans hrun))
      exact ⟨F,B,G,Q,ht⟩
    · rw [h1] at hrun
      simp at hrun
  | @freeBlock u st' addr order _ hb hrun ih =>
    obtain ⟨F,B,G,Q,ht⟩ := ih
    rw [ht.blocks] at hb
    obtain ⟨b,hbB,he⟩ := hb
    obtain ⟨rfl,rfl⟩ := Prod.mk.inj he
    rcases ht.inv.freeBlock hbB with ⟨st1,F1,h1,h2⟩ | ⟨_,h1⟩
    · obtain rfl := Except.ok.inj (h1.symm.trans hrun)
      refine ⟨F1,B \ {b},G,Q,h2,?_,ht.owned,ht.added⟩
      rw [Buddy.handles_remove, ht.blocks]
    · rw [h1] at hrun
      simp at hrun
  | @alloc u h' layout a _ hs hrun ih =>
    obtain ⟨F,B,G,Q,ht⟩ := ih
    rcases alloc_ok ht.inv hs with h1 | ⟨_,_,_,e,h1⟩ | ⟨h2,F2,G2,Q2,x,c,h1,hinv,hsize,halign,hnew,hholds,_⟩
    · rw [h1] at hrun
      simp at hrun
    · rw [h1] at hrun
      simp at hrun
    · obtain ⟨h3,rfl⟩ := Prod.mk.inj (Except.ok.inj (h1.symm.trans hrun))
      obtain rfl := Except.ok.inj h3
      exact ⟨F2,B,G2,Q2,hinv,ht.blocks,ht.owned.alloc hnew hholds hs hsize halign,ht.added⟩
  | @allocFails u h' layout err _ hs hrun ih =>
    obtain ⟨F,B,G,Q,ht⟩ := ih
    rcases alloc_ok ht.inv hs with h1 | ⟨_,_,_,e,h1⟩ | ⟨_,_,_,_,_,_,h1,_⟩
    · obtain ⟨_,rfl⟩ := Prod.mk.inj (Except.ok.inj (h1.symm.trans hrun))
      exact ⟨F,B,G,Q,ht⟩
    · rw [h1] at hrun
      simp at hrun
    · rw [h1] at hrun
      simp at hrun
  | @free u h' layout a _ hl hrun ih =>
    obtain ⟨F,B,G,Q,ht⟩ := ih
    obtain ⟨c,ha,_⟩ := ht.owned.fits _ hl
    rcases free_ok ht.inv ha with ⟨h2,F2,G2,Q2,h1,hinv,hholds,_⟩ | ⟨_,h1⟩
    · obtain rfl := Except.ok.inj (h1.symm.trans hrun)
      exact ⟨F2,B,G2,Q2,hinv,ht.blocks,ht.owned.free hl hholds,ht.added⟩
    · rw [h1] at hrun
      simp at hrun
  | @write u words _ hw ih =>
    obtain ⟨F,B,G,Q,ht⟩ := ih
    refine ⟨F,B,G,Q,ht.inv.write ht.owned fun a ha => ?_,ht.blocks,ht.owned,ht.added⟩
    obtain ⟨b,h1,h2,h3⟩ := hw a ha
    exact ⟨b,h1,h2,h3⟩

/-- The objects of the callers in a frame. -/
def Usage.objects (u : Usage) (n : ℕ) : List ℕ := (u.live.map Prod.fst).filter fun a => frameAt a = n

/-- The free objects of a slab and those of the callers are its slots. -/
lemma Tracks.slots_perm (ht : Tracks mapped U u F B G Q) {s : Slab} (hG : G n = some s) :
    (s.free ++ u.objects n).Perm (slots n s.cache) := by
  obtain ⟨hd,hslots⟩ := ht.inv.core.free n s hG
  have hc := (ht.inv.core.cache n s hG).1
  have hheld : ∀ a, a ∈ u.objects n ↔ a ∈ slots n s.cache ∧ a ∉ s.free := by
    intro a
    rw [Usage.objects, List.mem_filter, decide_eq_true_iff]
    constructor
    · intro ⟨ha,hframe⟩
      obtain ⟨p,hp,rfl⟩ := List.mem_map.mp ha
      obtain ⟨c,⟨m,s',hG',rfl,hslot,hused⟩,_⟩ := ht.owned.fits p hp
      obtain rfl : n = m := by
        rw [← hframe]
        exact frameAt_slot (ht.inv.core.cache m s' hG').1 hslot
      obtain rfl := Option.some.inj (hG'.symm.trans hG)
      exact ⟨hslot,hused⟩
    · intro ⟨hslot,hused⟩
      exact ⟨ht.owned.held a ⟨s.cache,n,s,hG,rfl,hslot,hused⟩,frameAt_slot hc hslot⟩
  refine (List.perm_ext_iff_of_nodup ?_ (nodup_slots hc)).mpr fun a => ?_
  · refine List.nodup_append.mpr ⟨hd,ht.owned.nodup.filter _,fun a ha b hb => ?_⟩
    rintro rfl
    exact ((hheld a).mp hb).2 ha
  · rw [List.mem_append, hheld]
    constructor
    · rintro (ha | ha)
      · exact hslots a ha
      · exact ha.1
    · intro ha
      by_cases hf : a ∈ s.free
      · exact Or.inl hf
      · exact Or.inr ⟨ha,hf⟩

/-- The objects of the callers are in slabs, aligned, and do not overlap. -/
lemma Tracks.apart (ht : Tracks mapped U u F B G Q) :
    u.live.Pairwise fun p q => p.1 + p.2.size ≤ q.1 ∨ q.1 + q.2.size ≤ p.1 := by
  have hnd := ht.owned.nodup
  rw [List.Nodup, List.pairwise_map] at hnd
  refine hnd.imp_of_mem fun {p q} hp hq hne => ?_
  obtain ⟨c,⟨n,s,hG,rfl,hslot,_⟩,hfit,_⟩ := ht.owned.fits p hp
  obtain ⟨c',⟨n',s',hG',rfl,hslot',_⟩,hfit',_⟩ := ht.owned.fits q hq
  by_cases hn : n = n'
  · subst hn
    obtain rfl := Option.some.inj (hG'.symm.trans hG)
    rcases slot_apart hslot hslot' hne with hlt | hlt
    · left
      omega
    · right
      omega
  · obtain ⟨h1,h2⟩ := slot_bounds hslot
    obtain ⟨h3,h4⟩ := slot_bounds hslot'
    unfold FRAME_SIZE at *
    rcases Nat.lt_or_gt_of_ne hn with hlt | hlt
    · left
      omega
    · right
      omega

/-- How the slabs `G` are organised, where `Q` are the frames on the list of each cache. -/
structure Organised (u : Usage) (G : ℕ → Option Slab) (Q : ℕ → List ℕ) : Prop where
  slab : ∀ n, (G n).isSome ↔ u.heap.buddy.ty n = some .slab
  caches : ∀ c < NUM_SIZE_CLASSES, (u.heap.slabs c).objectSize = classSize c ∧ (u.heap.slabs c).maxFreeCount = slotCount c
  /-- `free_list` is a chain of `free_count` objects -/
  free : ∀ n s, G n = some s → s.cache < NUM_SIZE_CLASSES ∧ s.free.Nodup ∧
    ∃ p, u.heap.data (.frame n) = some (p,s.free.length,s.cache) ∧ Chain u.heap.words p s.free
  slots : ∀ n s, G n = some s → (s.free ++ u.objects n).Perm (slots n s.cache)
  rings : Rings u.heap.next u.heap.prev ListPtr.head (fun c => (Q c).map ListPtr.frame) { c | c < NUM_SIZE_CLASSES }
  listed : ∀ c < NUM_SIZE_CLASSES, ∀ n, n ∈ Q c ↔ ∃ s, G n = some s ∧ s.cache = c ∧ 0 < s.free.length ∧
    s.free.length < slotCount c
  retained : ∀ n s, G n = some s → s.free.length < slotCount s.cache
  /-- each added frame is in one free block, in one block of others, or a slab -/
  frames : ∃ F B, u.blocks = handles B ∧ Disjoint B (slabBlocks G) ∧
    Buddy.Partition ⟨u.heap.buddy,u.added,handles (B ∪ slabBlocks G)⟩ F (B ∪ slabBlocks G)
  fits : ∀ p ∈ u.live, p.2.align ∣ p.1 ∧ (G (frameAt p.1)).isSome
  apart : u.live.Pairwise fun p q => p.1 + p.2.size ≤ q.1 ∨ q.1 + q.2.size ≤ p.1

lemma Tracks.organised (ht : Tracks mapped U u F B G Q) : Organised u G Q := by
  have hcore := ht.inv.core
  refine ⟨fun n => ht.inv.slab_iff,fun c hc => ?_,fun n s hG => ⟨(hcore.cache n s hG).1,(hcore.free n s hG).1,hcore.data n s hG⟩,
    fun n s hG => ht.slots_perm hG,hcore.rings,fun c hc n => ?_,ht.inv.retained,⟨F,B,ht.blocks,?_,ht.inv.buddy.partition rfl⟩,
    fun p hp => ?_,ht.apart⟩
  · obtain ⟨h1,_,h2⟩ := hcore.caches c hc
    exact ⟨h1,h2⟩
  · constructor
    · intro hn
      obtain ⟨xs,hG⟩ := hcore.listed c hc n hn
      exact ⟨_,hG,rfl,List.length_pos_of_ne_nil ((ht.inv.listed n _ hG).mp hn),ht.inv.retained n _ hG⟩
    · intro ⟨s,hG,hs,hpos,_⟩
      rw [← hs, ht.inv.listed n s hG]
      exact List.ne_nil_of_length_pos hpos
  · rw [Set.disjoint_left]
    exact fun b hb => ht.inv.not_slab hb
  · obtain ⟨c,⟨n,s,hG,rfl,hslot,_⟩,_,halign⟩ := ht.owned.fits p hp
    refine ⟨halign,?_⟩
    rw [frameAt_slot (hcore.cache n s hG).1 hslot, hG]
    rfl

/-- In every run the slabs are organised so, and an allocation that fails changes nothing. -/
theorem slabs_organised (hr : Reach mapped U u) : (∃ G Q, Organised u G Q) ∧
    ∀ layout err h', Small layout → u.heap.alloc layout = .ok (.error err,h') → err = .outOfMemory ∧ h' = u.heap := by
  obtain ⟨F,B,G,Q,ht⟩ := hr.tracks
  refine ⟨⟨G,Q,ht.organised⟩,fun layout err h' hs hrun => ?_⟩
  rcases alloc_ok ht.inv hs with h1 | ⟨_,_,_,e,h1⟩ | ⟨_,_,_,_,_,_,h1,_⟩
  · obtain ⟨h2,rfl⟩ := Prod.mk.inj (Except.ok.inj (h1.symm.trans hrun))
    exact ⟨(Except.error.inj h2).symm,rfl⟩
  · rw [h1] at hrun
    simp at hrun
  · rw [h1] at hrun
    simp at hrun

/-- Of two objects of 1024 bytes in a slab the first is freed. -/
def twoObjects : Except Fault Heap := do
  let h0 ← (Heap.dummy (BuddyAllocator.init fun _ => true) fun _ => 0).slubInit
  let st ← h0.buddy.addRange (1 * FRAME_SIZE) (2 * FRAME_SIZE)
  let (a,h1) ← { h0 with buddy := st }.alloc ⟨1024,8⟩
  let (b,h2) ← h1.alloc ⟨1024,8⟩
  assert (a = .ok (PHYSICAL_MEMORY_OFFSET + 4096) ∧ b = .ok (PHYSICAL_MEMORY_OFFSET + 5120)) "unexpected address"
  h2.free (PHYSICAL_MEMORY_OFFSET + 4096)

theorem slabs_organised_twoObjects : ∃ h, twoObjects = .ok h ∧
    (∃ G Q, Organised ⟨h,frameRange 1 2,∅,[(PHYSICAL_MEMORY_OFFSET + 5120,⟨1024,8⟩)]⟩ G Q) ∧
    ∀ layout err h', Small layout → h.alloc layout = .ok (.error err,h') → err = .outOfMemory ∧ h' = h := by
  have hok : twoObjects.isOk = true := by decide +kernel
  have hs : Small ⟨1024,8⟩ := ⟨by decide,3,by decide⟩
  cases hrun : twoObjects with
  | error e =>
    rw [hrun] at hok
    simp [Except.isOk, Except.toBool] at hok
  | ok h =>
    obtain ⟨h0,e0,hrun⟩ := bind_ok hrun
    obtain ⟨st,e1,hrun⟩ := bind_ok hrun
    obtain ⟨⟨a,h1⟩,e2,hrun⟩ := bind_ok hrun
    obtain ⟨⟨b,h2⟩,e3,hrun⟩ := bind_ok hrun
    obtain ⟨_,e4,hrun⟩ := bind_ok hrun
    obtain ⟨rfl,rfl⟩ := assert_ok e4
    have r0 : Reach (fun _ => true) Set.univ _ := .init e0
    have r1 := r0.addRange (Set.subset_univ _) (fun m _ => by rw [(slubInit_ok e0).1]; rfl) e1
    have r2 := (r1.alloc hs e2).alloc hs e3
    have r3 := r2.free (List.mem_cons_of_mem _ List.mem_cons_self) hrun
    rw [Set.empty_union, List.erase_cons_tail (by decide), List.erase_cons_head] at r3
    exact ⟨h,rfl,slabs_organised r3⟩

end Lilith.Slub
