import Lilith.Slub.Invariant

/-! `SlubAllocator::alloc` keeps the invariant, and gives one free object out. -/
namespace Lilith.Slub
open Theory
open Buddy (ListPtr SlabList FrameInfo FrameType BuddyAllocator FRAME_SIZE MAX_ORDER KeepsLive)
open Boot (Layout)

def slabBlocks (G : ℕ → Option Slab) : Set Block := { b | b.order = 0 ∧ (G b.start).isSome }

/-- The slabs and the blocks `B` of others are the live blocks of the buddy allocator, and the types of their frames
tell which is which. -/
structure Pre (h : Heap) (F : ℕ → List ℕ) (B : Set Block) (A : Set ℕ) (M : ℕ → Bool) (G : ℕ → Option Slab)
    (Q : ℕ → List ℕ) : Prop where
  core : Core h G Q
  buddy : Buddy.Inv h.buddy F (B ∪ slabBlocks G) ∅ A ∅
  typed : ∀ n, (G n).isSome → h.buddy.ty n = some .slab
  others : ∀ b ∈ B, h.buddy.ty b.start = some .buddyAllocated
  /-- the frames with a `FrameInfo` -/
  mapped : ∀ n, (h.buddy.ty n).isSome = M n

/-- The invariant between calls: the slabs with free objects are on the lists, and no slab has only free objects. -/
structure Inv (h : Heap) (F : ℕ → List ℕ) (B : Set Block) (A : Set ℕ) (M : ℕ → Bool) (G : ℕ → Option Slab)
    (Q : ℕ → List ℕ) : Prop extends Pre h F B A M G Q where
  listed : ∀ n s, G n = some s → (n ∈ Q s.cache ↔ s.free ≠ [])
  retained : ∀ n s, G n = some s → s.free.length < slotCount s.cache

/-- The object at `a`, of the cache `c`, is in use. -/
def Holds (G : ℕ → Option Slab) (a c : ℕ) : Prop := ∃ n s, G n = some s ∧ s.cache = c ∧ a ∈ slots n c ∧ a ∉ s.free

variable {h h' : Heap} {F : ℕ → List ℕ} {B : Set Block} {A : Set ℕ} {M : ℕ → Bool} {G G' : ℕ → Option Slab} {Q Q' : ℕ → List ℕ}
  {n c c' a x : ℕ} {xs ys zs : List ℕ} {layout : Layout}

lemma start_zero (n : ℕ) : (Block.mk 0 n).start = n := by simp [Block.start]

lemma mem_slabBlocks (hn : (G n).isSome) : Block.mk 0 n ∈ slabBlocks G := ⟨rfl,by rw [start_zero]; exact hn⟩

namespace Pre

lemma kept (hp : Pre h F B A M G Q) (hcore : Core h' G' Q') (hG : ∀ n, (G' n).isSome = (G n).isSome)
    (hheads : h'.buddy.heads = h.buddy.heads) (hty : h'.buddy.ty = h.buddy.ty)
    (hfr : ∀ m, G m = none → h'.buddy.frames m = h.buddy.frames m) : Pre h' F B A M G' Q' := by
  have hblocks : slabBlocks G' = slabBlocks G := by
    ext b
    simp only [slabBlocks, Set.mem_ofPred_eq, hG]
  refine ⟨hcore,?_,fun n hn => ?_,fun b hb => ?_,fun n => ?_⟩
  · rw [hblocks]
    refine hp.buddy.overwrite hheads hty fun m hm => ?_
    have hsome : (G m).isSome := by
      rw [Option.isSome_iff_ne_none]
      exact fun hnone => hm (hfr m hnone)
    exact ⟨⟨0,m⟩,Or.inl (Or.inr (mem_slabBlocks hsome)),start_zero m,fun _ => hp.typed m hsome⟩
  · rw [hty]
    rw [hG] at hn
    exact hp.typed n hn
  · rw [hty]
    exact hp.others b hb
  · rw [hty]
    exact hp.mapped n

lemma pop (hp : Pre h F B A M G Q) (hG : G n = some ⟨c,x::xs⟩) : ∃ sl h', h.read (.frame n) = .ok sl ∧ sl.freeList = x ∧
    sl.freeCount = xs.length + 1 ∧
    h.write (.frame n) { sl with freeList := h.words x, freeCount := xs.length } = .ok h' ∧
    Pre h' F B A M (Function.update G n (some ⟨c,xs⟩)) Q ∧ h'.words = h.words := by
  obtain ⟨p,hdata,hpx,hx,hchain⟩ := hp.core.data n _ hG
  obtain ⟨hd,hslots⟩ := hp.core.free n _ hG
  have hty : (h.buddy.ty n).isSome := by
    rw [hp.typed n (by rw [hG]; rfl)]
    rfl
  obtain ⟨h',r,hcore,hkept,hfr⟩ := hp.core.write hty
    ⟨h.next (.frame n),h.prev (.frame n),h.words x,xs.length,c⟩
    (fun c' hc' hn => ⟨rfl,rfl,hp.core.cache_of_mem hc' hn hG⟩) (hp.core.cache n _ hG) rfl hchain
    ⟨(List.nodup_cons.mp hd).2,fun a ha => hslots a (List.mem_cons_of_mem _ ha)⟩ fun m s _ _ a _ => rfl
  refine ⟨_,h',read_ok hdata,hpx,rfl,r,hp.kept hcore (fun m => ?_) hkept.heads hkept.ty fun m hm => hfr m ?_,hkept.words⟩
  · by_cases hm : m = n
    · subst hm
      simp [hG]
    · rw [Function.update_of_ne hm]
  · rintro rfl
    rw [hG] at hm
    simp at hm

lemma unlink (hp : Pre h F B A M G Q) (hc : c < NUM_SIZE_CLASSES) (hQ : Q c = ys ++ n :: zs) :
    ∃ h', h.unlink (.frame n) = .ok h' ∧ Pre h' F B A M G (Function.update Q c (ys ++ zs)) ∧ h'.words = h.words := by
  obtain ⟨h',r,hcore,hkept,hfr⟩ := hp.core.unlink hc hQ
  exact ⟨h',r,hp.kept hcore (fun _ => rfl) hkept.heads hkept.ty hfr,hkept.words⟩

end Pre

section InitSlab

/-- The value at the place `pp` after the loop. -/
def Heap.Cursor.value (cursor end_ : Heap.Cursor) : ℕ :=
  match cursor.pp with
  | none => end_.listStart
  | some a => end_.words a

lemma link_chain (cursor : Heap.Cursor) (hd : xs.Nodup) (h0 : ∀ a ∈ xs, a ≠ 0) (hpp : ∀ a ∈ xs, cursor.pp ≠ some a) :
    Chain ((xs.foldl Heap.Cursor.link cursor).store 0).words (cursor.value ((xs.foldl Heap.Cursor.link cursor).store 0)) xs ∧
    (cursor.pp ≠ none → ((xs.foldl Heap.Cursor.link cursor).store 0).listStart = cursor.listStart) ∧
    ∀ a ∉ xs, cursor.pp ≠ some a → ((xs.foldl Heap.Cursor.link cursor).store 0).words a = cursor.words a := by
  induction xs generalizing cursor with
  | nil =>
    obtain ⟨ls,w,pp⟩ := cursor
    cases pp with
    | none => simp [Chain, Heap.Cursor.store, Heap.Cursor.value]
    | some b =>
      refine ⟨?_,fun _ => rfl,fun a _ hne => Function.update_of_ne ?_ _ _⟩
      · simp [Chain, Heap.Cursor.store, Heap.Cursor.value]
      · rintro rfl
        exact hne rfl
  | cons x xs ih =>
    obtain ⟨hx,hd⟩ := List.nodup_cons.mp hd
    obtain ⟨h1,h2,h3⟩ := ih (cursor.link x) hd (fun a ha => h0 a (List.mem_cons_of_mem _ ha)) fun a ha he =>
      hx (Option.some.inj he ▸ ha)
    rw [List.foldl_cons]
    have hstart := h2 (by simp [Heap.Cursor.link])
    obtain ⟨ls,w,pp⟩ := cursor
    refine ⟨⟨?_,h0 x List.mem_cons_self,h1⟩,fun hne => ?_,fun a ha hne => ?_⟩
    · cases pp with
      | none => exact hstart
      | some b =>
        have hbx : b ≠ x := fun he => hpp x List.mem_cons_self (congrArg some he)
        have hb : b ∉ xs := fun hb => hpp b (List.mem_cons_of_mem _ hb) rfl
        refine (h3 b hb fun he => hbx (Option.some.inj he).symm).trans ?_
        exact Function.update_self _ _ _
    · cases pp with
      | none => exact absurd rfl hne
      | some b => exact hstart
    · rw [List.mem_cons, not_or] at ha
      rw [h3 a ha.2 fun he => ha.1 (Option.some.inj he).symm]
      cases pp with
      | none => rfl
      | some b =>
        refine Function.update_of_ne ?_ _ _
        rintro rfl
        exact hne rfl

lemma initSlab_ok (hcore : Core h G Q) (hc : c < NUM_SIZE_CLASSES) (hw : (h.buddy.ty n).isSome) (hG : G n = none)
    (hn : n * FRAME_SIZE < PHYSICAL_MEMORY_MAX_SIZE) : ∃ h', h.initSlab (h.slabs c) (n * FRAME_SIZE) = .ok h' ∧
      Core h' (Function.update G n (some ⟨c,slots n c⟩)) Q ∧ h'.buddy.heads = h.buddy.heads ∧ h'.buddy.ty = h.buddy.ty ∧
      (∀ m, m ≠ n → h'.buddy.frames m = h.buddy.frames m) ∧ ∀ a ∉ slots n c, h'.words a = h.words a := by
  obtain ⟨hsize,_,hmax⟩ := hcore.caches c hc
  obtain ⟨p,k,hhead⟩ := hcore.head c hc
  have hindex : (h.slabs c).list.cacheIndex = c := by
    simp only [Heap.data, Heap.node, if_pos hc, Option.map_some, Option.some.injEq, Prod.mk.injEq] at hhead
    exact hhead.2.2
  have hfold : (List.range (h.slabs c).maxFreeCount).foldl (fun cursor i =>
      Heap.Cursor.link cursor (PHYSICAL_MEMORY_OFFSET + n * FRAME_SIZE + (h.slabs c).objectSize * i)) ⟨0,h.words,none⟩ =
      (slots n c).foldl Heap.Cursor.link ⟨0,h.words,none⟩ := by
    rw [slots, List.foldl_map, hsize, hmax]
  obtain ⟨hchain,_,hwords⟩ := link_chain ⟨0,h.words,none⟩ (nodup_slots hc : (slots n c).Nodup) (fun a ha => slot_pos ha)
    fun a _ => by simp
  obtain ⟨h',r,hcore',hkept,hfr⟩ := hcore.write hw
    ⟨.null,.null,(((slots n c).foldl Heap.Cursor.link ⟨0,h.words,none⟩).store 0).listStart,slotCount c,c⟩
    (fun c' hc' hn' => by
      obtain ⟨xs,hG'⟩ := hcore.listed c' hc' n hn'
      rw [hG] at hG'
      simp at hG') ⟨hc,hn⟩ length_slots.symm hchain ⟨nodup_slots hc,fun a ha => ha⟩ fun m s hm hGm a ha => by
      refine hwords a (fun ha' => hm ?_) (by simp)
      rw [← frameAt_slot hc ha', frameAt_slot (hcore.cache m s hGm).1 ((hcore.free m s hGm).2 a ha)]
  refine ⟨h',?_,hcore',hkept.heads,hkept.ty,hfr,fun a ha => (congrFun hkept.words a).trans (hwords a ha (by simp))⟩
  simp only [Heap.initSlab, physToVirt_of_lt hn, bind, Except.bind]
  rw [hfold, hmax, hindex, Nat.mul_div_cancel _ (by decide : 0 < FRAME_SIZE)]
  exact r

lemma setTy_node {st' : BuddyAllocator} {t : FrameType} (r : h.buddy.setTy n t = .ok st') (p : ListPtr) :
    { h with buddy := st' }.node p = h.node p := by
  obtain ⟨fi,hfi,he⟩ := bind_ok r
  obtain rfl := Except.ok.inj he
  have hfi' : h.buddy.frames n = some fi := by
    unfold BuddyAllocator.frameInfo at hfi
    split at hfi
    · rename_i fi' hf
      rw [hf, Except.ok.inj hfi]
    · simp at hfi
  cases p with
  | null => rfl
  | head i => rfl
  | frame m =>
    by_cases hm : m = n
    · subst hm
      simp [Heap.node, BuddyAllocator.setFrame, hfi']
    · simp [Heap.node, BuddyAllocator.setFrame, hm]

/-- A frame that was taken from the buddy allocator becomes a slab. -/
lemma newSlab (hcore : Core h G Q) (hb : Buddy.Inv h.buddy F (B ∪ slabBlocks G) {⟨0,n⟩} A ∅)
    (htyped : ∀ n, (G n).isSome → h.buddy.ty n = some .slab) (hothers : ∀ b ∈ B, h.buddy.ty b.start = some .buddyAllocated)
    (hmapped : ∀ n, (h.buddy.ty n).isSome = M n) (hc : c < NUM_SIZE_CLASSES)
    (hn : n * FRAME_SIZE < PHYSICAL_MEMORY_MAX_SIZE) : ∃ h1 h2 st', h.initSlab (h.slabs c) (n * FRAME_SIZE) = .ok h1 ∧
      h1.insert (.head c) (.frame n) = .ok h2 ∧ h2.buddy.setTy n .slab = .ok st' ∧
      Pre { h2 with buddy := st' } F B A M (Function.update G n (some ⟨c,slots n c⟩)) (Function.update Q c (Q c ++ [n])) ∧
      ∀ a ∉ slots n c, h2.words a = h.words a := by
  obtain ⟨hbF,hbL⟩ := hb.held_apart
  have hnone : G n = none := by
    by_contra hne
    exact hbL (Or.inr (mem_slabBlocks (Option.isSome_iff_ne_none.mpr hne)))
  have hw : (h.buddy.ty n).isSome := by
    have := hb.held ⟨0,n⟩ rfl
    rwa [start_zero] at this
  have hout : ∀ c' < NUM_SIZE_CLASSES, n ∉ Q c' := fun c' hc' hm => by
    obtain ⟨xs,hG⟩ := hcore.listed c' hc' n hm
    rw [hnone] at hG
    simp at hG
  obtain ⟨h1,r1,hcore1,hheads1,hty1,hfr1,hwords1⟩ := initSlab_ok hcore hc hw hnone hn
  obtain ⟨h2,r2,hcore2,hkept2,hfr2⟩ := hcore1.insert hc (Function.update_self _ _ _) hout
  -- the union of the frame is overwritten before its type is set
  have hb2 : Buddy.Inv h2.buddy F (B ∪ slabBlocks G) {⟨0,n⟩} A ∅ := by
    refine hb.overwrite (hkept2.heads.trans hheads1) (hkept2.ty.trans hty1) fun m hm => ?_
    by_cases hmn : m = n
    · subst hmn
      exact ⟨⟨0,m⟩,Or.inr rfl,start_zero m,fun hl => absurd hl hbL⟩
    · have hsome : (G m).isSome := by
        rw [Option.isSome_iff_ne_none]
        intro hnone'
        refine hm ((hfr2 m ?_).trans (hfr1 m hmn))
        rw [Function.update_of_ne hmn]
        exact hnone'
      exact ⟨⟨0,m⟩,Or.inl (Or.inr (mem_slabBlocks hsome)),start_zero m,fun _ => htyped m hsome⟩
  obtain ⟨st',r3,hb3,hlive3⟩ := hb2.giveAs (Or.inr rfl)
  rw [start_zero] at r3
  obtain ⟨st,r3',_,_,_,hty3,_,_⟩ := Buddy.setTy_ok (hkept2.ty ▸ hty1 ▸ hw) FrameType.slab
  obtain rfl := Except.ok.inj (r3.symm.trans r3')
  have hty : st'.ty = Function.update h.buddy.ty n (some .slab) := by rw [hty3, hkept2.ty, hty1]
  have hblocks : B ∪ slabBlocks (Function.update G n (some ⟨c,slots n c⟩)) = insert ⟨0,n⟩ (B ∪ slabBlocks G) := by
    ext b
    simp only [slabBlocks, Set.mem_union, Set.mem_insert_iff, Set.mem_ofPred_eq]
    by_cases hbn : b.start = n
    · rw [hbn, Function.update_self, hnone]
      have : b = ⟨0,n⟩ ↔ b.order = 0 := ⟨fun he => by rw [he],fun ho => Block.ext_start ho (by rw [hbn, start_zero])⟩
      simp [this, or_comm]
    · have : b ≠ ⟨0,n⟩ := fun he => hbn (by rw [he, start_zero])
      simp [Function.update_of_ne hbn, this]
  refine ⟨h1,h2,st',r1,r2,r3,⟨?_,?_,fun m hm => ?_,fun b hb' => ?_,fun m => ?_⟩,fun a ha =>
    (congrFun hkept2.words a).trans (hwords1 a ha)⟩
  · exact hcore2.congr rfl rfl (fun m s _ => setTy_node r3 _) fun _ _ _ _ _ => rfl
  · rw [hblocks]
    exact hb3
  · rw [hty]
    by_cases hmn : m = n
    · subst hmn
      exact Function.update_self _ _ _
    · rw [Function.update_of_ne hmn] at hm ⊢
      exact htyped m hm
  · have hne : b.start ≠ n := fun he => hbL (by
      rw [← hb.start_inj (Or.inl (Or.inr (Or.inl hb'))) (Or.inr rfl) (by rw [he, start_zero])]
      exact Or.inl hb')
    rw [hty, Function.update_of_ne hne]
    exact hothers b hb'
  · rw [hty, Buddy.isSome_update hw]
    exact hmapped m

end InitSlab

lemma holds_new (hnone : G n = none) : Holds (Function.update G n (some ⟨c,slots n c⟩)) a x ↔ Holds G a x := by
  constructor
  · intro ⟨m,s,hG,hs,ha,hfree⟩
    rcases update_slab hG with ⟨rfl,rfl⟩ | ⟨_,hG⟩
    · rw [← hs] at ha
      exact absurd ha hfree
    · exact ⟨m,s,hG,hs,ha,hfree⟩
  · intro ⟨m,s,hG,hs,ha,hfree⟩
    refine ⟨m,s,?_,hs,ha,hfree⟩
    rw [Function.update_of_ne]
    · exact hG
    · rintro rfl
      rw [hnone] at hG
      simp at hG

/-- A slab of the cache `c` in the frame `n`, where the others are as the invariant says. -/
structure Grabbed (h : Heap) (F : ℕ → List ℕ) (B : Set Block) (A : Set ℕ) (M : ℕ → Bool) (G : ℕ → Option Slab)
    (Q : ℕ → List ℕ) (n c x : ℕ) (xs : List ℕ) : Prop extends Pre h F B A M G Q where
  slab : G n = some ⟨c,x::xs⟩
  listed : ∀ m s, G m = some s → (m ∈ Q s.cache ↔ s.free ≠ [])
  retained : ∀ m s, m ≠ n → G m = some s → s.free.length < slotCount s.cache

def StaysCoalesced (F F' : ℕ → List ℕ) : Prop := Coalesced MAX_ORDER (Buddy.Free F) → Coalesced MAX_ORDER (Buddy.Free F')

/-- The words that differ are in a frame that was neither a slab nor in a block of others. -/
def WritesFresh (h h' : Heap) (B : Set Block) (G : ℕ → Option Slab) : Prop :=
  ∀ a, h'.words a ≠ h.words a → G (frameAt a) = none ∧ ∀ b ∈ B, frameAt a ∉ b

/-- `grab_slab`: there is a slab with a free object, or no frame for one, or the frame is not in the direct map. -/
theorem grabSlab_ok (hi : Inv h F B A M G Q) (hc : c < NUM_SIZE_CLASSES) :
    h.grabSlab c = .ok (.error .outOfMemory,h) ∨
    (∃ n ∈ A, PHYSICAL_MEMORY_MAX_SIZE ≤ n * FRAME_SIZE ∧ ∃ e, h.grabSlab c = .error e) ∨
    ∃ h' F' G' Q' n x xs, h.grabSlab c = .ok (.ok n,h') ∧ Grabbed h' F' B A M G' Q' n c x xs ∧
      (∀ a c', Holds G' a c' ↔ Holds G a c') ∧ WritesFresh h h' B G ∧ StaysCoalesced F F' := by
  have hring := hi.core.rings.ring c hc
  have hslab : h.slab c = .ok (h.slabs c) := if_pos hc
  have hnext : (h.slabs c).list.next = h.next (.head c) := by simp [Heap.next, Heap.node, hc]
  obtain ⟨_,horder,_⟩ := hi.core.caches c hc
  cases hQ : Q c with
  | cons n ns =>
    -- the first slab of the list
    rw [hQ, List.map_cons] at hring
    obtain ⟨free,hG⟩ := hi.core.listed c hc n (by rw [hQ]; exact List.mem_cons_self)
    have hne : free ≠ [] := (hi.listed n _ hG).mp (by rw [hQ]; exact List.mem_cons_self)
    obtain ⟨x,xs,rfl⟩ := List.exists_cons_of_ne_nil hne
    refine Or.inr (Or.inr ⟨h,F,G,Q,n,x,xs,?_,⟨hi.toPre,hG,hi.listed,fun m s _ => hi.retained m s⟩,fun _ _ => Iff.rfl,
      fun a ha => absurd rfl ha,id⟩)
    simp only [Heap.grabSlab, hslab, hnext, hring.next_eq, bind, Except.bind]
    rfl
  | nil =>
    rw [hQ, List.map_nil] at hring
    have hself : (h.slabs c).list.next = .head c := hnext.trans hring.linked.1
    rcases hi.buddy.alloc_ok (Nat.zero_le _) with ⟨h1,_⟩ | ⟨_,b,st',F',h1,hb0,hbL,hinv,hlive,hkeep⟩
    · left
      simp only [Heap.grabSlab, hslab, hself, ne_eq, not_true_eq_false, if_false, horder, h1, bind, Except.bind]
      rfl
    · right
      obtain ⟨o,n⟩ := b
      obtain rfl : o = 0 := hb0
      rw [start_zero] at h1
      have hheld : Buddy.Inv st' F' (B ∪ slabBlocks G) {⟨0,n⟩} A ∅ := by
        have := hinv.hold (Set.mem_insert _ _)
        rwa [Set.insert_sdiff_self_of_notMem hbL] at this
      have hnone : G n = none := by
        by_contra hne
        exact hbL (Or.inr (mem_slabBlocks (Option.isSome_iff_ne_none.mpr hne)))
      have hframes : ∀ m, (G m).isSome → st'.frames m = h.buddy.frames m := fun m hm => by
        have := hlive.frames ⟨0,m⟩ (Or.inr (mem_slabBlocks hm))
        rwa [start_zero] at this
      have hcore : Core { h with buddy := st' } G Q := by
        refine hi.core.congr rfl rfl (fun m s hG => ?_) fun _ _ _ _ _ => rfl
        simp only [Heap.node, hframes m (by rw [hG]; rfl)]
      by_cases hn : n * FRAME_SIZE < PHYSICAL_MEMORY_MAX_SIZE
      · right
        obtain ⟨s1,s2,st2,r1,r2,r3,hpre,hwords⟩ := @newSlab { h with buddy := st' } F' B A M G Q n c hcore hheld
          (fun m hm => by
            simp only [BuddyAllocator.ty, hframes m hm]
            exact hi.typed m hm)
          (fun d hd => by
            simp only [BuddyAllocator.ty, hlive.frames d (Or.inl hd)]
            exact hi.others d hd)
          (fun m => (hlive.mapped m).trans (hi.mapped m)) hc hn
        obtain ⟨x,xs,hslots⟩ : ∃ x xs, slots n c = x :: xs := by
          apply List.exists_cons_of_length_pos
          rw [length_slots]
          have := (slotCount_bounds hc).1
          omega
        refine ⟨_,F',_,_,n,x,xs,?_,⟨hpre,?_,fun m s hG => ?_,fun m s hmn hG => ?_⟩,fun a c' => holds_new hnone,fun a ha => ?_,hkeep⟩
        · simp only [Heap.grabSlab, hslab, hself, ne_eq, not_true_eq_false, if_false, horder, h1, bind, Except.bind,
            Nat.mul_div_cancel _ (by decide : 0 < FRAME_SIZE), r1, r2, r3]
          rfl
        · rw [Function.update_self, hslots]
        · rcases update_slab hG with ⟨rfl,rfl⟩ | ⟨hmn,hG⟩
          · simp [hslots]
          · rw [← hi.listed m s hG]
            by_cases hcs : s.cache = c
            · simp [hcs, hQ, hmn]
            · rw [Function.update_of_ne hcs]
        · rw [Function.update_of_ne hmn] at hG
          exact hi.retained m s hG
        · have hslot : a ∈ slots n c := by
            by_contra hna
            exact ha (hwords a hna)
          rw [frameAt_slot hc hslot]
          refine ⟨hnone,fun d hd hm => hbL (Or.inl ?_)⟩
          have hstart : n ∈ (⟨0,n⟩ : Block) := by
            have := (Block.mk 0 n).start_mem
            rwa [start_zero] at this
          rw [← hheld.tiles.unique d (Or.inl (Or.inr (Or.inl hd))) ⟨0,n⟩ (Or.inr rfl) n hm hstart]
          exact hd
      · left
        refine ⟨n,?_,not_lt.mp hn,?_⟩
        · have := hheld.mem_added (Or.inr rfl) (Block.mk 0 n).start_mem
          rwa [start_zero] at this
        · refine ⟨.panic "assertion failed: phys.as_u64() < PHYSICAL_MEMORY_MAX_SIZE as u64",?_⟩
          simp only [Heap.grabSlab, hslab, hself, ne_eq, not_true_eq_false, if_false, horder, h1, bind, Except.bind,
            Heap.initSlab, physToVirt, assert, if_neg hn]

lemma Core.not_holds (hcore : Core h G Q) (hG : G n = some ⟨c,x::xs⟩) (c' : ℕ) : ¬ Holds G x c' := by
  intro ⟨m,s,hGm,hs,ha,hfree⟩
  have hx : x ∈ slots n c := (hcore.free n _ hG).2 x List.mem_cons_self
  have hcm := (hcore.cache m s hGm).1
  rw [hs] at hcm
  have hmn : m = n := (frameAt_slot hcm ha).symm.trans (frameAt_slot (hcore.cache n _ hG).1 hx)
  rw [hmn, hG] at hGm
  rw [← Option.some.inj hGm] at hfree
  exact hfree List.mem_cons_self

lemma Core.holds_pop (hcore : Core h G Q) (hG : G n = some ⟨c,x::xs⟩) :
    Holds (Function.update G n (some ⟨c,xs⟩)) a c' ↔ Holds G a c' ∨ a = x ∧ c' = c := by
  obtain ⟨hd,hslots⟩ := hcore.free n _ hG
  constructor
  · intro ⟨m,s,hGm,hs,ha,hfree⟩
    rcases update_slab hGm with ⟨rfl,rfl⟩ | ⟨_,hGm⟩
    · by_cases hax : a = x
      · exact Or.inr ⟨hax,hs.symm⟩
      · exact Or.inl ⟨m,_,hG,hs,ha,by simp [hax, hfree]⟩
    · exact Or.inl ⟨m,s,hGm,hs,ha,hfree⟩
  · rintro (⟨m,s,hGm,hs,ha,hfree⟩ | ⟨rfl,rfl⟩)
    · by_cases hmn : m = n
      · subst hmn
        rw [hG] at hGm
        obtain rfl := Option.some.inj hGm
        exact ⟨m,_,Function.update_self _ _ _,hs,ha,fun hin => hfree (List.mem_cons_of_mem _ hin)⟩
      · refine ⟨m,s,?_,hs,ha,hfree⟩
        rw [Function.update_of_ne hmn]
        exact hGm
    · exact ⟨n,_,Function.update_self _ _ _,rfl,hslots a List.mem_cons_self,(List.nodup_cons.mp hd).1⟩

/-- The rest of `alloc`: the slab goes off its list if it is full now. -/
lemma Grabbed.take (hg : Grabbed h F B A M G Q n c x xs) : ∃ sl h1 h' Q', h.read (.frame n) = .ok sl ∧ sl.freeList = x ∧
    sl.freeCount = xs.length + 1 ∧
    h.write (.frame n) { sl with freeList := h.words x, freeCount := xs.length } = .ok h1 ∧
    (if xs.length = 0 then h1.unlink (.frame n) else .ok h1) = .ok h' ∧
    Inv h' F B A M (Function.update G n (some ⟨c,xs⟩)) Q' ∧ h'.words = h.words := by
  obtain ⟨sl,h1,hread,hfirst,hcount,r1,hpre,hwords⟩ := hg.toPre.pop hg.slab
  have hc := (hg.core.cache n _ hg.slab).1
  obtain ⟨hd,hslots⟩ := hg.core.free n _ hg.slab
  have hlen : xs.length < slotCount c := by
    have hle := (hd.subperm hslots).length_le
    rw [length_slots] at hle
    exact hle
  have hn : n ∈ Q c := (hg.listed n _ hg.slab).mpr (List.cons_ne_nil x xs)
  have hretained : ∀ m s, Function.update G n (some ⟨c,xs⟩) m = some s → s.free.length < slotCount s.cache := by
    intro m s hG
    rcases update_slab hG with ⟨_,rfl⟩ | ⟨hmn,hG⟩
    · exact hlen
    · exact hg.retained m s hmn hG
  cases xs with
  | nil =>
    obtain ⟨ys,zs,hQ⟩ := List.append_of_mem hn
    obtain ⟨h2,r2,hpre2,hwords2⟩ := hpre.unlink hc hQ
    refine ⟨sl,h1,h2,_,hread,hfirst,hcount,r1,r2,⟨hpre2,fun m s hG => ?_,hretained⟩,hwords2.trans hwords⟩
    have hnodup : (Q c).Nodup := ((List.nodup_cons.mp (hg.core.rings.ring c hc).nodup).2).of_map
    rw [hQ, List.nodup_middle, List.nodup_cons] at hnodup
    rcases update_slab hG with ⟨rfl,rfl⟩ | ⟨hmn,hG⟩
    · rw [Function.update_self]
      exact ⟨fun hm => absurd hm hnodup.1,fun hne => absurd rfl hne⟩
    · rw [← hg.listed m s hG]
      by_cases hcs : s.cache = c
      · simp [hcs, hQ, hmn]
      · rw [Function.update_of_ne hcs]
  | cons y ys =>
    refine ⟨sl,h1,h1,Q,hread,hfirst,hcount,r1,rfl,⟨hpre,fun m s hG => ?_,hretained⟩,hwords⟩
    rcases update_slab hG with ⟨rfl,rfl⟩ | ⟨_,hG⟩
    · exact ⟨fun _ => List.cons_ne_nil y ys,fun _ => hn⟩
    · exact hg.listed m s hG

/-- `alloc` gives a free object of a class that is large enough out, or it fails and changes nothing; it panics only
if the frame for a slab is not in the direct map. -/
theorem alloc_ok (hi : Inv h F B A M G Q) (hs : Small layout) :
    h.alloc layout = .ok (.error .outOfMemory,h) ∨
    (∃ n ∈ A, PHYSICAL_MEMORY_MAX_SIZE ≤ n * FRAME_SIZE ∧ ∃ e, h.alloc layout = .error e) ∨
    ∃ h' F' G' Q' x c, h.alloc layout = .ok (.ok x,h') ∧ Inv h' F' B A M G' Q' ∧ layout.size ≤ classSize c ∧
      layout.align ∣ classSize c ∧ (∀ c', ¬ Holds G x c') ∧ (∀ a c', Holds G' a c' ↔ Holds G a c' ∨ a = x ∧ c' = c) ∧
      WritesFresh h h' B G ∧ StaysCoalesced F F' := by
  obtain ⟨c,hc,hclass,hsize,halign⟩ := findClass_ok hi.core.lookup hs
  rcases grabSlab_ok hi hc with hgrab | ⟨n,hn,hbig,e,hgrab⟩ | ⟨h1,F1,G1,Q1,n,x,xs,hgrab,hg,hholds,hfresh,hkeep⟩
  · left
    simp only [Heap.alloc, hclass, hgrab, bind, Except.bind]
    rfl
  · refine Or.inr (Or.inl ⟨n,hn,hbig,e,?_⟩)
    simp only [Heap.alloc, hclass, hgrab, bind, Except.bind]
  · obtain ⟨sl,h2,h3,Q3,hread,hfirst,hcount,hwrite,hrest,hinv,hwords⟩ := hg.take
    have hx : x ≠ 0 := slot_pos ((hg.core.free n _ hg.slab).2 x List.mem_cons_self)
    have hload : h1.load x = .ok (h1.words x) := if_neg hx
    have hsub : checkedSub sl.freeCount 1 = .ok xs.length := by
      rw [hcount, checkedSub_of_le (Nat.le_add_left 1 xs.length), Nat.add_sub_cancel]
    refine Or.inr (Or.inr ⟨h3,F1,_,Q3,x,c,?_,hinv,hsize,halign,fun c' hx' => ?_,fun a c' => ?_,fun a ha => ?_,hkeep⟩)
    · simp only [Heap.alloc, hclass, hgrab, hread, hfirst, hload, hsub, hwrite, bind, Except.bind]
      split_ifs at hrest ⊢ with hlen
      · rw [hrest]
        rfl
      · rw [Except.ok.inj hrest]
        rfl
    · exact hg.core.not_holds hg.slab c' ((hholds x c').mpr hx')
    · rw [hg.core.holds_pop hg.slab, hholds]
    · rw [hwords] at ha
      exact hfresh a ha

end Lilith.Slub
