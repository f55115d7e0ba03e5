import Lilith.Slub.Alloc

/-! `SlubAllocator::free` keeps the invariant, and gives a slab that is wholly free back. -/
namespace Lilith.Slub
open Theory
open Buddy (ListPtr SlabList FrameInfo FrameType BuddyAllocator FRAME_SIZE MAX_ORDER KeepsLive)
open Boot (Layout)

variable {h h' : Heap} {F : ℕ → List ℕ} {B : Set Block} {A : Set ℕ} {M : ℕ → Bool} {G : ℕ → Option Slab} {Q : ℕ → List ℕ}
  {n c c' a b : ℕ} {xs ys zs : List ℕ}

/-- Freeing blocks of added frames can meet a frame without a `FrameInfo`. -/
def Unmapped (A : Set ℕ) (M : ℕ → Bool) : Prop :=
  ∃ b : Block, b.order < MAX_ORDER ∧ (∀ n ∈ b, n ∈ A) ∧ M b.buddy.start = false

namespace Pre

/-- A slab that is on no list goes back to the buddy allocator. -/
lemma giveBack (hp : Pre h F B A M G Q) (hG : (G n).isSome) (hn : ∀ c < NUM_SIZE_CLASSES, n ∉ Q c) :
    (∃ st' F', h.buddy.free (n * FRAME_SIZE) 0 = .ok st' ∧ Pre { h with buddy := st' } F' B A M (Function.update G n none) Q ∧
      StaysCoalesced F F') ∨
    Unmapped A M ∧ h.buddy.free (n * FRAME_SIZE) 0 = .error .dangling := by
  have hb : Block.mk 0 n ∈ B ∪ slabBlocks G := Or.inr (mem_slabBlocks hG)
  have hstart := start_zero n
  rcases hp.buddy.free_cases hb with ⟨st',F',r,hinv,hlive,_,hkeep⟩ | ⟨r,m,hm,hnone⟩
  · left
    rw [hstart] at r
    have hother : ∀ d ∈ B, d ∈ (B ∪ slabBlocks G) \ {⟨0,n⟩} := by
      intro d hd
      refine ⟨Or.inl hd,?_⟩
      rintro rfl
      have hty := hp.others _ hd
      rw [hstart, hp.typed n hG] at hty
      simp at hty
    have hslab : ∀ m, m ≠ n → (G m).isSome → st'.frames m = h.buddy.frames m := by
      intro m hmn hm
      have := hlive.frames ⟨0,m⟩ ⟨Or.inr (mem_slabBlocks hm),by simpa using hmn⟩
      rwa [start_zero] at this
    have hupdate : ∀ m, (Function.update G n none m).isSome → m ≠ n ∧ (G m).isSome := by
      intro m hm
      by_cases hmn : m = n
      · subst hmn
        simp at hm
      · rw [Function.update_of_ne hmn] at hm
        exact ⟨hmn,hm⟩
    refine ⟨st',F',r,⟨?_,?_,fun m hm => ?_,fun d hd => ?_,fun m => (hlive.mapped m).trans (hp.mapped m)⟩,hkeep⟩
    · refine (hp.core.forget hn).congr rfl rfl (fun m s hs => ?_) fun _ _ _ _ _ => rfl
      obtain ⟨hmn,hm⟩ := hupdate m (by rw [hs]; rfl)
      simp only [Heap.node, hslab m hmn hm]
    · have hblocks : B ∪ slabBlocks (Function.update G n none) = (B ∪ slabBlocks G) \ {⟨0,n⟩} := by
        ext d
        constructor
        · rintro (hd | ⟨ho,hd⟩)
          · exact hother d hd
          · obtain ⟨hdn,hd⟩ := hupdate _ hd
            refine ⟨Or.inr ⟨ho,hd⟩,?_⟩
            rintro rfl
            exact hdn hstart
        · rintro ⟨hd | ⟨ho,hd⟩,hne⟩
          · exact Or.inl hd
          · refine Or.inr ⟨ho,?_⟩
            rw [Function.update_of_ne]
            · exact hd
            · intro he
              exact hne (Block.ext_start ho (he.trans hstart.symm))
      rw [hblocks]
      exact hinv
    · obtain ⟨hmn,hm⟩ := hupdate m hm
      simp only [BuddyAllocator.ty, hslab m hmn hm]
      exact hp.typed m hm
    · simp only [BuddyAllocator.ty, hlive.frames d (hother d hd)]
      exact hp.others d hd
  · right
    rw [hstart] at r
    obtain ⟨d,ho,hd,rfl⟩ := hp.buddy.inspects_block hb hm
    refine ⟨⟨d,ho,hd,?_⟩,r⟩
    rw [← hp.mapped, hnone]
    rfl

/-- An object becomes the first free one of its slab. -/
lemma push (hp : Pre h F B A M G Q) (hG : G n = some ⟨c,xs⟩) (ha : a ∈ slots n c) (hfree : a ∉ xs) :
    ∃ sl h', h.read (.frame n) = .ok sl ∧ sl.freeCount = xs.length ∧ sl.cacheIndex = c ∧
      { h with words := Function.update h.words a sl.freeList }.write (.frame n)
        { sl with freeList := a, freeCount := xs.length + 1 } = .ok h' ∧
      Pre h' F B A M (Function.update G n (some ⟨c,a::xs⟩)) Q ∧ ∀ b, b ≠ a → h'.words b = h.words b := by
  obtain ⟨p,hdata,hchain⟩ := hp.core.data n _ hG
  obtain ⟨hd,hslots⟩ := hp.core.free n _ hG
  have hsome : (G n).isSome := by rw [hG]; rfl
  have hty : (h.buddy.ty n).isSome := by
    rw [hp.typed n hsome]
    rfl
  have hc := (hp.core.cache n _ hG).1
  obtain ⟨h',r,hcore,hkept,hfr⟩ := @Core.write h G Q n (a::xs) (Function.update h.words a p) hp.core hty
    ⟨h.next (.frame n),h.prev (.frame n),a,xs.length + 1,c⟩
    (fun c' hc' hn => ⟨rfl,rfl,hp.core.cache_of_mem hc' hn hG⟩) (hp.core.cache n _ hG) rfl
    ⟨rfl,slot_pos ha,by
      rw [Function.update_self]
      refine hchain.congr fun b hb => Function.update_of_ne ?_ _ _
      rintro rfl
      exact hfree hb⟩
    ⟨List.nodup_cons.mpr ⟨hfree,hd⟩,fun b hb => by
      rcases List.mem_cons.mp hb with rfl | hb
      · exact ha
      · exact hslots b hb⟩
    fun m s hmn hGm b hb => by
      refine Function.update_of_ne ?_ _ _
      rintro rfl
      exact hmn ((frameAt_slot (hp.core.cache m s hGm).1 ((hp.core.free m s hGm).2 b hb)).symm.trans (frameAt_slot hc ha))
  refine ⟨_,h',read_ok hdata,rfl,rfl,r,hp.kept hcore (fun m => ?_) hkept.heads hkept.ty fun m hm => hfr m ?_,fun b hb => ?_⟩
  · by_cases hm : m = n
    · subst hm
      simp [hG]
    · rw [Function.update_of_ne hm]
  · rintro rfl
    rw [hm] at hsome
    simp at hsome
  · rw [hkept.words]
    exact Function.update_of_ne hb _ _

lemma putSlab_eq {p k : ℕ} (hc : c < NUM_SIZE_CLASSES) (hdata : h.data (.frame n) = some (p,k,c')) :
    h.putSlab c n = if k = 1 then h.insert (.head c) (.frame n)
      else if k = (h.slabs c).maxFreeCount then do
        let h' ← h.unlink (.frame n)
        return { h' with buddy := ← h'.buddy.free (n * FRAME_SIZE) (h.slabs c).slabOrder }
      else return h := by
  have hslab : h.slab c = .ok (h.slabs c) := if_pos hc
  simp only [Heap.putSlab, hslab, read_ok hdata, bind, Except.bind]

/-- `put_slab` of a slab that has got the free object `a`: it goes on its list if it was full, and back to the buddy
allocator if it is wholly free. -/
lemma putSlab (hp : Pre h F B A M G Q) (hG : G n = some ⟨c,a::xs⟩) (hn : n ∈ Q c ↔ xs ≠ [])
    (hlisted : ∀ m s, m ≠ n → G m = some s → (m ∈ Q s.cache ↔ s.free ≠ []))
    (hretained : ∀ m s, m ≠ n → G m = some s → s.free.length < slotCount s.cache) :
    (∃ h' F' G' Q', h.putSlab c n = .ok h' ∧ Inv h' F' B A M G' Q' ∧ h'.words = h.words ∧
      (G' = G ∨ G' = Function.update G n none ∧ xs.length + 1 = slotCount c) ∧ StaysCoalesced F F') ∨
    Unmapped A M ∧ h.putSlab c n = .error .dangling := by
  have hc : c < NUM_SIZE_CLASSES := (hp.core.cache n _ hG).1
  have hsome : (G n).isSome := by rw [hG]; rfl
  obtain ⟨_,horder,hmax⟩ := hp.core.caches c hc
  obtain ⟨p,hdata,_⟩ := hp.core.data n _ hG
  obtain ⟨hd,hslots⟩ := hp.core.free n _ hG
  have hle : xs.length + 1 ≤ slotCount c := by
    have := (hd.subperm hslots).length_le
    rwa [length_slots] at this
  have hcount := (slotCount_bounds hc).1
  have heq := putSlab_eq hc hdata
  rw [hmax, horder, List.length_cons] at heq
  have hunique : ∀ c' < NUM_SIZE_CLASSES, n ∈ Q c' → c' = c := fun c' hc' hm => hp.core.cache_of_mem hc' hm hG
  by_cases hone : xs = []
  · -- the slab was full, and is on no list
    subst hone
    obtain ⟨h',r,hcore,hkept,hfr⟩ := hp.core.insert hc hG fun c' hc' hm => by
      rw [hunique c' hc' hm] at hm
      exact hn.mp hm rfl
    refine Or.inl ⟨h',F,G,_,?_,⟨hp.kept hcore (fun _ => rfl) hkept.heads hkept.ty hfr,fun m s hm => ?_,fun m s hm => ?_⟩,
      hkept.words,Or.inl rfl,id⟩
    · rw [List.length_nil, if_pos (Nat.zero_add 1)] at heq
      exact heq.trans r
    · by_cases hmn : m = n
      · subst hmn
        rw [hG] at hm
        obtain rfl := Option.some.inj hm
        simp
      · rw [← hlisted m s hmn hm]
        by_cases hcs : s.cache = c
        · simp [hcs, hmn]
        · rw [Function.update_of_ne hcs]
    · by_cases hmn : m = n
      · subst hmn
        rw [hG] at hm
        obtain rfl := Option.some.inj hm
        exact lt_of_lt_of_le (by decide : 1 < 4) hcount
      · exact hretained m s hmn hm
  · have hlen : ¬ xs.length + 1 = 1 := by
      rw [Nat.add_eq_right, List.length_eq_zero_iff]
      exact hone
    rw [if_neg hlen] at heq
    by_cases hfull : xs.length + 1 = slotCount c
    · obtain ⟨ys,zs,hQ⟩ := List.append_of_mem (hn.mpr hone)
      have hnodup : (Q c).Nodup := ((List.nodup_cons.mp (hp.core.rings.ring c hc).nodup).2).of_map
      rw [hQ, List.nodup_middle, List.nodup_cons] at hnodup
      obtain ⟨h1,r1,hpre1,hwords1⟩ := hp.unlink hc hQ
      have hout : ∀ c' < NUM_SIZE_CLASSES, n ∉ Function.update Q c (ys ++ zs) c' := by
        intro c' hc' hm
        by_cases hcc : c' = c
        · subst hcc
          rw [Function.update_self] at hm
          exact hnodup.1 hm
        · rw [Function.update_of_ne hcc] at hm
          exact hcc (hunique c' hc' hm)
      have hrun : ∀ r, h1.buddy.free (n * FRAME_SIZE) 0 = r → h.putSlab c n = r.map fun st' => { h1 with buddy := st' } := by
        intro r hr
        rw [heq, if_pos hfull, r1]
        change (do return { h1 with buddy := ← h1.buddy.free (n * FRAME_SIZE) 0 }) = _
        rw [hr]
        cases r <;> rfl
      rcases hpre1.giveBack hsome hout with ⟨st',F',r2,hpre2,hkeep⟩ | ⟨hun,r2⟩
      · refine Or.inl ⟨_,F',_,_,hrun _ r2,⟨hpre2,fun m s hm => ?_,fun m s hm => ?_⟩,hwords1,Or.inr ⟨rfl,hfull⟩,hkeep⟩
        all_goals
          have hmn : m ≠ n := by
            rintro rfl
            simp at hm
          rw [Function.update_of_ne hmn] at hm
        · rw [← hlisted m s hmn hm]
          by_cases hcs : s.cache = c
          · simp [hcs, hQ, hmn]
          · rw [Function.update_of_ne hcs]
        · exact hretained m s hmn hm
      · exact Or.inr ⟨hun,hrun _ r2⟩
    · refine Or.inl ⟨h,F,G,Q,?_,⟨hp,fun m s hm => ?_,fun m s hm => ?_⟩,rfl,Or.inl rfl,id⟩
      · rw [heq, if_neg hfull]
        rfl
      · by_cases hmn : m = n
        · subst hmn
          rw [hG] at hm
          obtain rfl := Option.some.inj hm
          exact ⟨fun _ => List.cons_ne_nil a xs,fun _ => hn.mpr hone⟩
        · exact hlisted m s hmn hm
      · by_cases hmn : m = n
        · subst hmn
          rw [hG] at hm
          obtain rfl := Option.some.inj hm
          exact lt_of_le_of_ne hle hfull
        · exact hretained m s hmn hm

end Pre

/-- Giving a slab back that is wholly free does not touch an object in use. -/
lemma Core.holds_forget (hcore : Core h G Q) (hG : G n = some ⟨c,xs⟩) (hfull : xs.length = slotCount c) :
    Holds (Function.update G n none) b c' ↔ Holds G b c' := by
  obtain ⟨hd,hslots⟩ := hcore.free n _ hG
  have hall : ∀ b ∈ slots n c, b ∈ xs := by
    have hperm := (hd.subperm hslots).perm_of_length_le (by rw [length_slots, hfull])
    exact fun b hb => hperm.mem_iff.mpr hb
  constructor
  · intro ⟨m,s,hm,hs,hb,hfree⟩
    have hmn : m ≠ n := by
      rintro rfl
      simp at hm
    rw [Function.update_of_ne hmn] at hm
    exact ⟨m,s,hm,hs,hb,hfree⟩
  · intro ⟨m,s,hm,hs,hb,hfree⟩
    refine ⟨m,s,?_,hs,hb,hfree⟩
    rw [Function.update_of_ne]
    · exact hm
    · rintro rfl
      rw [hG] at hm
      obtain rfl := Option.some.inj hm
      rw [← hs] at hb
      exact hfree (hall b hb)

/-- `free` of an object in use, which faults only if the buddy allocator looks for a `FrameInfo` that is not there. -/
theorem free_ok (hi : Inv h F B A M G Q) (ha : Holds G a c) :
    (∃ h' F' G' Q', h.free a = .ok h' ∧ Inv h' F' B A M G' Q' ∧ (∀ b c', Holds G' b c' ↔ Holds G b c' ∧ b ≠ a) ∧
      (∀ b, b ≠ a → h'.words b = h.words b) ∧ StaysCoalesced F F') ∨
    Unmapped A M ∧ h.free a = .error .dangling := by
  obtain ⟨n,⟨_,xs⟩,hG,rfl,hslot,hfree⟩ := ha
  rename_i c
  simp only at hslot hfree
  obtain ⟨hc,hn⟩ := hi.core.cache n _ hG
  simp only at hc
  obtain ⟨sl,h1,hread,hcount,hindex,r1,hpre,hwords⟩ := hi.toPre.push hG hslot hfree
  have hG1 : Function.update G n (some ⟨c,a::xs⟩) n = some ⟨c,a::xs⟩ := Function.update_self _ _ _
  have hback : Function.update (Function.update G n (some ⟨c,a::xs⟩)) n (some ⟨c,xs⟩) = G := by
    rw [Function.update_idem, ← hG, Function.update_eq_self]
  -- the objects in use before and after
  have hholds : ∀ b c', Holds (Function.update G n (some ⟨c,a::xs⟩)) b c' ↔ Holds G b c' ∧ b ≠ a := by
    intro b c'
    have hpop := @Core.holds_pop h1 _ _ n c c' b a xs hpre.core hG1
    rw [hback] at hpop
    have hnot := hpre.core.not_holds hG1 c'
    rw [hpop]
    constructor
    · intro hb
      refine ⟨Or.inl hb,?_⟩
      rintro rfl
      exact hnot hb
    · intro ⟨hb,hne⟩
      exact hb.resolve_right fun he => hne he.1
  have hframe : (a - PHYSICAL_MEMORY_OFFSET) / FRAME_SIZE = n := frameAt_slot hc hslot
  obtain ⟨fi,hfi,hty⟩ := Buddy.ty_some (hi.typed n (by rw [hG]; rfl))
  have hlt : xs.length + 1 < 2^16 := by
    have h1 := hi.retained n _ hG
    have h2 := (slotCount_bounds hc).2
    simp only at h1
    omega
  have hrun : ∀ r, h1.putSlab c n = r → h.free a = r := by
    intro r hr
    rw [hindex] at r1
    simp only [Heap.free, virtToPhys_slot hc hn hslot, hframe, Buddy.frameInfo_ok hfi, assert_of hty, hread, hcount, hlt, if_true, r1, hindex, hr, bind,
      Except.bind]
  have hmem : n ∈ Q c ↔ xs ≠ [] := hi.listed n _ hG
  rcases hpre.putSlab hG1 hmem (fun m s hmn hm => hi.listed m s (by rwa [Function.update_of_ne hmn] at hm))
    (fun m s hmn hm => hi.retained m s (by rwa [Function.update_of_ne hmn] at hm)) with
    ⟨h2,F2,G2,Q2,r2,hinv,hwords2,hG2,hkeep⟩ | ⟨hun,r2⟩
  · refine Or.inl ⟨h2,F2,G2,Q2,hrun _ r2,hinv,fun b c' => ?_,fun b hb => (congrFun hwords2 b).trans (hwords b hb),hkeep⟩
    rcases hG2 with rfl | ⟨rfl,hfull⟩
    · exact hholds b c'
    · rw [hpre.core.holds_forget hG1 hfull]
      exact hholds b c'
  · exact Or.inr ⟨hun,hrun _ r2⟩

end Lilith.Slub
