import Lilith.VirtualAlloc.AddressSpace

/-! Physical memory that runs out while the virtual allocator maps the pages of a range. -/
namespace Lilith.VirtualAlloc
open Theory PtrGraph CTree Rbtree
open Boot (Layout roundUp nextMultipleOf)
open Buddy (FRAME_SIZE)

variable {env : ℕ → PageEnv} {as as' : KernelAddressSpace} {start first i k n : ℕ}

/-- What the callers know of `alloc_frame`: the frames are not in use, and the frame at 0 is none of them, since it is
reserved. -/
structure Supplies (env : ℕ → PageEnv) (as : KernelAddressSpace) : Prop where
  fresh : ∀ i f, (env i).frame = some f → f ∉ as.frames
  proper : ∀ i f, (env i).frame = some f → f ≠ 0
  distinct : ∀ i j f, (env i).frame = some f → (env j).frame = some f → i = j

/-- The address space `as` with the pages from the `i`-th up to the `k`-th after `first` mapped. -/
structure Window (env : ℕ → PageEnv) (as : KernelAddressSpace) (first i k : ℕ) (as' : KernelAddressSpace) : Prop where
  pages : ∀ p, as'.pages p = if first + i ≤ p ∧ p < first + k then (env (p - first)).frame else as.pages p
  frames : ∀ f, f ∈ as'.frames ↔ f ∈ as.frames ∨ ∃ j, i ≤ j ∧ j < k ∧ (env j).frame = some f

/-- The page can be mapped. -/
structure Mappable (env : ℕ → PageEnv) (as : KernelAddressSpace) (first i : ℕ) : Prop where
  frame : (env i).frame.isSome
  tables : (env i).tables = true
  page : as.pages (first + i) = none

lemma page_of_step (start i : ℕ) : (start + i * FRAME_SIZE) / FRAME_SIZE = start / FRAME_SIZE + i := by
  rw [Nat.add_mul_div_right _ _ (by decide)]

/-- The part of a range in front of its `k`-th page. -/
lemma steps_done (start k : ℕ) : Range.steps ⟨start,start + k * FRAME_SIZE⟩ = k := by
  unfold Range.steps FRAME_SIZE
  simp only
  omega

lemma Window.empty (as : KernelAddressSpace) (first i : ℕ) : Window env as first i i as := by
  refine ⟨fun p => (if_neg (by omega)).symm,fun f => ⟨Or.inl,fun h => ?_⟩⟩
  rcases h with h | ⟨j,_,_,_⟩
  · exact h
  · omega

lemma Window.eq (h : Window env as first k k as') : as' = as := by
  have hpages : as'.pages = as.pages := by
    funext p
    rw [h.pages, if_neg (by omega)]
  have hframes : as'.frames = as.frames := by
    ext f
    rw [h.frames]
    constructor
    · intro hf
      rcases hf with hf | ⟨j,_,_,_⟩
      · exact hf
      · omega
    · exact Or.inl
  cases as
  cases as'
  simp_all

/-- One more page is mapped. -/
lemma Window.map (h : Window env as (start / FRAME_SIZE) 0 k as') (hk : Mappable env as (start / FRAME_SIZE) k) :
    ∃ as'', as'.mapNewPage (env k) (start + k * FRAME_SIZE) = .ok (.ok (),as'') ∧
      Window env as (start / FRAME_SIZE) 0 (k+1) as'' := by
  obtain ⟨f,hf⟩ := Option.isSome_iff_exists.mp hk.frame
  have hfree : as'.pages (start / FRAME_SIZE + k) = none := by
    rw [h.pages, if_neg (by omega), hk.page]
  refine ⟨⟨Function.update as'.pages (start / FRAME_SIZE + k) (some f),insert f as'.frames⟩,?_,fun p => ?_,fun g => ?_⟩
  · simp [KernelAddressSpace.mapNewPage, KernelAddressSpace.mapTo, hf, page_of_step, hfree, hk.tables]
  · dsimp only
    by_cases hp : p = start / FRAME_SIZE + k
    · subst hp
      rw [Function.update_self, if_pos (by omega), Nat.add_sub_cancel_left, hf]
    · rw [Function.update_of_ne hp, h.pages]
      split_ifs <;> first | rfl | omega
  · rw [Finset.mem_insert, h.frames]
    constructor
    · intro hg
      rcases hg with rfl | hg | ⟨j,h1,h2,h3⟩
      · exact Or.inr ⟨k,by omega,by omega,hf⟩
      · exact Or.inl hg
      · exact Or.inr ⟨j,h1,by omega,h3⟩
    · intro hg
      rcases hg with hg | ⟨j,h1,h2,h3⟩
      · exact Or.inr (Or.inl hg)
      · by_cases hj : j = k
        · subst hj
          rw [hf] at h3
          exact Or.inl (Option.some.inj h3).symm
        · exact Or.inr (Or.inr ⟨j,h1,by omega,h3⟩)

/-- The pages that can be mapped are mapped one after the other. -/
lemma tryMapLoop_run (h : ∀ j, j < k → Mappable env as (start / FRAME_SIZE) j) (n : ℕ) :
    ∃ as', Window env as (start / FRAME_SIZE) 0 k as' ∧
      tryMapLoop env start (k+n) 0 as = tryMapLoop env start n k as' := by
  induction k generalizing n with
  | zero => exact ⟨as,Window.empty as _ 0,by rw [Nat.zero_add]⟩
  | succ k ih =>
    obtain ⟨as1,h1,h2⟩ := ih (fun j hj => h j (by omega)) (n+1)
    obtain ⟨as2,h3,h4⟩ := h1.map (h k (by omega))
    refine ⟨as2,h4,?_⟩
    rw [show k + 1 + n = k + (n + 1) by omega, h2, tryMapLoop]
    simp only [h3, bind, Except.bind]

/-- All pages of a range are mapped. -/
lemma tryMapLoop_all (h : ∀ j, j < k → Mappable env as (start / FRAME_SIZE) j) :
    ∃ as', Window env as (start / FRAME_SIZE) 0 k as' ∧ tryMapLoop env start k 0 as = .ok (.ok (),as') := by
  obtain ⟨as',h1,h2⟩ := tryMapLoop_run h 0
  exact ⟨as',h1,h2⟩

/-- A page that cannot be mapped ends the loop. -/
lemma tryMapLoop_stop (h : ∀ j, j < k → Mappable env as (start / FRAME_SIZE) j) (hk : k < n) :
    ∃ as', Window env as (start / FRAME_SIZE) 0 k as' ∧
      ((env k).frame = none → tryMapLoop env start n 0 as =
        .ok (.error (⟨start,start + k * FRAME_SIZE⟩,.outOfMemory),as')) ∧
      ((env k).frame.isSome → (env k).tables = false ∨ (as.pages (start / FRAME_SIZE + k)).isSome →
        ∃ message, tryMapLoop env start n 0 as = .error (.panic message)) := by
  obtain ⟨as',h1,h2⟩ := tryMapLoop_run h (n-k-1+1)
  rw [show k + (n-k-1+1) = n by omega, tryMapLoop] at h2
  have hpage : as'.pages (start / FRAME_SIZE + k) = as.pages (start / FRAME_SIZE + k) := by
    rw [h1.pages, if_neg (by omega)]
  refine ⟨as',h1,fun hf => ?_,fun hf hbad => ?_⟩
  · rw [h2]
    simp only [KernelAddressSpace.mapNewPage, hf, bind, Except.bind]
    rfl
  · obtain ⟨f,hf⟩ := Option.isSome_iff_exists.mp hf
    rw [h2]
    simp only [KernelAddressSpace.mapNewPage, KernelAddressSpace.mapTo, hf, page_of_step, hpage, bind, Except.bind]
    rcases hbad with ht | hp
    · rw [ht]
      cases hp : (as.pages (start / FRAME_SIZE + k)).isSome with
      | true => exact ⟨_,rfl⟩
      | false => exact ⟨_,rfl⟩
    · rw [hp]
      exact ⟨_,rfl⟩

/-- What the loop of `try_map_pages` can do. -/
lemma tryMapLoop_cases (n : ℕ) :
    (∀ j, j < n → Mappable env as (start / FRAME_SIZE) j) ∨
    ∃ k, k < n ∧ (∀ j, j < k → Mappable env as (start / FRAME_SIZE) j) ∧ ¬Mappable env as (start / FRAME_SIZE) k := by
  classical
  by_cases h : ∃ k, k < n ∧ ¬Mappable env as (start / FRAME_SIZE) k
  · right
    refine ⟨Nat.find h,(Nat.find_spec h).1,fun j hj => ?_,(Nat.find_spec h).2⟩
    by_contra hno
    exact Nat.find_min h hj ⟨by have := (Nat.find_spec h).1; omega,hno⟩
  · left
    intro j hj
    by_contra hno
    exact h ⟨j,hj,hno⟩

/-- The first page of the window is unmapped. -/
lemma Window.unmap (h : Window env as (start / FRAME_SIZE) i k as') (hi : i < k) (hsup : Supplies env as)
    (hpage : as.pages (start / FRAME_SIZE + i) = none) {f : ℕ} (hf : (env i).frame = some f) :
    (f < PHYSICAL_MEMORY_MAX_SIZE → ∃ as'', as'.unmapPage (start + i * FRAME_SIZE) = .ok as'' ∧
      Window env as (start / FRAME_SIZE) (i+1) k as'') ∧
    (¬f < PHYSICAL_MEMORY_MAX_SIZE → ∃ e, as'.unmapPage (start + i * FRAME_SIZE) = .error e) := by
  have hmapped : as'.pages (start / FRAME_SIZE + i) = some f := by
    rw [h.pages, if_pos (by omega), Nat.add_sub_cancel_left, hf]
  unfold KernelAddressSpace.unmapPage
  rw [page_of_step, hmapped]
  constructor
  · intro hlt
    have hmem : f ∈ as'.frames := (h.frames f).mpr (Or.inr ⟨i,le_rfl,hi,hf⟩)
    refine ⟨⟨Function.update as'.pages (start / FRAME_SIZE + i) none,as'.frames.erase f⟩,?_,fun p => ?_,fun g => ?_⟩
    · simp only [assert_of hlt, bind, Except.bind, KernelAddressSpace.kernelFree, if_neg (hsup.proper i f hf), if_pos hmem]
    · dsimp only
      by_cases hp : p = start / FRAME_SIZE + i
      · subst hp
        rw [Function.update_self, if_neg (by omega), hpage]
      · rw [Function.update_of_ne hp, h.pages]
        split_ifs <;> first | rfl | omega
    · rw [Finset.mem_erase, h.frames]
      constructor
      · rintro ⟨hne,hg⟩
        rcases hg with hg | ⟨j,h1,h2,h3⟩
        · exact Or.inl hg
        · refine Or.inr ⟨j,?_,h2,h3⟩
          rcases h1.eq_or_lt with rfl | h1
          · rw [hf] at h3
            exact absurd (Option.some.inj h3).symm hne
          · exact h1
      · intro hg
        rcases hg with hg | ⟨j,h1,h2,h3⟩
        · refine ⟨fun he => ?_,Or.inl hg⟩
          subst he
          exact hsup.fresh i g hf hg
        · refine ⟨fun he => ?_,Or.inr ⟨j,by omega,h2,h3⟩⟩
          subst he
          have := hsup.distinct i j g hf h3
          omega
  · intro hlt
    refine ⟨.panic "assertion failed: phys.as_u64() < PHYSICAL_MEMORY_MAX_SIZE as u64",?_⟩
    simp only [assert, if_neg hlt, bind, Except.bind]

/-- All pages of the window are unmapped, unless one of the frames is beyond the direct map. -/
lemma Window.unmapLoop (h : Window env as (start / FRAME_SIZE) i k as') (hn : i + n = k) (hsup : Supplies env as)
    (hpages : ∀ j, i ≤ j → j < k → as.pages (start / FRAME_SIZE + j) = none ∧ (env j).frame.isSome) :
    ((∀ j f, i ≤ j → j < k → (env j).frame = some f → f < PHYSICAL_MEMORY_MAX_SIZE) →
      unmapLoop start n i as' = .ok as) ∧
    (∀ j f, i ≤ j → j < k → (env j).frame = some f → ¬f < PHYSICAL_MEMORY_MAX_SIZE →
      ∃ e, unmapLoop start n i as' = .error e) := by
  induction n generalizing i as' with
  | zero =>
    obtain rfl : i = k := by omega
    refine ⟨fun _ => ?_,fun j f h1 h2 => by omega⟩
    rw [h.eq]
    rfl
  | succ n ih =>
    obtain ⟨hpage,hframe⟩ := hpages i le_rfl (by omega)
    obtain ⟨f,hf⟩ := Option.isSome_iff_exists.mp hframe
    obtain ⟨h1,h2⟩ := h.unmap (by omega) hsup hpage hf
    by_cases hlt : f < PHYSICAL_MEMORY_MAX_SIZE
    · obtain ⟨as'',h3,h4⟩ := h1 hlt
      obtain ⟨h5,h6⟩ := ih h4 (by omega) fun j hj => hpages j (by omega)
      constructor
      · intro hall
        rw [VirtualAlloc.unmapLoop, h3]
        exact h5 fun j g hj => hall j g (by omega)
      · intro j g hj hjk hg hbig
        have hne : j ≠ i := fun he => by
          subst he
          rw [hf] at hg
          rw [Option.some.inj hg] at hlt
          exact hbig hlt
        rw [VirtualAlloc.unmapLoop, h3]
        exact h6 j g (by omega) hjk hg hbig
    · obtain ⟨e,he⟩ := h2 hlt
      constructor
      · intro hall
        exact absurd (hall i f le_rfl (by omega) hf) hlt
      · intro j g _ _ _ _
        refine ⟨e,?_⟩
        rw [VirtualAlloc.unmapLoop, he]
        rfl

/-- The spans after one was taken out. -/
lemma mem_removed {sa : SpanAlloc VirtualAllocation} {t t' : CTree (ℕ × Span VirtualAllocation)}
    {before after : List (Span VirtualAllocation)} {x : Span VirtualAllocation} (hs : SpanTree view sa.spans t)
    (h : values t = before ++ x::after) (h' : values t' = before ++ after) (y : Span VirtualAllocation) :
    y ∈ values t' ↔ y ∈ values t ∧ y ≠ x := by
  have hnd : (before ++ x::after).Nodup := by
    rw [← h]
    exact hs.wf.lo_lt.imp fun {y z} hyz he => by simp [he] at hyz
  have hout := (List.nodup_cons.mp (List.nodup_middle.mp hnd)).1
  rw [h, h', mem_of_append]
  constructor
  · intro hy
    exact ⟨Or.inr hy,fun he => hout (he ▸ hy)⟩
  · intro ⟨hy,hne⟩
    exact hy.resolve_left hne

section Reserve
variable {s s' : VirtualAllocator} {t : CTree (ℕ × Span VirtualAllocation)} {layout : Layout} {settings : AllocSettings}
  {mem : Option MemoryError} {range : Range}

/-- The size of the span for a layout with its guards. -/
def totalSize (layout : Layout) (settings : AllocSettings) : ℕ :=
  roundUp FRAME_SIZE layout.size + roundUp FRAME_SIZE settings.guardBottom + roundUp FRAME_SIZE settings.guardTop

/-- The span `x` was reserved, and the pages of `range` are to be mapped. -/
structure Reserved (s s' : VirtualAllocator) (t : CTree (ℕ × Span VirtualAllocation)) (layout : Layout)
    (settings : AllocSettings) (range : Range) (x : Span VirtualAllocation) : Prop where
  added : ∃ t', Added s.spans s'.spans t x t'
  beside : ∀ y ∈ values t, ¬Meets y ⟨x.start,x.end_⟩
  kernelAs : s'.kernelAs = s.kernelAs
  value : x.value = ⟨roundUp FRAME_SIZE settings.guardBottom,roundUp FRAME_SIZE settings.guardTop⟩
  size : x.end_ = x.start + totalSize layout settings
  range : range = ⟨x.start + settings.guardBottom,x.end_ - settings.guardTop⟩
  gap : ∃ g, s.spans.findGap (totalSize layout settings) = .ok (some g) ∧ x.start = g.start

lemma le_roundUp (a : ℕ) : a ≤ roundUp FRAME_SIZE a ∧ roundUp FRAME_SIZE a < a + FRAME_SIZE := by
  unfold roundUp FRAME_SIZE
  omega

lemma nextMultipleOf_ok {a b : ℕ} (h : nextMultipleOf a FRAME_SIZE = .ok b) : b = roundUp FRAME_SIZE a := by
  unfold nextMultipleOf at h
  split_ifs at h
  exact (Except.ok.inj h).symm

lemma padTo_ok {layout' : Layout} (h : layout.padTo FRAME_SIZE = .ok layout') (ha : layout'.align ≤ 4096) :
    layout'.size = roundUp FRAME_SIZE layout.size := by
  unfold Layout.padTo at h
  simp only at h
  split_ifs at h
  obtain rfl := Except.ok.inj h
  have hmax : max layout.align FRAME_SIZE = FRAME_SIZE := by
    unfold FRAME_SIZE at ha ⊢
    simp only at ha
    omega
  simp only [hmax]

/-- `reserve` that returned: an error with nothing changed, or a new span. -/
lemma reserve_cases (hs : SpanTree view s.spans.spans t) (hsize : 0 < layout.size) {res : Except MemoryError Range}
    (h : s.reserve layout settings mem = .ok (res,s')) :
    (∃ e, res = .error e ∧ s' = s) ∨ ∃ range x, res = .ok range ∧ Reserved s s' t layout settings range x := by
  unfold VirtualAllocator.reserve at h
  obtain ⟨gb,hgb,h⟩ := bind_ok h
  obtain ⟨gt,hgt,h⟩ := bind_ok h
  obtain ⟨layout',hlayout,h⟩ := bind_ok h
  obtain ⟨_,halign,h⟩ := bind_ok h
  obtain ⟨part,hpart,h⟩ := bind_ok h
  obtain ⟨total,htotal,h⟩ := bind_ok h
  obtain ⟨⟨result,spans⟩,halloc,h⟩ := bind_ok h
  have hgb := nextMultipleOf_ok hgb
  have hgt := nextMultipleOf_ok hgt
  have hpad := padTo_ok hlayout (assert_ok halign)
  have htotal : total = totalSize layout settings := by
    rw [(checkedAdd_ok htotal).1, (checkedAdd_ok hpart).1, hpad, hgb, hgt]
    rfl
  have hpos : 0 < totalSize layout settings := by
    have := le_roundUp layout.size
    unfold totalSize
    omega
  rw [htotal] at halloc
  rcases alloc_cases hs hpos halloc with ⟨rfl,herr⟩ | ⟨r,t',rfl,hend,hno,hadd,g,hg,hstart⟩
  · left
    rcases herr with rfl | ⟨e,_,rfl⟩
    · obtain ⟨rfl,rfl⟩ := Prod.mk.inj (Except.ok.inj h)
      exact ⟨_,rfl,rfl⟩
    · obtain ⟨rfl,rfl⟩ := Prod.mk.inj (Except.ok.inj h)
      exact ⟨_,rfl,rfl⟩
  · right
    obtain ⟨start,h1,h⟩ := bind_ok h
    obtain ⟨end_,h2,h⟩ := bind_ok h
    obtain ⟨rfl,rfl⟩ := Prod.mk.inj (Except.ok.inj h)
    refine ⟨_,⟨r.start,r.end_,⟨gb,gt⟩⟩,rfl,⟨t',hadd⟩,hno,rfl,?_,hend,?_,g,hg,hstart⟩
    · rw [hgb, hgt]
    · rw [(checkedAdd_ok h1).1, (checkedSub_ok h2).1]

/-- The range to be mapped is in the span. -/
lemma Reserved.inside {x : Span VirtualAllocation} (h : Reserved s s' t layout settings range x) (hsize : 0 < layout.size) :
    x.start ≤ range.start ∧ range.start < x.end_ := by
  have h1 := le_roundUp layout.size
  have h2 := le_roundUp settings.guardBottom
  have h3 := h.size
  unfold totalSize at h3
  rw [h.range]
  simp only
  omega

/-- The span that was reserved can be taken back. -/
lemma Reserved.free {x : Span VirtualAllocation} (h : Reserved s s' t layout settings range x) (hsize : 0 < layout.size) :
    ∃ spans t', s'.spans.free range.start = .ok ((⟨x.start,x.end_⟩,x.value),spans) ∧ SpanTree view spans.spans t' ∧
      (∀ y, y ∈ values t' ↔ y ∈ values t) ∧ spans.range = s'.spans.range := by
  obtain ⟨t1,hadd⟩ := h.added
  obtain ⟨h1,h2⟩ := h.inside hsize
  have hx : x ∈ values t1 := (hadd.mem x).mpr (Or.inl rfl)
  obtain ⟨spans,t2,before,after,h3,h4,h5,h6,h7⟩ := free_ok hadd.tree hx h1 h2
  refine ⟨spans,t2,h3,h4,fun y => ?_,h7⟩
  rw [mem_removed hadd.tree h5 h6, hadd.mem]
  constructor
  · intro ⟨hy,hne⟩
    exact hy.resolve_left hne
  · intro hy
    refine ⟨Or.inr hy,fun he => h.beside y hy ?_⟩
    rw [he]
    exact ⟨h1.trans_lt h2,h1.trans_lt h2⟩

end Reserve

/-- A block that was allocated and not freed. -/
structure Block where
  addr : ℕ
  layout : Layout
  settings : AllocSettings
  deriving DecidableEq

/-- The allocator with what its callers know. -/
structure Usage where
  allocator : VirtualAllocator
  live : Set Block

/-- The states that successful calls lead to, when the requests satisfy `P` and the frames for pages satisfy `Q`. At first
no page of the range of the allocator is mapped. -/
inductive Run (P : Usage → Layout → AllocSettings → Prop) (Q : ℕ → Prop) : Usage → Prop
  | new (heap : Heap (Span VirtualAllocation) MaxGap) (pages : ℕ → Option ℕ)
      (hpages : ∀ p, VIRTUAL_ALLOCATOR_START ≤ p * FRAME_SIZE → p * FRAME_SIZE < VIRTUAL_ALLOCATOR_END → pages p = none) :
      Run P Q ⟨.new heap ⟨pages,∅⟩,∅⟩
  | alloc {u : Usage} {s' : VirtualAllocator} {layout : Layout} {settings : AllocSettings} {mem : Option MemoryError}
      {env : ℕ → PageEnv} {addr : ℕ} (h : Run P Q u) (hsize : 0 < layout.size) (hP : P u layout settings)
      (hsup : Supplies env u.allocator.kernelAs) (hQ : ∀ i f, (env i).frame = some f → Q f)
      (hrun : u.allocator.alloc layout settings mem env = .ok (.ok addr,s')) :
      Run P Q ⟨s',insert ⟨addr,layout,settings⟩ u.live⟩
  | allocFails {u : Usage} {s' : VirtualAllocator} {layout : Layout} {settings : AllocSettings} {mem : Option MemoryError}
      {env : ℕ → PageEnv} {err : MemoryError} (h : Run P Q u) (hsize : 0 < layout.size) (hP : P u layout settings)
      (hsup : Supplies env u.allocator.kernelAs) (hQ : ∀ i f, (env i).frame = some f → Q f)
      (hrun : u.allocator.alloc layout settings mem env = .ok (.error err,s')) : Run P Q ⟨s',u.live⟩
  | free {u : Usage} {s' : VirtualAllocator} {b : Block} (h : Run P Q u) (hb : b ∈ u.live)
      (hrun : u.allocator.free b.addr = .ok s') : Run P Q ⟨s',u.live \ {b}⟩

variable {s s' : VirtualAllocator} {t : CTree (ℕ × Span VirtualAllocation)} {layout : Layout} {settings : AllocSettings}
  {mem : Option MemoryError} {range : Range} {P : Usage → Layout → AllocSettings → Prop} {Q : ℕ → Prop} {u : Usage}

/-- What `alloc` that returned can have done: nothing; or reserved a span and mapped its range; or reserved a span, mapped
a part of its range, and taken both back. -/
lemma alloc_inv (hs : SpanTree view s.spans.spans t) (hsize : 0 < layout.size) {res : Except MemoryError ℕ}
    (h : s.alloc layout settings mem env = .ok (res,s')) :
    (∃ e, res = .error e ∧ s' = s) ∨
    ∃ range s1 x, Reserved s s1 t layout settings range x ∧
      ((res = .ok range.start ∧ s'.spans = s1.spans ∧
          (∀ j, j < range.steps → Mappable env s.kernelAs (range.start / FRAME_SIZE) j) ∧
          Window env s.kernelAs (range.start / FRAME_SIZE) 0 range.steps s'.kernelAs) ∨
        ∃ k as1, k < range.steps ∧ res = .error .outOfMemory ∧
          (∀ j, j < k → Mappable env s.kernelAs (range.start / FRAME_SIZE) j) ∧
          Window env s.kernelAs (range.start / FRAME_SIZE) 0 k as1 ∧
          unmapLoop range.start k 0 as1 = .ok s'.kernelAs ∧
          ∃ r, s1.spans.free range.start = .ok (r,s'.spans)) := by
  unfold VirtualAllocator.alloc at h
  obtain ⟨⟨result,s1⟩,hres,h⟩ := bind_ok h
  rcases reserve_cases hs hsize hres with ⟨e,rfl,hsame⟩ | ⟨range,x,rfl,hreserved⟩
  · obtain ⟨rfl,rfl⟩ := Prod.mk.inj (Except.ok.inj h)
    exact Or.inl ⟨e,rfl,hsame⟩
  · refine Or.inr ⟨range,s1,x,hreserved,?_⟩
    obtain ⟨⟨mapped,as1⟩,hmap,h⟩ := bind_ok h
    rw [hreserved.kernelAs] at hmap
    rcases @tryMapLoop_cases env s.kernelAs range.start range.steps with hall | ⟨k,hk,hbefore,hnot⟩
    · obtain ⟨as2,h1,h2⟩ := tryMapLoop_all hall
      obtain ⟨rfl,rfl⟩ := Prod.mk.inj (Except.ok.inj (h2.symm.trans hmap))
      obtain ⟨rfl,rfl⟩ := Prod.mk.inj (Except.ok.inj h)
      exact Or.inl ⟨rfl,rfl,hall,h1⟩
    · obtain ⟨as2,h1,h2,h3⟩ := tryMapLoop_stop hbefore hk
      cases hf : (env k).frame with
      | none =>
        obtain ⟨rfl,rfl⟩ := Prod.mk.inj (Except.ok.inj ((h2 hf).symm.trans hmap))
        obtain ⟨as3,h4,h⟩ := bind_ok h
        obtain ⟨⟨r,spans⟩,h5,h⟩ := bind_ok h
        obtain ⟨rfl,rfl⟩ := Prod.mk.inj (Except.ok.inj h)
        rw [unmapPages, steps_done] at h4
        exact Or.inr ⟨k,as2,hk,rfl,hbefore,h1,h4,r,h5⟩
      | some f =>
        have hbad : (env k).tables = false ∨ (s.kernelAs.pages (range.start / FRAME_SIZE + k)).isSome := by
          by_contra hno
          rw [not_or, Bool.not_eq_false, Bool.not_eq_true, Option.isSome_eq_false_iff, Option.isNone_iff_eq_none] at hno
          exact hnot ⟨by rw [hf]; rfl,hno.1,hno.2⟩
        obtain ⟨message,he⟩ := h3 (by rw [hf]; rfl) hbad
        have hmap : tryMapLoop env range.start range.steps 0 s.kernelAs = .ok (mapped,as1) := hmap
        rw [he] at hmap
        simp at hmap

/-- `free` that returned has taken a span out. -/
lemma free_spans {addr : ℕ} (h : s.free addr = .ok s') : ∃ r, s.spans.free addr = .ok (r,s'.spans) := by
  unfold VirtualAllocator.free at h
  obtain ⟨⟨r,spans⟩,h1,h⟩ := bind_ok h
  obtain ⟨_,_,h⟩ := bind_ok h
  obtain ⟨_,_,h⟩ := bind_ok h
  obtain ⟨_,_,h⟩ := bind_ok h
  obtain ⟨as1,_,h⟩ := bind_ok h
  obtain rfl := Except.ok.inj h
  exact ⟨r,h1⟩

/-- In every state of a run the spans are in a valid tree. -/
lemma Run.tree (h : Run P Q u) : ∃ t, SpanTree view u.allocator.spans.spans t := by
  induction h with
  | new heap pages _ => exact ⟨leaf,⟨⟨trivial,rfl,by simp⟩,⟨0,rfl⟩,trivial⟩,SpanView.WF.nil⟩
  | alloc _ hsize _ _ _ hrun ih =>
    obtain ⟨t,hs⟩ := ih
    rcases alloc_inv hs hsize hrun with ⟨e,he,_⟩ | ⟨range,s1,x,hr,⟨_,hspans,_⟩ | ⟨k,as1,_,he,_⟩⟩
    · simp at he
    · obtain ⟨t',hadd⟩ := hr.added
      exact ⟨t',by rw [hspans]; exact hadd.tree⟩
    · simp at he
  | allocFails _ hsize _ _ _ hrun ih =>
    obtain ⟨t,hs⟩ := ih
    rcases alloc_inv hs hsize hrun with ⟨e,_,rfl⟩ | ⟨range,s1,x,hr,⟨he,_⟩ | ⟨k,as1,_,_,_,_,_,r,hfree⟩⟩
    · exact ⟨t,hs⟩
    · simp at he
    · obtain ⟨spans,t',h1,h2,_⟩ := hr.free hsize
      obtain ⟨_,rfl⟩ := Prod.mk.inj (Except.ok.inj (h1.symm.trans hfree))
      exact ⟨t',h2⟩
  | free _ _ hrun ih =>
    obtain ⟨t,hs⟩ := ih
    obtain ⟨r,hfree⟩ := free_spans hrun
    obtain ⟨x,hx,h1,h2⟩ := free_inv hs hfree
    obtain ⟨spans,t',_,_,h3,h4,_⟩ := free_ok hs hx h1 h2
    obtain ⟨_,rfl⟩ := Prod.mk.inj (Except.ok.inj (h3.symm.trans hfree))
    exact ⟨t',h4⟩

end Lilith.VirtualAlloc
