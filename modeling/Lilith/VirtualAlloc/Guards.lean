import Lilith.VirtualAlloc.Rollback

/-! Blocks between guards. In runs whose guards are whole pages, what `alloc` has mapped is what `free` will unmap. -/
namespace Lilith.VirtualAlloc
open Theory PtrGraph CTree Rbtree
open Boot (Layout roundUp)
open Buddy (FRAME_SIZE)

variable {s s' : VirtualAllocator} {t : CTree (ℕ × Span VirtualAllocation)} {layout : Layout} {settings : AllocSettings}
  {mem : Option MemoryError} {env : ℕ → PageEnv} {u : Usage} {b : Block} {a : ℕ}

/-- The page is one of those of the block of `size` bytes at `a`. -/
def InBlock (a size p : ℕ) : Prop := a ≤ p * FRAME_SIZE ∧ p * FRAME_SIZE < a + size

instance (a size p : ℕ) : Decidable (InBlock a size p) := inferInstanceAs (Decidable (_ ∧ _))

/-- The page has bytes from `lo` up to `hi`. -/
def Touches (lo hi p : ℕ) : Prop := p * FRAME_SIZE < hi ∧ lo < p * FRAME_SIZE + FRAME_SIZE

/-- The page is in the range of the allocator. -/
def InArea (p : ℕ) : Prop := VIRTUAL_ALLOCATOR_START ≤ p * FRAME_SIZE ∧ p * FRAME_SIZE < VIRTUAL_ALLOCATOR_END

namespace Block

/-- The bytes of the block, in whole pages. -/
def size (b : Block) : ℕ := roundUp FRAME_SIZE b.layout.size

/-- The span of the block with its guards. -/
def span (b : Block) : Span VirtualAllocation :=
  ⟨b.addr - b.settings.guardBottom,b.addr + b.size + b.settings.guardTop,⟨b.settings.guardBottom,b.settings.guardTop⟩⟩

/-- The block and its guards are whole pages. -/
structure Proper (b : Block) : Prop where
  addr : FRAME_SIZE ∣ b.addr
  bottom : FRAME_SIZE ∣ b.settings.guardBottom
  top : FRAME_SIZE ∣ b.settings.guardTop
  below : b.settings.guardBottom ≤ b.addr
  pos : 0 < b.layout.size

end Block

/-- Both guards are whole pages. -/
def PageGuards (settings : AllocSettings) : Prop := FRAME_SIZE ∣ settings.guardBottom ∧ FRAME_SIZE ∣ settings.guardTop

/-- An allocator that has allocated nothing gives out any size, also one that is larger than its range. -/
def FitsArea (u : Usage) (layout : Layout) (settings : AllocSettings) : Prop :=
  u.live = ∅ → totalSize layout settings ≤ VIRTUAL_ALLOCATOR_END - VIRTUAL_ALLOCATOR_START

/-- The requests of the runs below. -/
def Admits (u : Usage) (layout : Layout) (settings : AllocSettings) : Prop :=
  PageGuards settings ∧ FitsArea u layout settings

/-- The frame is in the direct map. -/
def InDirectMap (f : ℕ) : Prop := f < PHYSICAL_MEMORY_MAX_SIZE

/-- The invariant of a run: the spans are those of the live blocks, and the pages of the live blocks are the ones that are
mapped, each to a frame of its own. -/
structure Guarded (u : Usage) (t : CTree (ℕ × Span VirtualAllocation)) : Prop where
  tree : SpanTree view u.allocator.spans.spans t
  range : u.allocator.spans.range = ⟨VIRTUAL_ALLOCATOR_START,VIRTUAL_ALLOCATOR_END⟩
  inside : Inside ⟨VIRTUAL_ALLOCATOR_START,VIRTUAL_ALLOCATOR_END⟩ (values t)
  spans : ∀ x, x ∈ values t ↔ ∃ b ∈ u.live, x = b.span
  unique : ∀ b ∈ u.live, ∀ c ∈ u.live, b.span = c.span → b = c
  proper : ∀ b ∈ u.live, b.Proper
  pages : ∀ p, InArea p → ((u.allocator.kernelAs.pages p).isSome ↔ ∃ b ∈ u.live, InBlock b.addr b.size p)
  frames : ∀ p f, InArea p → u.allocator.kernelAs.pages p = some f →
    f ∈ u.allocator.kernelAs.frames ∧ f ≠ 0 ∧ InDirectMap f
  distinct : ∀ p q f, InArea p → InArea q → u.allocator.kernelAs.pages p = some f →
    u.allocator.kernelAs.pages q = some f → p = q

lemma dvd_roundUp (n : ℕ) : FRAME_SIZE ∣ roundUp FRAME_SIZE n := Dvd.intro_left _ rfl

lemma roundUp_of_dvd {n : ℕ} (h : FRAME_SIZE ∣ n) : roundUp FRAME_SIZE n = n := by
  obtain ⟨k,rfl⟩ := h
  unfold roundUp FRAME_SIZE
  omega

lemma start_of_mem_gaps {V : Type} {lo hi : ℕ} {xs : List (Span V)} {g : Range} (h : g ∈ gaps lo xs hi) :
    g.start = lo ∨ ∃ x ∈ xs, g.start = x.end_ := by
  induction xs generalizing lo with
  | nil =>
    rw [gaps, List.mem_singleton] at h
    exact Or.inl (by rw [h])
  | cons x xs ih =>
    rw [gaps, List.mem_cons] at h
    rcases h with rfl | h
    · exact Or.inl rfl
    · rcases ih h with h1 | ⟨y,hy,h1⟩
      · exact Or.inr ⟨x,List.mem_cons_self,h1⟩
      · exact Or.inr ⟨y,List.mem_cons_of_mem x hy,h1⟩

namespace Block.Proper

lemma size_pos (h : b.Proper) : 0 < b.size := h.pos.trans_le (le_roundUp b.layout.size).1

lemma span_end (h : b.Proper) : FRAME_SIZE ∣ b.span.end_ :=
  (Nat.dvd_add (Nat.dvd_add h.addr (dvd_roundUp _)) h.top)

lemma start_le (_ : b.Proper) : b.span.start ≤ b.addr := Nat.sub_le _ _

lemma addr_lt (h : b.Proper) : b.addr < b.span.end_ := by
  have := h.size_pos
  show b.addr < b.addr + b.size + b.settings.guardTop
  omega

/-- A page of the block is in the span. -/
lemma span_of_inBlock (h : b.Proper) {p : ℕ} (hp : InBlock b.addr b.size p) :
    b.span.start ≤ p * FRAME_SIZE ∧ p * FRAME_SIZE + FRAME_SIZE ≤ b.span.end_ := by
  obtain ⟨h1,h2⟩ := hp
  obtain ⟨i,hi⟩ := h.addr
  obtain ⟨j,hj⟩ : FRAME_SIZE ∣ b.size := dvd_roundUp _
  have h3 : b.span.start ≤ b.addr := h.start_le
  have h4 : b.span.end_ = b.addr + b.size + b.settings.guardTop := rfl
  refine ⟨h3.trans h1,?_⟩
  rw [hi, hj] at h2
  rw [h4, hi, hj]
  unfold FRAME_SIZE at *
  omega

end Block.Proper

namespace Guarded

/-- The pages of a span are in the range of the allocator. -/
lemma inArea (h : Guarded u t) {x : Span VirtualAllocation} (hx : x ∈ values t) {p : ℕ} (h1 : x.start ≤ p * FRAME_SIZE)
    (h2 : p * FRAME_SIZE < x.end_) : InArea p := by
  obtain ⟨h3,h4⟩ := h.inside x hx
  exact ⟨h3.trans h1,h2.trans_le h4⟩

/-- A page of a live block. -/
lemma inArea_block (h : Guarded u t) (hb : b ∈ u.live) {p : ℕ} (hp : InBlock b.addr b.size p) : InArea p := by
  have hF : FRAME_SIZE = 4096 := rfl
  obtain ⟨h1,h2⟩ := (h.proper b hb).span_of_inBlock hp
  exact h.inArea ((h.spans _).mpr ⟨b,hb,rfl⟩) h1 (by omega)

/-- The spans of two live blocks have no byte in common. -/
lemma apart (h : Guarded u t) {c : Block} (hb : b ∈ u.live) (hc : c ∈ u.live) {n : ℕ} (h1 : b.span.start ≤ n)
    (h2 : n < b.span.end_) (h3 : c.span.start ≤ n) (h4 : n < c.span.end_) : b = c := by
  apply h.unique b hb c hc
  have hbs := (h.spans b.span).mpr ⟨b,hb,rfl⟩
  have hcs := (h.spans c.span).mpr ⟨c,hc,rfl⟩
  exact h.tree.wf.unique hbs hcs (a := n) ⟨h1,h2⟩ ⟨h3,h4⟩

/-- The tree is empty when there are no blocks. -/
lemma live_of_leaf (h : Guarded u t) (ht : t = leaf) : u.live = ∅ := by
  rw [Set.eq_empty_iff_forall_notMem]
  intro b hb
  have := (h.spans b.span).mpr ⟨b,hb,rfl⟩
  rw [ht] at this
  simp [values] at this

/-- A new span is in the range of the allocator, and it starts at a page. -/
lemma reserved_inside (h : Guarded u t) {range : Range} {x : Span VirtualAllocation} {s1 : VirtualAllocator}
    (hr : Reserved u.allocator s1 t layout settings range x) (hfit : FitsArea u layout settings) :
    VIRTUAL_ALLOCATOR_START ≤ x.start ∧ x.end_ ≤ VIRTUAL_ALLOCATOR_END ∧ FRAME_SIZE ∣ x.start := by
  obtain ⟨g,hg,hstart⟩ := hr.gap
  have hin := h.inside
  have hend := hr.size
  rcases findGap_sound h.tree hg with ⟨ht,hrange⟩ | ⟨_,hmem,hsize⟩
  · have hle := hfit (h.live_of_leaf ht)
    rw [h.range] at hrange
    rw [hrange] at hstart
    have hS : VIRTUAL_ALLOCATOR_START ≤ VIRTUAL_ALLOCATOR_END := by decide
    simp only at hstart
    refine ⟨by omega,by omega,?_⟩
    rw [hstart]
    decide
  · rw [h.range] at hmem
    have h1 := le_start_of_mem_gaps h.tree.wf (fun y hy => (hin y hy).1) g hmem
    have h2 := end_le_of_mem_gaps h.tree.wf (fun y hy => (hin y hy).2) g hmem
    simp only at h1 h2
    refine ⟨by omega,by omega,?_⟩
    rw [hstart]
    rcases start_of_mem_gaps hmem with h3 | ⟨y,hy,h3⟩
    · rw [h3]
      decide
    · obtain ⟨c,hc,rfl⟩ := (h.spans y).mp hy
      rw [h3]
      exact (h.proper c hc).span_end

end Guarded

/-- The pages that a loop over a block visits. -/
lemma inBlock_iff {size p : ℕ} (ha : FRAME_SIZE ∣ a) (hsize : FRAME_SIZE ∣ size) :
    InBlock a size p ↔ a / FRAME_SIZE + 0 ≤ p ∧ p < a / FRAME_SIZE + Range.steps ⟨a,a+size⟩ := by
  obtain ⟨i,rfl⟩ := ha
  obtain ⟨j,rfl⟩ := hsize
  unfold InBlock Range.steps FRAME_SIZE
  simp only
  omega

/-- The block in a span whose guards are whole pages. -/
lemma Reserved.block {range : Range} {x : Span VirtualAllocation} (h : Reserved s s' t layout settings range x)
    (hguards : PageGuards settings) (hsize : 0 < layout.size) (hx : FRAME_SIZE ∣ x.start) :
    (⟨range.start,layout,settings⟩ : Block).span = x ∧ (⟨range.start,layout,settings⟩ : Block).Proper ∧
      range = ⟨range.start,range.start + (⟨range.start,layout,settings⟩ : Block).size⟩ := by
  obtain ⟨hb,ht⟩ := hguards
  have hvalue := h.value
  have hend := h.size
  unfold totalSize at hend
  rw [roundUp_of_dvd hb, roundUp_of_dvd ht] at hvalue hend
  rw [h.range]
  refine ⟨?_,⟨Nat.dvd_add hx hb,hb,ht,Nat.le_add_left _ _,hsize⟩,?_⟩
  · obtain ⟨start,end_,value⟩ := x
    simp only at hvalue hend
    simp only [Block.span, Block.size, hvalue, Nat.add_sub_cancel, Span.mk.injEq, true_and, and_true]
    omega
  · simp only [Block.size, Range.mk.injEq, true_and]
    omega

/-- The invariant after a block was allocated. -/
lemma Guarded.alloc (h : Guarded u t) (hsize : 0 < layout.size) (hP : Admits u layout settings)
    (hsup : Supplies env u.allocator.kernelAs) (hQ : ∀ i f, (env i).frame = some f → InDirectMap f)
    (hrun : u.allocator.alloc layout settings mem env = .ok (.ok a,s')) :
    ∃ t', Guarded ⟨s',insert ⟨a,layout,settings⟩ u.live⟩ t' := by
  rcases alloc_inv h.tree hsize hrun with ⟨e,he,_⟩ | ⟨range,s1,x,hr,⟨he,hspans,hmap,hwin⟩ | ⟨k,as1,_,he,_⟩⟩
  · simp at he
  swap
  · simp at he
  obtain rfl := Except.ok.inj he
  obtain ⟨h1,h2,h3⟩ := h.reserved_inside hr hP.2
  obtain ⟨hspan,hproper,hrange⟩ := hr.block hP.1 hsize h3
  set b : Block := ⟨range.start,layout,settings⟩ with hb
  obtain ⟨t',hadd⟩ := hr.added
  have hblock : ∀ p, InBlock b.addr b.size p ↔ range.start / FRAME_SIZE + 0 ≤ p ∧ p < range.start / FRAME_SIZE + range.steps := by
    intro p
    have hsteps : Range.steps ⟨b.addr,b.addr+b.size⟩ = range.steps := congrArg Range.steps hrange.symm
    have hdvd : FRAME_SIZE ∣ b.size := dvd_roundUp _
    rw [inBlock_iff hproper.addr hdvd, hsteps]
  have hnew : ∀ p, InBlock b.addr b.size p → s'.kernelAs.pages p = (env (p - range.start / FRAME_SIZE)).frame ∧
      (s'.kernelAs.pages p).isSome := by
    intro p hp
    have hp' := (hblock p).mp hp
    rw [hwin.pages, if_pos hp']
    exact ⟨rfl,(hmap _ (by omega)).frame⟩
  have hold : ∀ p, ¬InBlock b.addr b.size p → s'.kernelAs.pages p = u.allocator.kernelAs.pages p := by
    intro p hp
    rw [hwin.pages, if_neg fun hp' => hp ((hblock p).mpr hp')]
  have hframe : ∀ f, f ∈ u.allocator.kernelAs.frames → f ∈ s'.kernelAs.frames := fun f hf => (hwin.frames f).mpr (Or.inl hf)
  refine ⟨t',?_,?_,?_,fun y => ?_,?_,?_,fun p hp => ?_,fun p f hp hf => ?_,fun p q f hp hq hpf hqf => ?_⟩
  · show SpanTree view s'.spans.spans t'
    rw [hspans]
    exact hadd.tree
  · show s'.spans.range = _
    rw [hspans, hadd.range, h.range]
  · intro y hy
    rcases (hadd.mem y).mp hy with rfl | hy
    · exact ⟨h1,h2⟩
    · exact h.inside y hy
  · rw [hadd.mem, h.spans]
    simp only [Set.mem_insert_iff, exists_eq_or_imp, hspan]
  · intro c hc d hd he
    have hfresh : ∀ c ∈ u.live, c.span ≠ x := fun c hc he => by
      have hcs := (h.spans c.span).mpr ⟨c,hc,rfl⟩
      refine hr.beside c.span hcs ?_
      have hpos := (hr.inside hsize).1.trans_lt (hr.inside hsize).2
      rw [he]
      exact ⟨hpos,hpos⟩
    rcases hc with rfl | hc
    · rcases hd with rfl | hd
      · rfl
      · exact absurd (he.symm.trans hspan) (hfresh d hd)
    · rcases hd with rfl | hd
      · exact absurd (he.trans hspan) (hfresh c hc)
      · exact h.unique c hc d hd he
  · intro c hc
    rcases hc with rfl | hc
    · exact hproper
    · exact h.proper c hc
  · simp only [Set.mem_insert_iff, exists_eq_or_imp]
    by_cases hin : InBlock b.addr b.size p
    · exact ⟨fun _ => Or.inl hin,fun _ => (hnew p hin).2⟩
    · rw [hold p hin, h.pages p hp]
      exact ⟨Or.inr,fun ho => ho.resolve_left hin⟩
  · by_cases hin : InBlock b.addr b.size p
    · have henv := (hnew p hin).1.symm.trans hf
      have hlt := (hblock p).mp hin
      exact ⟨(hwin.frames f).mpr (Or.inr ⟨_,Nat.zero_le _,by omega,henv⟩),hsup.proper _ f henv,hQ _ f henv⟩
    · rw [hold p hin] at hf
      obtain ⟨h4,h5⟩ := h.frames p f hp hf
      exact ⟨hframe f h4,h5⟩
  · -- a frame for a new page is not the frame of another one
    have hcross : ∀ p q, InBlock b.addr b.size p → ¬InBlock b.addr b.size q → InArea q →
        s'.kernelAs.pages p = some f → s'.kernelAs.pages q ≠ some f := by
      intro p q hpb hqb hq hpf hqf
      rw [hold q hqb] at hqf
      exact hsup.fresh _ f ((hnew p hpb).1.symm.trans hpf) (h.frames q f hq hqf).1
    by_cases hpb : InBlock b.addr b.size p
    · by_cases hqb : InBlock b.addr b.size q
      · have := hsup.distinct _ _ f ((hnew p hpb).1.symm.trans hpf) ((hnew q hqb).1.symm.trans hqf)
        have hp' := (hblock p).mp hpb
        have hq' := (hblock q).mp hqb
        omega
      · exact absurd hqf (hcross p q hpb hqb hq hpf)
    · by_cases hqb : InBlock b.addr b.size q
      · exact absurd hpf (hcross q p hqb hpb hp hqf)
      · rw [hold p hpb] at hpf
        rw [hold q hqb] at hqf
        exact h.distinct p q f hp hq hpf hqf

/-- A failed allocation leaves the invariant. -/
lemma Guarded.allocFails (h : Guarded u t) (hsize : 0 < layout.size) {err : MemoryError}
    (hsup : Supplies env u.allocator.kernelAs) (hQ : ∀ i f, (env i).frame = some f → InDirectMap f)
    (hrun : u.allocator.alloc layout settings mem env = .ok (.error err,s')) : ∃ t', Guarded ⟨s',u.live⟩ t' := by
  rcases alloc_inv h.tree hsize hrun with ⟨e,_,rfl⟩ | ⟨range,s1,x,hr,⟨he,_⟩ | ⟨k,as1,_,_,hmap,hwin,hundo,r,hfree⟩⟩
  · exact ⟨t,h⟩
  · simp at he
  · have hback := (hwin.unmapLoop (n := k) (by omega) hsup fun j _ hj => ⟨(hmap j hj).page,(hmap j hj).frame⟩).1
      fun j f _ _ hf => hQ j f hf
    have has : s'.kernelAs = u.allocator.kernelAs := Except.ok.inj (hundo.symm.trans hback)
    obtain ⟨spans,t',h1,h2,h3,h4⟩ := hr.free hsize
    obtain ⟨_,rfl⟩ := Prod.mk.inj (Except.ok.inj (h1.symm.trans hfree))
    obtain ⟨t1,hadd⟩ := hr.added
    refine ⟨t',h2,?_,fun y hy => h.inside y ((h3 y).mp hy),fun y => ?_,h.unique,h.proper,?_,?_,?_⟩
    · show s'.spans.range = _
      rw [h4, hadd.range, h.range]
    · rw [h3]
      exact h.spans y
    · simp only [has]
      exact h.pages
    · simp only [has]
      exact h.frames
    · simp only [has]
      exact h.distinct

/-- What `free` does to a block: its pages are unmapped and its span is taken out, and nothing else changes. -/
structure Freed (s s' : VirtualAllocator) (b : Block) : Prop where
  pages : ∀ p, (InBlock b.addr b.size p → (s.kernelAs.pages p).isSome ∧ s'.kernelAs.pages p = none) ∧
    (¬InBlock b.addr b.size p → s'.kernelAs.pages p = s.kernelAs.pages p)
  spans : ∃ t m t' m', Abstracts s.spans t m ∧ Abstracts s'.spans t' m' ∧ b.span ∈ m.spans ∧ m'.spans = m.spans \ {b.span}

/-- The address space without the pages of a block. -/
def KernelAddressSpace.without (as : KernelAddressSpace) (first n : ℕ) : KernelAddressSpace where
  pages p := if first + 0 ≤ p ∧ p < first + n then none else as.pages p
  frames := as.frames.filter fun f => ∀ j, j < n → as.pages (first + j) ≠ some f

/-- The loop of `free` over the pages of a block that are mapped to frames of their own. -/
lemma unmapLoop_block (as : KernelAddressSpace) (start n : ℕ)
    (hmapped : ∀ j, j < n → ∃ f, as.pages (start / FRAME_SIZE + j) = some f ∧ f ∈ as.frames ∧ f ≠ 0 ∧ InDirectMap f)
    (hdistinct : ∀ i j f, i < n → j < n → as.pages (start / FRAME_SIZE + i) = some f →
      as.pages (start / FRAME_SIZE + j) = some f → i = j) :
    unmapLoop start n 0 as = .ok (as.without (start / FRAME_SIZE) n) := by
  set first := start / FRAME_SIZE with hfirst
  -- the frames of the block, as if they had just been taken
  set env : ℕ → PageEnv := fun j => if j < n then ⟨as.pages (first + j),true⟩ else ⟨none,true⟩ with henv
  have hframe : ∀ j f, (env j).frame = some f ↔ j < n ∧ as.pages (first + j) = some f := by
    intro j f
    simp only [henv]
    split_ifs with hj
    · simp [hj]
    · simp [hj]
  have hwin : Window env (as.without first n) first 0 n as := by
    refine ⟨fun p => ?_,fun f => ?_⟩
    · unfold KernelAddressSpace.without
      split_ifs with hp
      · simp only [henv, if_pos (show p - first < n by omega), Nat.add_sub_cancel' (show first ≤ p by omega)]
      · exact (if_neg hp).symm
    · simp only [KernelAddressSpace.without, Finset.mem_filter, hframe]
      constructor
      · intro hf
        by_cases hyes : ∃ j, j < n ∧ as.pages (first + j) = some f
        · obtain ⟨j,hj,he⟩ := hyes
          exact Or.inr ⟨j,Nat.zero_le j,hj,hj,he⟩
        · exact Or.inl ⟨hf,fun j hj he => hyes ⟨j,hj,he⟩⟩
      · intro hf
        rcases hf with hf | ⟨j,_,hj,_,he⟩
        · exact hf.1
        · obtain ⟨g,h1,h2,_⟩ := hmapped j hj
          rw [he] at h1
          rw [Option.some.inj h1]
          exact h2
  have hsup : Supplies env (as.without first n) := by
    refine ⟨fun i f hf hmem => ?_,fun i f hf => ?_,fun i j f hi hj => ?_⟩
    · obtain ⟨hi,he⟩ := (hframe i f).mp hf
      exact (Finset.mem_filter.mp hmem).2 i hi he
    · obtain ⟨hi,he⟩ := (hframe i f).mp hf
      obtain ⟨g,h1,_,h2,_⟩ := hmapped i hi
      rw [he] at h1
      rw [Option.some.inj h1]
      exact h2
    · obtain ⟨h1,h2⟩ := (hframe i f).mp hi
      obtain ⟨h3,h4⟩ := (hframe j f).mp hj
      exact hdistinct i j f h1 h3 h2 h4
  refine (hwin.unmapLoop (n := n) (by omega) hsup fun j _ hj => ⟨?_,?_⟩).1 fun j f _ _ hf => ?_
  · exact if_pos (by omega)
  · obtain ⟨f,h1,_⟩ := hmapped j hj
    rw [(hframe j f).mpr ⟨hj,h1⟩]
    rfl
  · obtain ⟨hj,he⟩ := (hframe j f).mp hf
    obtain ⟨g,h1,_,_,h2⟩ := hmapped j hj
    rw [he] at h1
    rw [Option.some.inj h1]
    exact h2

/-- `free` of a live block. -/
lemma Guarded.free (h : Guarded u t) (hb : b ∈ u.live) : ∃ s' t', u.allocator.free b.addr = .ok s' ∧
    Freed u.allocator s' b ∧ Guarded ⟨s',u.live \ {b}⟩ t' := by
  have hproper := h.proper b hb
  have hmem : b.span ∈ values t := (h.spans _).mpr ⟨b,hb,rfl⟩
  obtain ⟨spans,t',before,after,h1,h2,h3,h4,h5⟩ := free_ok h.tree hmem hproper.start_le hproper.addr_lt
  have hgone := mem_removed h.tree h3 h4
  have hdvd : FRAME_SIZE ∣ b.size := dvd_roundUp _
  have hblock := fun p => @inBlock_iff b.addr b.size p hproper.addr hdvd
  set n := Range.steps ⟨b.addr,b.addr+b.size⟩ with hn
  have hin : ∀ j, j < n → InBlock b.addr b.size (b.addr / FRAME_SIZE + j) := fun j hj =>
    (hblock _).mpr ⟨by omega,by omega⟩
  have hmapped : ∀ j, j < n → ∃ f, u.allocator.kernelAs.pages (b.addr / FRAME_SIZE + j) = some f ∧
      f ∈ u.allocator.kernelAs.frames ∧ f ≠ 0 ∧ InDirectMap f := by
    intro j hj
    have harea := h.inArea_block hb (hin j hj)
    obtain ⟨f,hf⟩ := Option.isSome_iff_exists.mp ((h.pages _ harea).mpr ⟨b,hb,hin j hj⟩)
    exact ⟨f,hf,h.frames _ f harea hf⟩
  have hloop := unmapLoop_block u.allocator.kernelAs b.addr n hmapped fun i j f hi hj hif hjf => by
    have := h.distinct _ _ f (h.inArea_block hb (hin i hi)) (h.inArea_block hb (hin j hj)) hif hjf
    omega
  have hpages : ∀ p, (u.allocator.kernelAs.without (b.addr / FRAME_SIZE) n).pages p =
      if InBlock b.addr b.size p then none else u.allocator.kernelAs.pages p := by
    intro p
    simp only [KernelAddressSpace.without, hblock]
  refine ⟨⟨spans,u.allocator.kernelAs.without (b.addr / FRAME_SIZE) n⟩,t',?_,⟨fun p => ⟨fun hp => ?_,fun hp => ?_⟩,?_⟩,
    h2,h5.trans h.range,?_,fun y => ?_,?_,?_,fun p hp => ?_,fun p f hp hf => ?_,fun p q f hp hq hpf hqf => ?_⟩
  · unfold VirtualAllocator.free
    have hstart : b.span.start + b.span.value.guardBottom = b.addr := Nat.sub_add_cancel hproper.below
    have hend : b.span.end_ - b.span.value.guardTop = b.addr + b.size := Nat.add_sub_cancel _ _
    have hlt : b.span.start + b.span.value.guardBottom < 2^64 := by
      have h6 := hproper.addr_lt
      have h7 := (h.inside _ hmem).2
      have h8 : VIRTUAL_ALLOCATOR_END < 2^64 := by decide
      simp only at h7
      omega
    have hle : b.span.value.guardTop ≤ b.span.end_ := Nat.le_add_left _ _
    simp only [h1, bind, Except.bind, checkedAdd_of_lt hlt, checkedSub_of_le hle, hstart, hend, assert_of, unmapPages, ← hn,
      hloop]
    rfl
  · refine ⟨(h.pages p (h.inArea_block hb hp)).mpr ⟨b,hb,hp⟩,?_⟩
    rw [hpages, if_pos hp]
  · rw [hpages, if_neg hp]
  · refine ⟨t,_,t',_,abstracts_of_tree h.tree,abstracts_of_tree h2,hmem,?_⟩
    ext y
    exact hgone y
  · exact fun y hy => h.inside y ((hgone y).mp hy).1
  · rw [hgone, h.spans]
    constructor
    · rintro ⟨⟨c,hc,he⟩,hne⟩
      refine ⟨c,⟨hc,?_⟩,he⟩
      rintro rfl
      exact hne he
    · rintro ⟨c,⟨hc,hne⟩,he⟩
      refine ⟨⟨c,hc,he⟩,fun he' => hne (h.unique c hc b hb (he.symm.trans he'))⟩
  · exact fun c hc d hd he => h.unique c hc.1 d hd.1 he
  · exact fun c hc => h.proper c hc.1
  · have hcover : (∃ c ∈ u.live \ {b}, InBlock c.addr c.size p) ↔ ¬InBlock b.addr b.size p ∧ ∃ c ∈ u.live, InBlock c.addr c.size p := by
      constructor
      · rintro ⟨c,⟨hc,hne⟩,hp⟩
        refine ⟨fun hpb => hne ?_,c,hc,hp⟩
        have hF : FRAME_SIZE = 4096 := rfl
        obtain ⟨h6,h7⟩ := (h.proper c hc).span_of_inBlock hp
        obtain ⟨h8,h9⟩ := hproper.span_of_inBlock hpb
        exact h.apart hc hb h6 (by omega) h8 (by omega)
      · rintro ⟨hpb,c,hc,hp⟩
        refine ⟨c,⟨hc,?_⟩,hp⟩
        rintro rfl
        exact hpb hp
    rw [hcover, hpages, ← h.pages p hp]
    split_ifs with hpb
    · simp [hpb]
    · simp [hpb]
  · rw [hpages] at hf
    split_ifs at hf with hpb
    obtain ⟨h6,h7⟩ := h.frames p f hp hf
    refine ⟨Finset.mem_filter.mpr ⟨h6,fun j hj he => hpb ?_⟩,h7⟩
    rw [← h.distinct _ _ f (h.inArea_block hb (hin j hj)) hp he hf]
    exact hin j hj
  · rw [hpages] at hpf hqf
    split_ifs at hpf hqf
    exact h.distinct p q f hp hq hpf hqf

/-- Every state of a run has the invariant. -/
lemma Run.guarded (h : Run Admits InDirectMap u) : ∃ t, Guarded u t := by
  induction h with
  | new heap pages hpages =>
    refine ⟨leaf,⟨⟨⟨trivial,rfl,by simp⟩,⟨0,rfl⟩,trivial⟩,SpanView.WF.nil⟩,rfl,?_,?_,?_,?_,fun p hp => ?_,fun p f hp hf => ?_,
      fun p q f hp _ hpf => ?_⟩
    · simp [Inside, values]
    · simp [values]
    · exact fun b hb => absurd hb (Set.notMem_empty b)
    · exact fun b hb => absurd hb (Set.notMem_empty b)
    · have hnone : pages p = none := hpages p hp.1 hp.2
      simp [VirtualAllocator.new, hnone]
    · have hnone : pages p = none := hpages p hp.1 hp.2
      simp [VirtualAllocator.new, hnone] at hf
    · have hnone : pages p = none := hpages p hp.1 hp.2
      simp [VirtualAllocator.new, hnone] at hpf
  | alloc _ hsize hP hsup hQ hrun ih =>
    obtain ⟨t,ht⟩ := ih
    exact ht.alloc hsize hP hsup hQ hrun
  | allocFails _ hsize _ hsup hQ hrun ih =>
    obtain ⟨t,ht⟩ := ih
    exact ht.allocFails hsize hsup hQ hrun
  | free _ hb hrun ih =>
    obtain ⟨t,ht⟩ := ih
    obtain ⟨s',t',h1,_,h2⟩ := ht.free hb
    obtain rfl := Except.ok.inj (h1.symm.trans hrun)
    exact ⟨t',h2⟩

/-- What is asked of `alloc` that returned the address `a`: the block starts at a page, its pages and no others have been
mapped, it lies with its guards in one new span, the guards are not mapped, and a `free` undoes this. -/
structure Allocated (s s' : VirtualAllocator) (a : ℕ) (layout : Layout) (settings : AllocSettings) : Prop where
  aligned : FRAME_SIZE ∣ a
  mapped : ∀ p, InBlock a (roundUp FRAME_SIZE layout.size) p → s.kernelAs.pages p = none ∧ (s'.kernelAs.pages p).isSome
  others : ∀ p, ¬InBlock a (roundUp FRAME_SIZE layout.size) p → s'.kernelAs.pages p = s.kernelAs.pages p
  guards : ∀ p, Touches (a - settings.guardBottom) a p ∨ Touches (a + roundUp FRAME_SIZE layout.size)
    (a + roundUp FRAME_SIZE layout.size + settings.guardTop) p → s'.kernelAs.pages p = none
  reserved : ∃ t m t' m' x, Abstracts s.spans t m ∧ Abstracts s'.spans t' m' ∧ x ∉ m.spans ∧ m'.spans = m.spans ∪ {x} ∧
    x.start + settings.guardBottom ≤ a ∧ a + roundUp FRAME_SIZE layout.size + settings.guardTop ≤ x.end_ ∧
    ∃ s'' t'', s'.free a = .ok s'' ∧ Abstracts s''.spans t'' m ∧ ∀ p,
      (InBlock a (roundUp FRAME_SIZE layout.size) p → s''.kernelAs.pages p = none) ∧
      (¬InBlock a (roundUp FRAME_SIZE layout.size) p → s''.kernelAs.pages p = s'.kernelAs.pages p)

/-- `alloc` that did what is asked of it had guards of whole pages. -/
lemma Guarded.pageGuards (h : Guarded u t) (hsize : 0 < layout.size) (hfit : FitsArea u layout settings)
    (hrun : u.allocator.alloc layout settings mem env = .ok (.ok a,s')) (hall : Allocated u.allocator s' a layout settings) :
    PageGuards settings := by
  rcases alloc_inv h.tree hsize hrun with ⟨e,he,_⟩ | ⟨range,s1,x,hr,⟨he,hspans,hmap,hwin⟩ | ⟨k,as1,_,he,_⟩⟩
  · simp at he
  swap
  · simp at he
  obtain rfl := Except.ok.inj he
  obtain ⟨_,_,h3⟩ := h.reserved_inside hr hfit
  have hstart : range.start = x.start + settings.guardBottom := by rw [hr.range]
  have hbottom : FRAME_SIZE ∣ settings.guardBottom := by
    have := hall.aligned
    rw [hstart] at this
    exact (Nat.dvd_add_right h3).mp this
  refine ⟨hbottom,?_⟩
  by_contra htop
  -- the page behind the block has been mapped
  have hend : range.end_ = range.start + roundUp FRAME_SIZE layout.size +
      (roundUp FRAME_SIZE settings.guardTop - settings.guardTop) := by
    have h4 := hr.size
    have h5 := le_roundUp settings.guardTop
    unfold totalSize at h4
    rw [roundUp_of_dvd hbottom] at h4
    rw [hr.range]
    simp only
    omega
  have hne : roundUp FRAME_SIZE settings.guardTop ≠ settings.guardTop := fun he => htop (he ▸ dvd_roundUp _)
  have hlt := le_roundUp settings.guardTop
  obtain ⟨i,hi⟩ : FRAME_SIZE ∣ range.start := hall.aligned
  obtain ⟨j,hj⟩ : FRAME_SIZE ∣ roundUp FRAME_SIZE layout.size := dvd_roundUp _
  have hF : FRAME_SIZE = 4096 := rfl
  have hsteps : j < range.steps := by
    unfold Range.steps
    rw [hend, hj]
    generalize roundUp FRAME_SIZE settings.guardTop = top at hne hlt
    rw [hF] at hlt ⊢
    omega
  have hmappable := hmap j hsteps
  have hout : ¬InBlock range.start (roundUp FRAME_SIZE layout.size) (range.start / FRAME_SIZE + j) := by
    unfold InBlock
    rw [hi, hj, hF]
    omega
  have hsame := hall.others _ hout
  rw [hwin.pages, if_pos (by omega), hmappable.page, Nat.add_sub_cancel_left] at hsame
  have := hmappable.frame
  rw [hsame] at this
  simp at this

end Lilith.VirtualAlloc
