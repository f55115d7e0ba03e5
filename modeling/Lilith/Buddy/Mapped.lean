import Lilith.Boot.Claim
import Lilith.Buddy.Runs

/-! The pages of `FrameInfo`s that `setup_page_table` maps (`bootstrap.rs`), and what `merge` looks at. The pages cover the
frames of the spans of the memory map, but `merge` also looks at a buddy that is outside of them. -/
namespace Lilith.Boot

def SpanType.needsFrameinfo : SpanType → Bool
  | .reserved => false
  | .inUse | .reclaimable | .free => true

end Lilith.Boot

namespace Lilith.Buddy
open Theory BuddyAllocator
open Boot (Span roundUp roundDown)

/-- `fi_start`: the page with the `FrameInfo` of the first frame of a span. -/
def fiStart (span : Span) : ℕ := roundDown 4096 (frameInfoAddr (roundDown 4096 span.start / FRAME_SIZE))

/-- `fi_end`: the end of the page with the `FrameInfo` of the last frame of a span. -/
def fiEnd (span : Span) : ℕ := roundUp 4096 (frameInfoAddr (roundUp 4096 span.end_ / FRAME_SIZE))

/-- The pages of `(fi_start..fi_end).step_by(4096)`. -/
def fiPages (span : Span) : List ℕ := (List.range ((fiEnd span - fiStart span + 4095) / 4096)).map (fiStart span + 4096 * ·)

/-- The `FrameInfo` of frame `n` is in a page that is mapped for a span. -/
def mapped (spans : List Span) (n : ℕ) : Bool :=
  spans.any fun span => span.spanType.needsFrameinfo &&
    (fiPages span).any fun fiAddr => decide (fiAddr ≤ frameInfoAddr n ∧ frameInfoAddr n < fiAddr + 4096)

/-- The spans of a memory map, where those that are not reserved are whole pages. -/
structure MemoryMap (spans : List Span) : Prop where
  wf : Boot.view.WF spans
  aligned : ∀ span ∈ spans, span.spanType ≠ .reserved → FRAME_SIZE ∣ span.start ∧ FRAME_SIZE ∣ span.end_

/-- The frames that are usable as a whole. -/
def usableFrames (spans : List Span) : Set ℕ :=
  { n | ∀ p, n * FRAME_SIZE ≤ p → p < (n + 1) * FRAME_SIZE → Boot.Usable (Boot.view.lookup spans) p }

variable {spans : List Span} {span : Span} {n : ℕ} {b : Block}

/-- A `FrameInfo` is in one of the pages from `fi_start` to `fi_end` if its group of 64 is that of a frame of the span. -/
lemma mem_fiPages (hs : FRAME_SIZE ∣ span.start) (he : FRAME_SIZE ∣ span.end_) (hlt : span.start < span.end_) :
    (∃ fiAddr ∈ fiPages span, fiAddr ≤ frameInfoAddr n ∧ frameInfoAddr n < fiAddr + 4096) ↔
      ∃ m, span.start ≤ m * FRAME_SIZE ∧ m * FRAME_SIZE < span.end_ ∧ m / 64 = n / 64 := by
  obtain ⟨i,hi⟩ := hs
  obtain ⟨j,hj⟩ := he
  have hij : i < j := by
    rw [hi, hj] at hlt
    exact Nat.lt_of_mul_lt_mul_left hlt
  have hstart : fiStart span = FRAME_INFO_ADDR + 4096 * (i / 64) := by
    unfold fiStart roundDown frameInfoAddr FRAME_INFO_ADDR FRAME_INFO_SIZE
    rw [hi]
    unfold FRAME_SIZE
    omega
  have hend : fiEnd span = FRAME_INFO_ADDR + 4096 * ((j + 63) / 64) := by
    unfold fiEnd roundUp frameInfoAddr FRAME_INFO_ADDR FRAME_INFO_SIZE
    rw [hj]
    unfold FRAME_SIZE
    omega
  have hpages : (fiEnd span - fiStart span + 4095) / 4096 = (j + 63) / 64 - i / 64 := by
    rw [hstart, hend]
    omega
  unfold fiPages
  simp only [List.mem_map, List.mem_range, exists_exists_and_eq_and]
  rw [hpages, hstart, hi, hj]
  unfold frameInfoAddr FRAME_INFO_SIZE FRAME_SIZE
  constructor
  · intro ⟨k,hk,h1,h2⟩
    by_cases hin : i ≤ n
    · exact ⟨min n (j-1),by omega,by omega,by omega⟩
    · exact ⟨i,by omega,by omega,by omega⟩
  · intro ⟨m,h1,h2,h3⟩
    exact ⟨n / 64 - i / 64,by omega,by omega,by omega⟩

/-- The mapped `FrameInfo`s are those whose group of 64 is that of a frame of a span that needs them. -/
lemma mapped_iff (h : MemoryMap spans) : mapped spans n = true ↔ ∃ span ∈ spans, span.spanType.needsFrameinfo = true ∧
    ∃ m, span.start ≤ m * FRAME_SIZE ∧ m * FRAME_SIZE < span.end_ ∧ m / 64 = n / 64 := by
  unfold mapped
  simp only [List.any_eq_true, Bool.and_eq_true, decide_eq_true_eq]
  constructor
  · intro ⟨span,hspan,hneeds,hpage⟩
    obtain ⟨hs,he⟩ := h.aligned span hspan (by rintro heq; rw [heq] at hneeds; simp [Boot.SpanType.needsFrameinfo] at hneeds)
    exact ⟨span,hspan,hneeds,(mem_fiPages hs he (h.wf.proper span hspan)).mp hpage⟩
  · intro ⟨span,hspan,hneeds,hframe⟩
    obtain ⟨hs,he⟩ := h.aligned span hspan (by rintro heq; rw [heq] at hneeds; simp [Boot.SpanType.needsFrameinfo] at hneeds)
    exact ⟨span,hspan,hneeds,(mem_fiPages hs he (h.wf.proper span hspan)).mpr hframe⟩

/-- A usable frame has a `FrameInfo`. -/
lemma mapped_of_usable (h : MemoryMap spans) (hn : n ∈ usableFrames spans) : mapped spans n = true := by
  obtain ⟨ty,hty,husable⟩ := hn (n * FRAME_SIZE) le_rfl (Nat.mul_lt_mul_of_pos_right (Nat.lt_succ_self n) (by decide))
  obtain ⟨span,hspan,⟨h1,h2⟩,rfl⟩ := h.wf.lookup_eq_some.mp hty
  refine (mapped_iff h).mpr ⟨span,hspan,?_,n,h1,h2,rfl⟩
  change span.spanType.isUsable = true at husable
  cases ht : span.spanType with
  | reserved => rw [ht] at husable; simp [Boot.SpanType.isUsable] at husable
  | inUse => rfl
  | reclaimable => rfl
  | free => rfl

/-- A range of one block is added as that block. -/
lemma Inv.addRange_block {st : BuddyAllocator} {F : ℕ → List ℕ} {L : Set Block} {A : Set ℕ} (h : Inv st F L ∅ A ∅)
    (ho : b.order ≤ MAX_ORDER) (hres : ∀ m ∈ frameRange b.start (b.start + 2^b.order), st.ty m = some .reserved) :
    ∃ st', st.addRange (b.start * FRAME_SIZE) ((b.start + 2^b.order) * FRAME_SIZE) = .ok st' ∧
      Inv st' (Function.update F b.order (F b.order ++ [b.index])) L ∅ (A ∪ { m | m ∈ b }) ∅ := by
  have hpos := Nat.two_pow_pos b.order
  have hlt : b.start < b.start + 2^b.order := by omega
  have hinv : Inv st F L ∅ A (frameRange b.start (b.start + 2^b.order)) := ⟨h.lists,h.tiles,h.apart,h.small,h.free,h.live,
    h.held,h.tail,fun m hm _ => h.outside m hm (Set.notMem_empty m)⟩
  obtain ⟨h1,_,h3,h4⟩ := rangeOrder_spec hlt
  obtain ⟨fuel,hfuel⟩ : ∃ fuel, (b.start + 2^b.order) * FRAME_SIZE - b.start * FRAME_SIZE + 1 = fuel + 1 + 1 := by
    refine ⟨2^b.order * FRAME_SIZE - 1,?_⟩
    have : 0 < 2^b.order * FRAME_SIZE := Nat.mul_pos hpos (by decide)
    rw [Nat.add_mul]
    omega
  obtain ⟨c,st1,hs,hc,_,hrun,hinv1,_⟩ := hinv.addRangeLoop_step (fuel+1) hlt (fun m hm => by rw [hres m hm]; rfl)
    fun m hm => h.not_added (hres m hm)
  have hco : c.order = b.order := by
    rw [hc]
    apply le_antisymm
    · exact (Nat.pow_le_pow_iff_right (by decide : 1 < 2)).mp (by omega)
    · exact h4 b.order ho ⟨b.index,rfl⟩ le_rfl
  obtain rfl : c = b := Block.ext_start hco hs
  rw [frameRange_empty le_rfl] at hinv1
  refine ⟨st1,?_,hinv1⟩
  have hmod : ∀ m, m * FRAME_SIZE % FRAME_SIZE = 0 := fun m => Nat.mul_mod_left m FRAME_SIZE
  simp only [BuddyAllocator.addRange, assert, hmod, and_self, if_true, bind, Except.bind]
  rw [hfuel, hrun, addRangeLoop, if_neg (lt_irrefl _)]

/-- A block can be added and allocated as the first one. -/
lemma exists_alloc {M : ℕ → Bool} (ho : b.order ≤ MAX_ORDER) (hb : ∀ n ∈ b, M n = true) :
    ∃ st1 st2, (∀ m ∈ frameRange b.start (b.start + 2^b.order), (init M).ty m = some .reserved) ∧
      (init M).addRange (b.start * FRAME_SIZE) ((b.start + 2^b.order) * FRAME_SIZE) = .ok st1 ∧
      st1.alloc b.order = .ok (.ok (b.start * FRAME_SIZE),st2) := by
  have hres : ∀ m ∈ frameRange b.start (b.start + 2^b.order), (init M).ty m = some .reserved := by
    intro m hm
    have hmap := hb m (Block.mem_iff.mpr (mem_frameRange.mp hm))
    simp [BuddyAllocator.ty, BuddyAllocator.init, hmap]
  obtain ⟨st1,hrun1,hinv1⟩ := (Inv.init M).addRange_block ho hres
  rcases hinv1.alloc_ok ho with ⟨_,hnone⟩ | ⟨_,c,st2,F2,hrun2,hco,_,hinv2,_⟩
  · have := hnone b.order le_rfl ho
    rw [Function.update_self] at this
    simp at this
  · -- the block that is allocated is the only one
    have hcb : c.start ∈ b := by
      have := hinv2.mem_added (Or.inl (Or.inr (Set.mem_insert c ∅))) c.start_mem
      simpa using this
    have hsame : b.start = c.start := Block.start_of_mem (hco ▸ le_rfl : b.order ≤ c.order) hcb
    rw [← hsame] at hrun2
    exact ⟨st1,st2,hres,hrun1,hrun2⟩

/-- A block of usable frames can be freed, and `merge` looks at its buddy then. -/
lemma exists_inspects (h : MemoryMap spans) (ho : b.order < MAX_ORDER) (hb : ∀ n ∈ b, n ∈ usableFrames spans) :
    ∃ u, Reach (mapped spans) (usableFrames spans) u ∧ (b.start * FRAME_SIZE,b.order) ∈ u.live ∧
      Inspects u.buddy b.start b.order b.buddy.start := by
  obtain ⟨st1,st2,hres,hrun1,hrun2⟩ := exists_alloc ho.le fun n hn => mapped_of_usable h (hb n hn)
  have hreach := Reach.addRange .init (fun m hm => hb m (Block.mem_iff.mpr (mem_frameRange.mp hm))) hres hrun1
  exact ⟨_,hreach.alloc ho.le hrun2,Set.mem_insert _ _,st2,_,_,.refl,ho,(getBuddy_start ho.le).symm⟩

/-- In a run over usable frames, `merge` only looks at buddies of blocks of usable frames. -/
lemma Inspects.block {U : Set ℕ} {u : Usage} {addr order : ℕ} (hu : Reach (mapped spans) U u)
    (hl : (addr,order) ∈ u.live) (h : Inspects u.buddy (addr / FRAME_SIZE) order n) :
    ∃ b : Block, b.order < MAX_ORDER ∧ (∀ m ∈ b, m ∈ U) ∧ n = b.buddy.start := by
  obtain ⟨F,L,hinv,hlive,_,hsub⟩ := reach_inv hu
  rw [hlive] at hl
  obtain ⟨c,hc,he⟩ := hl
  obtain ⟨rfl,rfl⟩ := Prod.mk.inj he
  rw [Nat.mul_div_cancel _ (by decide)] at h
  obtain ⟨d,ho,hd,hn⟩ := hinv.inspects_block hc h
  exact ⟨d,ho,fun m hm => hsub (hd m hm),hn⟩

/-- In all runs over usable frames of a memory map, `merge` only looks at `FrameInfo`s that are mapped, if and only if the
buddy of every block of usable frames, of an order that can be merged, starts with a frame whose `FrameInfo` is mapped. -/
theorem merge_mapped_iff (h : MemoryMap spans) :
    (∀ u, Reach (mapped spans) (usableFrames spans) u → ∀ addr order, (addr,order) ∈ u.live →
      ∀ n, Inspects u.buddy (addr / FRAME_SIZE) order n → mapped spans n = true) ↔
    ∀ b : Block, b.order < MAX_ORDER → (∀ n ∈ b, n ∈ usableFrames spans) → mapped spans b.buddy.start = true := by
  constructor
  · intro hall b ho hb
    obtain ⟨u,hu,hl,hi⟩ := exists_inspects h ho hb
    refine hall u hu _ _ hl _ ?_
    rw [Nat.mul_div_cancel _ (by decide)]
    exact hi
  · intro hall u hu addr order hl n hn
    obtain ⟨b,ho,hb,rfl⟩ := hn.block hu hl
    exact hall b ho hb

/-- A memory map with one free span. -/
lemma memoryMap_single {lo hi : ℕ} (hlo : FRAME_SIZE ∣ lo) (hhi : FRAME_SIZE ∣ hi) (hlt : lo < hi) :
    MemoryMap [⟨lo,hi,.free⟩] := by
  refine ⟨⟨List.pairwise_singleton _ _,fun span hspan => ?_⟩,fun span hspan _ => ?_⟩
  · rw [List.mem_singleton.mp hspan]
    exact hlt
  · rw [List.mem_singleton.mp hspan]
    exact ⟨hlo,hhi⟩

lemma mem_usableFrames_single {lo hi : ℕ} :
    n ∈ usableFrames [⟨lo,hi,.free⟩] ↔ lo ≤ n * FRAME_SIZE ∧ (n + 1) * FRAME_SIZE ≤ hi := by
  have husable : ∀ p, Boot.Usable (Boot.view.lookup [⟨lo,hi,.free⟩]) p ↔ lo ≤ p ∧ p < hi := by
    intro p
    unfold Boot.Usable SpanView.lookup SpanView.Contains Boot.view
    by_cases hp : lo ≤ p ∧ p < hi
    · simp [hp, Boot.SpanType.isUsable]
    · simp [List.find?, hp]
  unfold usableFrames
  simp only [Set.mem_ofPred_eq, husable]
  have hF : FRAME_SIZE = 4096 := rfl
  rw [Nat.add_mul, hF]
  constructor
  · intro h
    obtain ⟨h1,_⟩ := h (n * 4096) le_rfl (by omega)
    refine ⟨h1,?_⟩
    by_contra h2
    have h3 := (h (max hi (n * 4096)) (le_max_right _ _) (by omega)).2
    omega
  · intro h p h1 h2
    omega

/-- In a free span of one block of the largest order, all buddies have a `FrameInfo`. -/
lemma mapped_whole : MemoryMap [⟨0x400000,0x800000,.free⟩] ∧ (∀ n ∈ usableFrames [⟨0x400000,0x800000,.free⟩], n ∈ (⟨10,1⟩ : Block)) ∧
    ∀ b : Block, b.order < MAX_ORDER → (∀ n ∈ b, n ∈ usableFrames [⟨0x400000,0x800000,.free⟩]) →
      mapped [⟨0x400000,0x800000,.free⟩] b.buddy.start = true := by
  have hmap : MemoryMap [⟨0x400000,0x800000,.free⟩] := memoryMap_single (by decide) (by decide) (by decide)
  have hblock : ∀ n, n ∈ usableFrames [⟨0x400000,0x800000,.free⟩] ↔ n ∈ (⟨10,1⟩ : Block) := by
    intro n
    rw [mem_usableFrames_single, Block.mem_iff]
    simp only [FRAME_SIZE, Block.start]
    omega
  refine ⟨hmap,fun n hn => (hblock n).mp hn,fun b ho hb => mapped_of_usable hmap ?_⟩
  rw [hblock]
  exact Block.nested (Block.mem_parent.mpr (Or.inl b.start_mem)) ((hblock _).mp (hb _ b.start_mem)) ho
    (Block.mem_parent.mpr (Or.inr b.buddy.start_mem))

theorem merge_mapped_iff_whole : MemoryMap [⟨0x400000,0x800000,.free⟩] ∧
    ∀ u, Reach (mapped [⟨0x400000,0x800000,.free⟩]) (usableFrames [⟨0x400000,0x800000,.free⟩]) u →
      ∀ addr order, (addr,order) ∈ u.live → ∀ n, Inspects u.buddy (addr / FRAME_SIZE) order n →
        mapped [⟨0x400000,0x800000,.free⟩] n = true := by
  obtain ⟨hmap,_,hbuddy⟩ := mapped_whole
  exact ⟨hmap,(merge_mapped_iff hmap).mpr hbuddy⟩

/-- The memory from 1 MiB to 1.5 MiB is free: the buddy of the block of 512 KiB starts behind the mapped `FrameInfo`s. -/
lemma not_mapped_behind : MemoryMap [⟨0x100000,0x180000,.free⟩] ∧
    (∀ n ∈ usableFrames [⟨0x100000,0x180000,.free⟩], 256 ≤ n ∧ n < 384) ∧
    (∀ n ∈ (⟨7,2⟩ : Block), n ∈ usableFrames [⟨0x100000,0x180000,.free⟩]) ∧
    mapped [⟨0x100000,0x180000,.free⟩] (⟨7,2⟩ : Block).buddy.start = false := by
  have hmap : MemoryMap [⟨0x100000,0x180000,.free⟩] := memoryMap_single (by decide) (by decide) (by decide)
  refine ⟨hmap,fun n hn => ?_,fun n hn => ?_,?_⟩
  · rw [mem_usableFrames_single] at hn
    unfold FRAME_SIZE at hn
    omega
  · rw [Block.mem_iff] at hn
    rw [mem_usableFrames_single]
    simp only [Block.start] at hn
    unfold FRAME_SIZE
    omega
  · rw [← Bool.not_eq_true, mapped_iff hmap]
    rintro ⟨span,hspan,_,m,h1,h2,h3⟩
    have hstart : (⟨7,2⟩ : Block).buddy.start = 384 := by decide
    rw [List.mem_singleton.mp hspan] at h1 h2
    simp only [FRAME_SIZE] at h1 h2
    omega

theorem merge_not_mapped : MemoryMap [⟨0x100000,0x180000,.free⟩] ∧
    ∃ u, Reach (mapped [⟨0x100000,0x180000,.free⟩]) (usableFrames [⟨0x100000,0x180000,.free⟩]) u ∧
      (0x100000,7) ∈ u.live ∧ Inspects u.buddy (0x100000 / FRAME_SIZE) 7 384 ∧
      mapped [⟨0x100000,0x180000,.free⟩] 384 = false := by
  obtain ⟨hmap,_,hmem,hnone⟩ := not_mapped_behind
  obtain ⟨u,hu,hl,hi⟩ := @exists_inspects _ ⟨7,2⟩ hmap (by decide) hmem
  exact ⟨hmap,u,hu,hl,hi,hnone⟩

end Lilith.Buddy
