import Lilith.VirtualAlloc.Guards
import Lilith.VirtualAlloc.FirstFit

/-! `kernel_alloc` and `kernel_free` (`memory.rs`), where `direct_alloc` has failed and the virtual allocator is asked
instead. -/
namespace Lilith.VirtualAlloc
open Theory PtrGraph CTree Rbtree
open Boot (Layout roundUp nextMultipleOf)
open Buddy (FRAME_SIZE)

variable {s s' : VirtualAllocator} {t : CTree (ℕ × Span VirtualAllocation)} {layout : Layout} {settings : AllocSettings}
  {mem : Option MemoryError} {env : ℕ → PageEnv} {u : Usage} {b : Block} {a k : ℕ} {range : Range}

def PHYSICAL_MEMORY_OFFSET : ℕ := 0xFFFF800000000000

/-- `kernel_free`. `directFree` is the call of `direct_free`, which does not touch the virtual allocator. -/
def kernelFree (directFree : ℕ → Except Fault Unit) (s : VirtualAllocator) (addr : ℕ) : Except Fault VirtualAllocator :=
  if PHYSICAL_MEMORY_OFFSET ≤ addr ∧ addr < PHYSICAL_MEMORY_OFFSET + PHYSICAL_MEMORY_MAX_SIZE then do
    directFree addr
    return s
  else if VIRTUAL_ALLOCATOR_START ≤ addr ∧ addr < VIRTUAL_ALLOCATOR_END then s.free addr
  else throw (.panic "invalid address passed to kernel_free")

/-- The settings that the kernel uses: those of `kernel_alloc` and of `Stack::new`. -/
def KernelSettings (settings : AllocSettings) : Prop := settings = ⟨0,0⟩ ∨ settings = ⟨FRAME_SIZE,FRAME_SIZE⟩

/-- A frame of the direct map. -/
def DirectFrame (f : ℕ) : Prop := InDirectMap f ∧ FRAME_SIZE ∣ f

lemma KernelSettings.pageGuards (h : KernelSettings settings) : PageGuards settings := by
  rcases h with rfl | rfl
  · exact ⟨dvd_zero _,dvd_zero _⟩
  · exact ⟨dvd_refl _,dvd_refl _⟩

/-- The number of frames in the direct map. -/
def MAX_FRAMES : ℕ := PHYSICAL_MEMORY_MAX_SIZE / FRAME_SIZE

/-- There are no more frames than the direct map has. -/
lemma frames_bound (hsup : Supplies env s.kernelAs) (hQ : ∀ i f, (env i).frame = some f → DirectFrame f)
    (h : ∀ j, j < k → (env j).frame.isSome) : k ≤ MAX_FRAMES := by
  have hframe : ∀ j, j < k → ∃ f, (env j).frame = some f := fun j hj => Option.isSome_iff_exists.mp (h j hj)
  have hcard := Finset.card_le_card_of_injOn (s := Finset.range k) (t := Finset.range MAX_FRAMES)
    (fun j => (env j).frame.getD 0 / FRAME_SIZE) ?_ ?_
  · simpa using hcard
  · intro j hj
    obtain ⟨f,hf⟩ := hframe j (by simpa using hj)
    obtain ⟨hlt,i,rfl⟩ := hQ j f hf
    simp only [hf, Option.getD_some, Finset.coe_range, Set.mem_Iio]
    unfold InDirectMap PHYSICAL_MEMORY_MAX_SIZE at hlt
    unfold MAX_FRAMES PHYSICAL_MEMORY_MAX_SIZE
    unfold FRAME_SIZE at hlt ⊢
    omega
  · intro i hi j hj he
    obtain ⟨f,hf⟩ := hframe i (by simpa using hi)
    obtain ⟨g,hg⟩ := hframe j (by simpa using hj)
    obtain ⟨_,x,rfl⟩ := hQ i f hf
    obtain ⟨_,y,rfl⟩ := hQ j g hg
    simp only [hf, hg, Option.getD_some] at he
    have hxy : x = y := by
      unfold FRAME_SIZE at he
      omega
    rw [hxy] at hf
    exact hsup.distinct i j _ hf hg

/-- A block for which there were frames is not larger than the range of the allocator. -/
lemma Reserved.fitsArea {x : Span VirtualAllocation} (h : Reserved s s' t layout settings range x)
    (hset : KernelSettings settings) (hle : range.steps ≤ MAX_FRAMES) : FitsArea u layout settings := by
  intro _
  have hsize := h.size
  rw [h.range] at hle
  unfold Range.steps MAX_FRAMES PHYSICAL_MEMORY_MAX_SIZE at hle
  simp only at hle
  have hguards : settings.guardBottom ≤ FRAME_SIZE ∧ settings.guardTop ≤ FRAME_SIZE := by
    rcases hset with rfl | rfl
    · exact ⟨Nat.zero_le _,Nat.zero_le _⟩
    · exact ⟨le_rfl,le_rfl⟩
  have hE : VIRTUAL_ALLOCATOR_END - VIRTUAL_ALLOCATOR_START = 0x100000000000 := by decide
  rw [hE]
  unfold FRAME_SIZE at hle hguards
  omega

lemma Guarded.fitsArea_of_alloc (h : Guarded u t) (hsize : 0 < layout.size) (hset : KernelSettings settings)
    (hsup : Supplies env u.allocator.kernelAs) (hQ : ∀ i f, (env i).frame = some f → DirectFrame f)
    (hrun : u.allocator.alloc layout settings mem env = .ok (.ok a,s')) : FitsArea u layout settings := by
  rcases alloc_inv h.tree hsize hrun with ⟨e,he,_⟩ | ⟨range,s1,x,hr,⟨_,_,hmap,_⟩ | ⟨k,as1,_,he,_⟩⟩
  · simp at he
  · exact hr.fitsArea hset (frames_bound hsup hQ fun j hj => (hmap j hj).frame)
  · simp at he

/-- The invariant, in every run of the kernel. -/
lemma Run.kernel (h : Run (fun _ _ settings => KernelSettings settings) DirectFrame u) : ∃ t, Guarded u t := by
  induction h with
  | new heap pages hpages => exact (Run.new heap pages hpages).guarded
  | alloc _ hsize hP hsup hQ hrun ih =>
    obtain ⟨t,ht⟩ := ih
    have hfit := ht.fitsArea_of_alloc hsize hP hsup hQ hrun
    exact ht.alloc hsize ⟨hP.pageGuards,hfit⟩ hsup (fun i f hf => (hQ i f hf).1) hrun
  | allocFails _ hsize _ hsup hQ hrun ih =>
    obtain ⟨t,ht⟩ := ih
    exact ht.allocFails hsize hsup (fun i f hf => (hQ i f hf).1) hrun
  | free _ hb hrun ih =>
    obtain ⟨t,ht⟩ := ih
    obtain ⟨s',t',h1,_,h2⟩ := ht.free hb
    obtain rfl := Except.ok.inj (h1.symm.trans hrun)
    exact ⟨t',h2⟩

/-- The live blocks leave room for a span of the size. An allocator without blocks does not look at the size. -/
def HasRoom (u : Usage) (size : ℕ) : Prop :=
  u.live = ∅ ∨ ∃ lo, VIRTUAL_ALLOCATOR_START ≤ lo ∧ lo + size ≤ VIRTUAL_ALLOCATOR_END ∧
    ∀ b ∈ u.live, b.span.end_ ≤ lo ∨ lo + size ≤ b.span.start

end Lilith.VirtualAlloc
