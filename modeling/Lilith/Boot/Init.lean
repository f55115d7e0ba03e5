import Lilith.Boot.FrameInfos
import Lilith.Boot.Marks
import Lilith.Boot.Reclaim

/-! `init` as a whole (`bootstrap.rs`): the page tables and the pages of `FrameInfo`s take frames from the filled allocator,
and all other frames that are usable as a whole go to the buddy allocator, now or when the `Reclaimer` is dropped. -/
namespace Lilith.Boot

/-- The virtual addresses that the linker chooses. -/
structure KernelPages where
  textStart : ℕ
  dataStart : ℕ
  bssEnd : ℕ

/-- `(start..end).step_by(step)` -/
def stepBy (start end_ step : ℕ) : List ℕ := (List.range ((end_ - start + step - 1) / step)).map (start + step * ·)

/-- The pages of 1 GiB of the direct map. -/
def directPages : List ℕ := (stepBy 0 PHYSICAL_MEMORY_MAX_SIZE (1024 * 1024 * 1024)).map (PHYSICAL_MEMORY_OFFSET + ·)

/-- The pages of the kernel. -/
def kernelPages (kernel : KernelPages) : List ℕ :=
  stepBy kernel.textStart kernel.dataStart 4096 ++ stepBy kernel.dataStart kernel.bssEnd 4096

section PageTable
variable (tables : ℕ → ℕ) (previousTable : ℕ → Option ℕ) (kernel : KernelPages)

namespace Bootstrap

/-- The direct map. Its pages are mapped to what is there already. -/
def mapDirect (self : Bootstrap) : Except Fault Bootstrap :=
  directPages.foldlM (fun self virt => self.addTables (tables virt)) self

/-- The body of the loop of `copy_mapping_4kib`. -/
def copyPage (self : Bootstrap) (virt : ℕ) : Except Fault Bootstrap :=
  match previousTable virt with
  | none => .error (.panic "page not mapped")
  | some _ => self.addTables (tables virt)

def copyMapping4kib (self : Bootstrap) (start end_ : ℕ) : Except Fault Bootstrap := do
  assert (4096 ∣ start) "assertion failed: start.is_aligned(4096u64)"
  (stepBy start end_ 4096).foldlM (copyPage tables previousTable) self

/-- `setup_page_table`, where the loop over the spans has at most `fuel` rounds -/
def setupPageTable (fuel : ℕ) (self : Bootstrap) : Except Fault Bootstrap := do
  let self ← self.mapDirect tables
  let self ← self.copyMapping4kib tables previousTable kernel.textStart kernel.dataStart
  let self ← self.copyMapping4kib tables previousTable kernel.dataStart kernel.bssEnd
  self.frameInfoLoop tables fuel 0

end Bootstrap

/-- What `init` leaves: the page tables, the ranges that the buddy allocator has, and the allocator of the `Reclaimer`. -/
structure Initialized where
  pageTable : ℕ
  bootstrap : Bootstrap
  ranges : List PhysRange
  reclaimer : BootAlloc

variable (mem : Memory) (sym : KernelSymbols) (align : PageAlign)

/-- `init` up to `slub_init` -/
def init (fuel infoAddr : ℕ) : Except Fault Initialized := do
  let bootAlloc ← fillBootAlloc mem sym infoAddr
  let (pageTable,self) ← (Bootstrap.new bootAlloc).allocateFrame
  let _ ← physToVirt pageTable
  let self ← self.setupPageTable tables previousTable kernel fuel
  let (ranges,reclaimer) ← self.bootAlloc.claimFreeRanges align
  return ⟨pageTable,self,ranges,reclaimer⟩

end PageTable

open Theory PtrGraph CTree Rbtree
open Buddy (fiPages)

variable {n limit infoAddr fuel : ℕ} {st st' st'' : Bootstrap} {t t' t'' : CTree (ℕ × Span)} {tables : ℕ → ℕ} {b b' : BootAlloc}
  {layout : Layout} {fs gs vs ws : List ℕ} {k l : ℕ} {fl : List ℕ} {align : PageAlign} {mem : Memory} {sym : KernelSymbols}
  {kernel : KernelPages} {previousTable : ℕ → Option ℕ} {res : Initialized} {ss : List PhysRange}

section Aligned

/-- The addresses that the search of `alloc` returns are aligned. -/
lemma allocWorker_dvd {h : Heap Span MaxFree} (fuel : ℕ) {node a : ℕ} (hrun : allocWorker h layout fuel node = .ok (some a)) :
    layout.align ∣ a := by
  induction fuel generalizing node a with
  | zero => cases hrun
  | succ fuel ih =>
    have hchild : ∀ {child : Ptr} {a : ℕ}, inChild h layout fuel child = .ok (some a) → layout.align ∣ a := by
      intro child a hc
      cases child with
      | none => cases hc
      | some c =>
        obtain ⟨m,_,hc⟩ := bind_ok hc
        obtain ⟨aug,_,hc⟩ := bind_ok hc
        split_ifs at hc
        · exact ih hc
        · cases hc
    rw [allocWorker_succ] at hrun
    obtain ⟨m,_,hrun⟩ := bind_ok hrun
    obtain ⟨left,hleft,hrun⟩ := bind_ok hrun
    cases left with
    | some result =>
      obtain rfl := Option.some.inj (Except.ok.inj hrun)
      exact hchild hleft
    | none =>
      obtain ⟨fits,hfit,hrun⟩ := bind_ok hrun
      cases fits with
      | some start =>
        obtain rfl := Option.some.inj (Except.ok.inj hrun)
        unfold fitIn at hfit
        split_ifs at hfit with hfree
        · obtain ⟨s,hs,hfit⟩ := bind_ok hfit
          unfold nextMultipleOf at hs
          split_ifs at hs with hlt
          obtain rfl := Except.ok.inj hs
          have hsome := Except.ok.inj hfit
          split_ifs at hsome
          obtain rfl := Option.some.inj hsome
          exact dvd_roundUp_self _ _
        · cases hfit
      | none => exact hchild hrun

lemma alloc_dvd {A S a : ℕ} (hpad : layout.padTo 4096 = .ok ⟨S,A⟩) (hrun : b.alloc layout = .ok (some a,b')) : A ∣ a := by
  unfold BootAlloc.alloc at hrun
  rw [hpad] at hrun
  cases hhead : b.tree.head with
  | none =>
    simp [hhead, bind, Except.bind, pure, Except.pure] at hrun
  | some head =>
    simp only [hhead, bind, Except.bind] at hrun
    cases hwork : allocWorker b.tree.heap ⟨S,A⟩ b.tree.heap.bound head with
    | error e => simp [hwork] at hrun
    | ok r =>
      cases r with
      | none => simp [hwork, pure, Except.pure] at hrun
      | some start =>
        have hdvd : A ∣ start := allocWorker_dvd _ hwork
        simp only [hwork] at hrun
        split at hrun
        · cases hrun
        · obtain ⟨ha,_⟩ := Prod.mk.inj (Except.ok.inj hrun)
          obtain rfl := Option.some.inj ha
          exact hdvd

end Aligned

/-- A part of `setup_page_table` took the frames `fs`, and mapped the pages `vs` of `FrameInfo`s: besides these and their page
tables it took `k` frames. -/
structure Takes (tables : ℕ → ℕ) (st : Bootstrap) (t : CTree (ℕ × Span)) (st' : Bootstrap) (t' : CTree (ℕ × Span))
    (fs vs : List ℕ) (k : ℕ) : Prop where
  frames : fs.Nodup
  aligned : ∀ f ∈ fs, 4096 ∣ f
  free : ∀ f ∈ fs, ∀ p, f ≤ p → p < f + 4096 → denote view t p = some .free
  types : ∀ p, denote view t' p = if ∃ f ∈ fs, f ≤ p ∧ p < f + 4096 then some .inUse else denote view t p
  length : fs.length = k + (vs.map fun v => 1 + tables v).sum
  pages : vs.Nodup
  unmapped : ∀ v ∈ vs, st.pages v = none
  kept : ∀ v, v ∉ vs → st'.pages v = st.pages v
  mapped : ∀ v ∈ vs, ∃ f ∈ fs, st'.pages v = some f
  distinct : ∀ v ∈ vs, ∀ w ∈ vs, st'.pages v = st'.pages w → v = w

namespace Takes

/-- Nothing is taken. -/
lemma refl (tables : ℕ → ℕ) (hp : st'.pages = st.pages) : Takes tables st t st' t [] [] 0 :=
  ⟨List.nodup_nil,by simp,by simp,by simp,rfl,List.nodup_nil,by simp,by simp [hp],by simp,by simp⟩

/-- What is in use stays so. -/
lemma inUse (h : Takes tables st t st' t' fs vs k) {p : ℕ} (hp : denote view t p = some .inUse) : denote view t' p = some .inUse := by
  rw [h.types]
  split_ifs
  · rfl
  · exact hp

lemma trans (h : Takes tables st t st' t' fs vs k) (h' : Takes tables st' t' st'' t'' gs ws l) :
    Takes tables st t st'' t'' (fs ++ gs) (vs ++ ws) (k + l) := by
  -- a frame that was taken is not free any more
  have hfresh : ∀ g ∈ gs, ∀ p, g ≤ p → p < g + 4096 → ¬ ∃ f ∈ fs, f ≤ p ∧ p < f + 4096 := by
    intro g hg p h1 h2 hf
    have hfree := h'.free g hg p h1 h2
    rw [h.types, if_pos hf] at hfree
    cases hfree
  have hapart : ∀ f ∈ fs, f ∉ gs := fun f hf hg => hfresh f hg f le_rfl (by omega) ⟨f,hf,le_rfl,by omega⟩
  have hnew : ∀ w ∈ ws, w ∉ vs := by
    intro w hw hv
    obtain ⟨f,_,hf⟩ := h.mapped w hv
    rw [h'.unmapped w hw] at hf
    cases hf
  have hpages : ∀ v ∈ vs, st''.pages v = st'.pages v := fun v hv => h'.kept v fun hw => hnew v hw hv
  refine ⟨?_,?_,?_,?_,?_,?_,?_,?_,?_,?_⟩
  · refine List.nodup_append.mpr ⟨h.frames,h'.frames,?_⟩
    rintro f hf g hg rfl
    exact hapart f hf hg
  · intro f hf
    exact (List.mem_append.mp hf).elim (h.aligned f) (h'.aligned f)
  · intro f hf p h1 h2
    rcases List.mem_append.mp hf with hf | hf
    · exact h.free f hf p h1 h2
    · have hfree := h'.free f hf p h1 h2
      rwa [h.types, if_neg (hfresh f hf p h1 h2)] at hfree
  · intro p
    rw [h'.types, h.types]
    simp only [List.mem_append, or_and_right, exists_or]
    by_cases h1 : ∃ g ∈ gs, g ≤ p ∧ p < g + 4096
    · rw [if_pos h1, if_pos (Or.inr h1)]
    · by_cases h2 : ∃ f ∈ fs, f ≤ p ∧ p < f + 4096
      · rw [if_neg h1, if_pos h2, if_pos (Or.inl h2)]
      · rw [if_neg h1, if_neg h2, if_neg (not_or.mpr ⟨h2,h1⟩)]
  · rw [List.length_append, h.length, h'.length, List.map_append, List.sum_append]
    omega
  · refine List.nodup_append.mpr ⟨h.pages,h'.pages,?_⟩
    rintro v hv w hw rfl
    exact hnew v hw hv
  · intro v hv
    rcases List.mem_append.mp hv with hv | hv
    · exact h.unmapped v hv
    · rw [← h.kept v (hnew v hv)]
      exact h'.unmapped v hv
  · intro v hv
    rw [List.mem_append, not_or] at hv
    rw [h'.kept v hv.2, h.kept v hv.1]
  · intro v hv
    rcases List.mem_append.mp hv with hv | hv
    · obtain ⟨f,hf,he⟩ := h.mapped v hv
      exact ⟨f,List.mem_append_left _ hf,(hpages v hv).trans he⟩
    · obtain ⟨f,hf,he⟩ := h'.mapped v hv
      exact ⟨f,List.mem_append_right _ hf,he⟩
  · have hcross : ∀ v ∈ vs, ∀ w ∈ ws, st''.pages v ≠ st''.pages w := by
      intro v hv w hw he
      obtain ⟨f,hf,hvf⟩ := h.mapped v hv
      obtain ⟨g,hg,hwg⟩ := h'.mapped w hw
      rw [hpages v hv, hvf, hwg] at he
      obtain rfl := Option.some.inj he
      exact hapart f hf hg
    intro v hv w hw he
    rcases List.mem_append.mp hv with hv | hv
    · rcases List.mem_append.mp hw with hw | hw
      · rw [hpages v hv, hpages w hw] at he
        exact h.distinct v hv w hw he
      · exact absurd he (hcross v hv w hw)
    · rcases List.mem_append.mp hw with hw | hw
      · exact absurd he.symm (hcross w hw v hv)
      · exact h'.distinct v hv w hw he

end Takes

section Steps

/-- A frame is taken. -/
lemma Takes.allocateFrame (h : Valid n st.bootAlloc t fl []) {phys : ℕ} (hrun : st.allocateFrame = .ok (phys,st')) (reserved : ℕ → Bool) :
    ∃ t' fl', Valid n st'.bootAlloc t' fl' [] ∧ Takes tables st t { st' with reserved := reserved } t' [phys] [] 1 ∧
      st'.pages = st.pages := by
  obtain ⟨⟨res,b'⟩,ha,hrest⟩ := bind_ok hrun
  cases res with
  | none => simp [throw, throwThe, MonadExceptOf.throw] at hrest
  | some a =>
    obtain ⟨rfl,rfl⟩ := Prod.mk.inj (Except.ok.inj hrest)
    have hpad : FRAME_LAYOUT.padTo 4096 = .ok ⟨4096,4096⟩ := by decide
    obtain ⟨t',fl',hv',hin,hout⟩ := alloc_taken h hpad ha
    refine ⟨t',fl',hv',⟨by simp,?_,?_,fun p => ?_,rfl,List.nodup_nil,by simp,by simp,by simp,by simp⟩,rfl⟩
    · intro f hf
      rw [List.mem_singleton.mp hf]
      exact alloc_dvd hpad ha
    · intro f hf p h1 h2
      rw [List.mem_singleton.mp hf] at h1 h2
      exact (hin p h1 h2).1
    · simp only [List.mem_singleton, exists_eq_left]
      split_ifs with hp
      · exact (hin p hp.1 hp.2).2
      · exact hout p (by omega)

lemma Takes.addTables (k : ℕ) (h : Valid n st.bootAlloc t fl []) (hrun : Bootstrap.addTables k st = .ok st') :
    ∃ t' fl' fs, Valid n st'.bootAlloc t' fl' [] ∧ Takes tables st t st' t' fs [] k ∧ st'.pages = st.pages := by
  induction k generalizing st t fl with
  | zero =>
    obtain rfl := Except.ok.inj hrun
    exact ⟨t,fl,[],h,refl tables rfl,rfl⟩
  | succ k ih =>
    obtain ⟨⟨phys,st1⟩,ha,hrest⟩ := bind_ok hrun
    obtain ⟨t1,fl1,hv1,htakes1,hp1⟩ := @Takes.allocateFrame _ st st1 t tables fl h phys ha (Function.update st1.reserved phys false)
    obtain ⟨t2,fl2,fs,hv2,htakes2,hp2⟩ := @ih { st1 with reserved := Function.update st1.reserved phys false } t1 fl1 hv1 hrest
    refine ⟨t2,fl2,[phys] ++ fs,hv2,?_,hp2.trans hp1⟩
    have h3 := htakes1.trans htakes2
    rwa [Nat.add_comm 1 k] at h3

/-- Page tables for the pages of a list. -/
lemma Takes.foldTables (g : Bootstrap → ℕ → Except Fault Bootstrap)
    (hg : ∀ (st st' : Bootstrap) (v : ℕ), g st v = .ok st' → Bootstrap.addTables (tables v) st = .ok st') (xs : List ℕ)
    (h : Valid n st.bootAlloc t fl []) (hrun : xs.foldlM g st = .ok st') :
    ∃ t' fl' fs, Valid n st'.bootAlloc t' fl' [] ∧ Takes tables st t st' t' fs [] (xs.map tables).sum ∧ st'.pages = st.pages := by
  induction xs generalizing st t fl with
  | nil =>
    obtain rfl := Except.ok.inj hrun
    exact ⟨t,fl,[],h,refl tables rfl,rfl⟩
  | cons v xs ih =>
    rw [List.foldlM_cons] at hrun
    obtain ⟨st1,h1,hrest⟩ := bind_ok hrun
    obtain ⟨t1,fl1,fs,hv1,htakes1,hp1⟩ := Takes.addTables (tables v) h (hg _ _ v h1)
    obtain ⟨t2,fl2,gs,hv2,htakes2,hp2⟩ := ih hv1 hrest
    exact ⟨t2,fl2,fs ++ gs,hv2,htakes1.trans htakes2,hp2.trans hp1⟩

/-- A page of `FrameInfo`s takes a frame unless it is mapped. -/
lemma Takes.ensureAllocated (h : Valid n st.bootAlloc t fl []) {virt phys : ℕ}
    (hrun : st.ensureAllocated (tables virt) virt = .ok (phys,st')) : ∃ t' fl' fs vs, Valid n st'.bootAlloc t' fl' [] ∧
      Takes tables st t st' t' fs vs 0 ∧ st'.pages virt = some phys := by
  unfold Bootstrap.ensureAllocated at hrun
  cases hvirt : st.pages virt with
  | some f =>
    rw [hvirt] at hrun
    obtain ⟨rfl,rfl⟩ := Prod.mk.inj (Except.ok.inj hrun)
    exact ⟨t,fl,[],[],h,refl tables rfl,hvirt⟩
  | none =>
    rw [hvirt] at hrun
    obtain ⟨⟨f,st1⟩,ha,hrest⟩ := bind_ok hrun
    obtain ⟨st2,hmap,hst2⟩ := bind_ok hrest
    obtain ⟨rfl,rfl⟩ := Prod.mk.inj (Except.ok.inj hst2)
    obtain ⟨st3,htab,hst3⟩ := bind_ok hmap
    obtain rfl := Except.ok.inj hst3
    obtain ⟨t1,fl1,hv1,htakes1,hp1⟩ := @Takes.allocateFrame _ st st1 t tables fl h f ha st1.reserved
    obtain ⟨t2,fl2,fs,hv2,htakes2,hp2⟩ := @Takes.addTables _ _ _ _ tables fl1 (tables virt) hv1 htab
    have h3 := htakes1.trans htakes2
    have hpages : st3.pages = st.pages := hp2.trans hp1
    refine ⟨t2,fl2,[f] ++ fs,[virt],hv2,⟨h3.frames,h3.aligned,h3.free,h3.types,?_,by simp,?_,?_,?_,?_⟩,Function.update_self _ _ _⟩
    · rw [h3.length]
      simp
    · intro v hv
      rwa [List.mem_singleton.mp hv]
    · intro v hv
      rw [List.mem_singleton] at hv
      change Function.update st3.pages virt (some f) v = _
      rw [Function.update_of_ne hv, hpages]
    · intro v hv
      rw [List.mem_singleton.mp hv]
      exact ⟨f,by simp,Function.update_self _ _ _⟩
    · intro v hv w hw _
      rw [List.mem_singleton.mp hv, List.mem_singleton.mp hw]

/-- Writing to the page changes neither the types nor the pages. -/
lemma Takes.newPage (hrun : st.newPage k = .ok st') : Takes tables st t st' t [] [] 0 ∧ st'.bootAlloc = st.bootAlloc := by
  obtain ⟨_,_,hrun⟩ := bind_ok hrun
  obtain rfl := Except.ok.inj hrun
  exact ⟨refl tables rfl,rfl⟩

/-- The pages of a span. -/
lemma Takes.mapPages (fiAddrs : List ℕ) (h : Valid n st.bootAlloc t fl []) (hrun : Bootstrap.mapPages tables fiAddrs st = .ok st') :
    ∃ t' fl' fs vs, Valid n st'.bootAlloc t' fl' [] ∧ Takes tables st t st' t' fs vs 0 := by
  induction fiAddrs generalizing st t fl with
  | nil =>
    obtain rfl := Except.ok.inj hrun
    exact ⟨t,fl,[],[],h,refl tables rfl⟩
  | cons v fiAddrs ih =>
    obtain ⟨⟨phys,st1⟩,he,hrest⟩ := bind_ok hrun
    obtain ⟨st2,hnew,hrest⟩ := bind_ok hrest
    obtain ⟨t1,fl1,fs,vs,hv1,htakes1,_⟩ := Takes.ensureAllocated h he
    obtain ⟨htakes2,hb⟩ := @Takes.newPage st1 st2 t1 tables phys hnew
    rw [← hb] at hv1
    obtain ⟨t3,fl3,gs,ws,hv3,htakes3⟩ := ih hv1 hrest
    exact ⟨t3,fl3,_,_,hv3,(htakes1.trans htakes2).trans htakes3⟩

lemma Takes.frameInfoStep (h : Valid n st.bootAlloc t fl []) {addr : ℕ} {next : Option ℕ}
    (hrun : st.frameInfoStep tables addr = .ok (next,st')) :
    ∃ t' fl' fs vs, Valid n st'.bootAlloc t' fl' [] ∧ Takes tables st t st' t' fs vs 0 := by
  obtain ⟨found,_,hrun⟩ := bind_ok hrun
  cases found with
  | none =>
    obtain ⟨_,rfl⟩ := Prod.mk.inj (Except.ok.inj hrun)
    exact ⟨t,fl,[],[],h,refl tables rfl⟩
  | some node =>
    obtain ⟨m,_,hrun⟩ := bind_ok hrun
    simp only at hrun
    split_ifs at hrun with hneeds
    · obtain ⟨st1,hmap,hrun⟩ := bind_ok hrun
      obtain ⟨_,rfl⟩ := Prod.mk.inj (Except.ok.inj hrun)
      exact Takes.mapPages _ h hmap
    · obtain ⟨_,rfl⟩ := Prod.mk.inj (Except.ok.inj hrun)
      exact ⟨t,fl,[],[],h,refl tables rfl⟩

/-- The loop over the spans. -/
lemma Takes.frameInfoLoop (fuel : ℕ) (h : Valid n st.bootAlloc t fl []) {addr : ℕ}
    (hrun : Bootstrap.frameInfoLoop tables fuel st addr = .ok st') :
    ∃ t' fl' fs vs, Valid n st'.bootAlloc t' fl' [] ∧ Takes tables st t st' t' fs vs 0 := by
  induction fuel generalizing st t fl addr with
  | zero => cases hrun
  | succ fuel ih =>
    obtain ⟨⟨next,st1⟩,hstep,hrest⟩ := bind_ok hrun
    obtain ⟨t1,fl1,fs,vs,hv1,htakes1⟩ := Takes.frameInfoStep h hstep
    cases next with
    | none =>
      obtain rfl := Except.ok.inj hrest
      exact ⟨t1,fl1,fs,vs,hv1,htakes1⟩
    | some addr1 =>
      obtain ⟨t2,fl2,gs,ws,hv2,htakes2⟩ := ih hv1 hrest
      exact ⟨t2,fl2,_,_,hv2,htakes1.trans htakes2⟩

/-- `setup_page_table` -/
lemma Takes.setupPageTable (h : Valid n st.bootAlloc t fl [])
    (hrun : st.setupPageTable tables previousTable kernel fuel = .ok st') : ∃ t' fl' fs vs, Valid n st'.bootAlloc t' fl' [] ∧
      Takes tables st t st' t' fs vs ((directPages ++ kernelPages kernel).map tables).sum := by
  obtain ⟨st1,h1,hrun⟩ := bind_ok hrun
  obtain ⟨st2,h2,hrun⟩ := bind_ok hrun
  obtain ⟨st3,h3,hrun⟩ := bind_ok hrun
  have hcopy : ∀ (st st' : Bootstrap) (v : ℕ), st.copyPage tables previousTable v = .ok st' →
      Bootstrap.addTables (tables v) st = .ok st' := by
    intro st st' v hrun
    unfold Bootstrap.copyPage at hrun
    cases hv : previousTable v with
    | none =>
      rw [hv] at hrun
      cases hrun
    | some _ =>
      rw [hv] at hrun
      exact hrun
  obtain ⟨_,_,h2⟩ := bind_ok h2
  obtain ⟨_,_,h3⟩ := bind_ok h3
  obtain ⟨t1,fl1,fs1,hv1,htakes1,_⟩ := Takes.foldTables _ (fun _ _ _ h => h) _ h h1
  obtain ⟨t2,fl2,fs2,hv2,htakes2,_⟩ := Takes.foldTables _ hcopy _ hv1 h2
  obtain ⟨t3,fl3,fs3,hv3,htakes3,_⟩ := Takes.foldTables _ hcopy _ hv2 h3
  obtain ⟨t4,fl4,fs4,vs,hv4,htakes4⟩ := Takes.frameInfoLoop fuel hv3 hrun
  have h5 := ((htakes1.trans htakes2).trans htakes3).trans htakes4
  have hsum : ((directPages ++ kernelPages kernel).map tables).sum = (directPages.map tables).sum +
      ((stepBy kernel.textStart kernel.dataStart 4096).map tables).sum +
      ((stepBy kernel.dataStart kernel.bssEnd 4096).map tables).sum + 0 := by
    simp only [kernelPages, List.map_append, List.sum_append, Nat.add_assoc, Nat.add_zero]
  rw [hsum]
  exact ⟨_,_,_,_,hv4,h5⟩

end Steps

/-- The frames `taken` are those of page tables and of the mapped pages of `FrameInfo`s, which have a frame each. -/
structure BootFrames (tables : ℕ → ℕ) (kernel : KernelPages) (res : Initialized) (taken : List ℕ) : Prop where
  frames : taken.Nodup
  aligned : ∀ f ∈ taken, 4096 ∣ f
  pageTable : res.pageTable ∈ taken
  mapped : ∀ v f, res.bootstrap.pages v = some f → f ∈ taken ∧ f ≠ res.pageTable ∧
    ∀ w, res.bootstrap.pages w = some f → w = v
  length : ∃ vs : List ℕ, vs.Nodup ∧ (∀ v, v ∈ vs ↔ (res.bootstrap.pages v).isSome) ∧
    taken.length = 1 + ((directPages ++ kernelPages kernel).map tables).sum + (vs.map fun v => 1 + tables v).sum

/-- The frames that are there as a whole after some were taken. -/
lemma wholeFrame_taken {m m' : ℕ → Option SpanType} {taken : List ℕ} {P : Option SpanType → Prop} (hP : ¬ P (some .inUse))
    (hal : ∀ f ∈ taken, 4096 ∣ f)
    (hm : ∀ p, m' p = if ∃ f ∈ taken, f ≤ p ∧ p < f + 4096 then some .inUse else m p) (f : ℕ) :
    WholeFrame (fun p => P (m' p)) f ↔ WholeFrame (fun p => P (m p)) f ∧ 4096*f ∉ taken := by
  constructor
  · intro hw
    have hnot : ∀ p, 4096*f ≤ p → p < 4096*f + 4096 → ¬ ∃ g ∈ taken, g ≤ p ∧ p < g + 4096 := by
      intro p h1 h2 hg
      have h3 := hw p h1 h2
      simp only [hm, if_pos hg] at h3
      exact hP h3
    refine ⟨fun p h1 h2 => ?_,fun hf => hnot (4096*f) le_rfl (by omega) ⟨4096*f,hf,le_rfl,by omega⟩⟩
    have h3 := hw p h1 h2
    simpa only [hm, if_neg (hnot p h1 h2)] using h3
  · rintro ⟨hw,hf⟩ p h1 h2
    have hnot : ¬ ∃ g ∈ taken, g ≤ p ∧ p < g + 4096 := by
      rintro ⟨g,hg,h3,h4⟩
      obtain ⟨i,rfl⟩ := hal g hg
      obtain rfl : i = f := by omega
      exact hf hg
    simpa only [hm, if_neg hnot] using hw p h1 h2

lemma Frames.hasFrame_iff {P : ℕ → Prop} {rs : List PhysRange} (h : Frames P rs) (f : ℕ) : HasFrame rs f ↔ WholeFrame P f := by
  refine ⟨?_,h.frames f⟩
  rintro ⟨r,hr,h1,h2⟩ p hp1 hp2
  exact h.bytes r hr p ⟨h1.trans hp1,hp2.trans_le h2⟩

/-- What the page table and `setup_page_table` took. -/
lemma Takes.bootFrames {pageTable : ℕ} {rs : List PhysRange} (h : Takes tables (.new b) t st t' [pageTable] [] 1)
    (h' : Takes tables st t' st' t'' fs vs ((directPages ++ kernelPages kernel).map tables).sum) :
    BootFrames tables kernel ⟨pageTable,st',rs,b'⟩ ([pageTable] ++ fs) := by
  have htakes := h.trans h'
  have hmem : ∀ v, v ∈ vs ↔ (st'.pages v).isSome := by
    intro v
    constructor
    · intro hv
      obtain ⟨f,_,hf⟩ := h'.mapped v hv
      rw [hf]
      rfl
    · intro hsome
      by_contra hv
      rw [h'.kept v hv, h.kept v List.not_mem_nil] at hsome
      cases hsome
  refine ⟨htakes.frames,htakes.aligned,by simp,fun v f hf => ?_,vs,h'.pages,hmem,?_⟩
  · have hv : v ∈ vs := (hmem v).mpr (by rw [hf]; rfl)
    obtain ⟨g,hg,he⟩ := h'.mapped v hv
    obtain rfl := Option.some.inj (he.symm.trans hf)
    refine ⟨List.mem_append_right _ hg,?_,fun w hw => ?_⟩
    · rintro rfl
      have hnot := htakes.frames
      rw [List.singleton_append, List.nodup_cons] at hnot
      exact hnot.1 hg
    · exact h'.distinct w ((hmem w).mpr (by rw [hw]; rfl)) v hv (hw.trans hf.symm)
  · rw [htakes.length]
    rfl

/-- `init` and the drop of the `Reclaimer` give to the buddy allocator, in disjoint ranges of pages, first the frames all of
whose bytes are free, and then also those that are usable as a whole: all of them except for the free ones that page tables and
`FrameInfo`s took. -/
theorem init_frames (hal : align.Lawful limit)
    (hrun : init tables previousTable kernel mem sym align fuel infoAddr = .ok res) (hss : res.reclaimer.reclaim align = .ok ss) :
    ∃ es taken, Mmaps mem infoAddr es ∧ BootFrames tables kernel res taken ∧
      (∀ f ∈ taken, ∀ p, f ≤ p → p < f + 4096 → bootType mem sym infoAddr es p = some .free) ∧
      Paged (Usable (bootType mem sym infoAddr es)) (res.ranges ++ ss) ∧
      (∀ f, HasFrame res.ranges f ↔ WholeFrame (fun p => bootType mem sym infoAddr es p = some .free) f ∧ 4096*f ∉ taken) ∧
      ∀ f, HasFrame (res.ranges ++ ss) f ↔ WholeFrame (Usable (bootType mem sym infoAddr es)) f ∧ 4096*f ∉ taken := by
  obtain ⟨b,hfill,hrun⟩ := bind_ok hrun
  obtain ⟨⟨pageTable,st1⟩,htable,hrun⟩ := bind_ok hrun
  obtain ⟨_,_,hrun⟩ := bind_ok hrun
  obtain ⟨st2,hsetup,hrun⟩ := bind_ok hrun
  obtain ⟨⟨rs,reclaimer⟩,hclaim,hrun⟩ := bind_ok hrun
  obtain rfl := Except.ok.inj hrun
  obtain ⟨es,t,fl,hes,hv,hm⟩ := (fillBootAlloc_types mem sym infoAddr).1 b hfill
  obtain ⟨t1,fl1,hv1,h1,hp1⟩ := @Takes.allocateFrame _ (Bootstrap.new b) st1 t tables fl hv pageTable htable st1.reserved
  obtain ⟨t2,fl2,fs,vs,hv2,h2⟩ := Takes.setupPageTable hv1 hsetup
  have htakes := h1.trans h2
  have hfree := htakes.free
  have hd := htakes.types
  simp only [hm] at hfree hd
  -- what is claimed and what is left
  obtain ⟨t3,fl3,hv3,hrs,hm3⟩ := (hv2.claimFreeRanges hal).result hclaim
  have hss := (hv3.reclaim hal True).result hss
  rw [hm3] at hss
  have hall := hrs.append hss (fun p hp => ⟨.free,hp,rfl⟩) usable_claimed
  have husable : ¬ ∃ ty, some SpanType.inUse = some ty ∧ ty.isUsable := by simp [SpanType.isUsable]
  refine ⟨es,_,hes,h1.bootFrames h2,hfree,⟨hall.aligned,hall.disjoint,fun r hr p hp => ?_⟩,fun f => ?_,fun f => ?_⟩
  · obtain ⟨ty,hty,hus⟩ := hall.bytes r hr p hp
    rw [hd] at hty
    split_ifs at hty with ht
    · obtain rfl := Option.some.inj hty
      cases hus
    · exact ⟨ty,hty,hus⟩
  · rw [hrs.hasFrame_iff]
    exact wholeFrame_taken (P := (· = some .free)) (by simp) htakes.aligned hd f
  · rw [hall.hasFrame_iff]
    exact wholeFrame_taken (P := fun s => ∃ ty, s = some ty ∧ ty.isUsable) husable htakes.aligned hd f

section Small

/-- A memory map with one entry, and a kernel of two pages the second of which is reclaimable. -/
def smallMemory : Memory := fun a =>
  (([(4096,64),(4096+44,24),(4096+49,0x20),(8192,20),(8192+6,0x10),(8192+14,4),(8192+20,1)] : List (ℕ × UInt8)).lookup a).getD 0

def smallKernel : KernelPages := ⟨0xFFFFFFFF80004000,0xFFFFFFFF80005000,0xFFFFFFFF80006000⟩

def smallSymbols : KernelSymbols := ⟨0x4000,0x6000,0x5000,0x6000⟩

lemma smallMemory_mmaps : Mmaps smallMemory 4096 [⟨0x100000,0x40000,1⟩] :=
  @MultibootMmapIter.Yields.cons _ _ ⟨8192 + 24,8192 + 24⟩ _ _ (by decide +kernel) (.nil (by decide +kernel))

/-- The kernel is in use, its second page reclaimable, and the memory of the map free. -/
theorem fillBootAlloc_types_small : ∃ b t fl, fillBootAlloc smallMemory smallSymbols 4096 = .ok b ∧ Valid SPANS b t fl [] ∧
    [0x4000,0x5000,0x100000,0x140000].map (denote view t) = [some .inUse,some .reclaimable,some .free,none] := by
  obtain ⟨h1,h2⟩ := fillBootAlloc_types smallMemory smallSymbols 4096
  have hdata : BootData smallMemory smallSymbols 4096 :=
    ⟨by decide,by decide,by decide,by decide,fun h => absurd rfl h,fun h => absurd rfl h⟩
  obtain ⟨b,hb⟩ := h2 _ hdata smallMemory_mmaps (by decide +kernel) (by decide +kernel)
  obtain ⟨es,t,fl,hes,hv,hd⟩ := h1 b hb
  obtain rfl := smallMemory_mmaps.unique hes
  refine ⟨b,t,fl,hb,hv,?_⟩
  simp only [List.map_cons, List.map_nil, hd]
  decide +kernel

/-- The ranges that the buddy allocator gets. -/
lemma exists_small : ∃ res ss, init (fun _ => 0) some smallKernel smallMemory smallSymbols physAlign 20 4096 = .ok res ∧
    res.reclaimer.reclaim physAlign = .ok ss ∧ res.ranges ++ ss = [⟨0x103000,0x140000⟩,⟨0x5000,0x6000⟩] := by
  have hres : (init (fun _ => 0) some smallKernel smallMemory smallSymbols physAlign 20 4096 >>= fun res =>
      res.reclaimer.reclaim physAlign >>= fun ss => .ok (res.ranges ++ ss)) =
        .ok [⟨0x103000,0x140000⟩,⟨0x5000,0x6000⟩] := by decide +kernel
  obtain ⟨res,h1,hres⟩ := bind_ok hres
  obtain ⟨ss,h2,hres⟩ := bind_ok hres
  exact ⟨res,ss,h1,h2,Except.ok.inj hres⟩

theorem init_frames_small : ∃ (es : List MultibootMmapEntry) (taken : List ℕ), Mmaps smallMemory 4096 es ∧ ∀ f,
    HasFrame [⟨0x103000,0x140000⟩,⟨0x5000,0x6000⟩] f ↔
      WholeFrame (Usable (bootType smallMemory smallSymbols 4096 es)) f ∧ 4096*f ∉ taken := by
  obtain ⟨res,ss,h1,h2,h3⟩ := exists_small
  obtain ⟨es,taken,hes,_,_,_,_,h⟩ := init_frames physAlign_lawful h1 h2
  rw [h3] at h
  exact ⟨es,taken,hes,h⟩

end Small
end Lilith.Boot
