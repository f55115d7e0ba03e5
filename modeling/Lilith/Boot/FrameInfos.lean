import Lilith.Boot.Alloc
import Lilith.Buddy.Mapped
import Lilith.VirtualAlloc.AddressSpace

/-! The loop of `setup_page_table` that maps pages for the `FrameInfo`s (`bootstrap.rs`). It walks the
tree of spans from one address to the next, and its own allocations change the tree meanwhile. -/
namespace Lilith.Boot
open Buddy (fiPages fiStart fiEnd frameInfoAddr FRAME_SIZE FRAME_INFO_ADDR FRAME_INFO_SIZE)

/-- The state of the loop. The page table is modelled as far as the pages of `FrameInfo`s go. -/
structure Bootstrap where
  bootAlloc : BootAlloc
  /-- the frames that the pages of `FrameInfo`s are mapped to -/
  pages : ℕ → Option ℕ
  /-- the frames that hold a page of reserved `FrameInfo`s -/
  reserved : ℕ → Bool

def bootOom : Fault := .panic "out of memory on boot -- shouldn't happen"

def FRAME_LAYOUT : Layout := ⟨4096,4096⟩

namespace Bootstrap

/-- `allocate_frame`, and the same in `ensure_allocated`. -/
def allocateFrame (self : Bootstrap) : Except Fault (ℕ × Bootstrap) := do
  let (phys,bootAlloc) ← self.bootAlloc.alloc FRAME_LAYOUT
  match phys with
  | none => throw bootOom
  | some phys => return (phys,{ self with bootAlloc := bootAlloc })

/-- The page tables that `map_to` adds. Each is a new frame, which is cleared. -/
def addTables : ℕ → Bootstrap → Except Fault Bootstrap
  | 0, self => .ok self
  | k+1, self => do
    let (phys,self) ← self.allocateFrame
    addTables k { self with reserved := Function.update self.reserved phys false }

/-- `map` of a page for which `map_to` adds `tables` page tables. -/
def map (self : Bootstrap) (tables virt phys : ℕ) : Except Fault Bootstrap := do
  let self ← self.addTables tables
  return { self with pages := Function.update self.pages virt (some phys) }

/-- `ensure_allocated` for the address of a page. -/
def ensureAllocated (self : Bootstrap) (tables virt : ℕ) : Except Fault (ℕ × Bootstrap) :=
  match self.pages virt with
  | some phys => .ok (phys,self)
  | none => do
    let (phys,self) ← self.allocateFrame
    return (phys,← self.map tables virt phys)

/-- `FrameInfo::new_page` in the direct map. -/
def newPage (self : Bootstrap) (phys : ℕ) : Except Fault Bootstrap := do
  assert (phys < VirtualAlloc.PHYSICAL_MEMORY_MAX_SIZE) "assertion failed: phys.as_u64() < PHYSICAL_MEMORY_MAX_SIZE as u64"
  return { self with reserved := Function.update self.reserved phys true }

variable (tables : ℕ → ℕ)

/-- The loop over the pages of a span. The mapping of a page adds `tables` of it page tables. -/
def mapPages : List ℕ → Bootstrap → Except Fault Bootstrap
  | [], self => .ok self
  | fiAddr::fiAddrs, self => do
    let (phys,self) ← self.ensureAllocated (tables fiAddr) fiAddr
    mapPages fiAddrs (← self.newPage phys)

/-- A round of the loop over the spans: the address of the next round, or nothing at the end. -/
def frameInfoStep (self : Bootstrap) (addr : ℕ) : Except Fault (Option ℕ × Bootstrap) := do
  match ← self.bootAlloc.tree.lowerBoundRaw fun s _ => decide (s.start ≥ addr) with
  | none => return (none,self)
  | some node => do
    let span := (← self.bootAlloc.tree.heap.deref (some node)).value
    if span.spanType.needsFrameinfo then return (some span.end_,← mapPages tables (fiPages span) self)
    else return (some span.end_,self)

/-- The loop over the spans. -/
def frameInfoLoop : ℕ → Bootstrap → ℕ → Except Fault Bootstrap
  | 0, _, _ => .error .diverge
  | fuel+1, self, addr => do
    match ← self.frameInfoStep tables addr with
    | (none,self) => return self
    | (some addr,self) => frameInfoLoop fuel self addr

end Bootstrap

open Theory PtrGraph CTree Rbtree

variable {n : ℕ} {st st' st'' : Bootstrap} {t t' t'' : CTree (ℕ × Span)} {tables : ℕ → ℕ}

/-- The states in which the loop looks for the next span. -/
inductive Looks (tables : ℕ → ℕ) (st : Bootstrap) (addr : ℕ) : Bootstrap → ℕ → Prop
  | start : Looks tables st addr st addr
  | next {st1 st2 : Bootstrap} {addr1 addr2 : ℕ} (h : Looks tables st addr st1 addr1)
      (hrun : st1.frameInfoStep tables addr1 = .ok (some addr2,st2)) : Looks tables st addr st2 addr2

/-- A span that needs `FrameInfo`s starts before an address and ends after it. -/
def Straddles (st : Bootstrap) (addr : ℕ) : Prop := ∃ a m, st.bootAlloc.tree.heap.get? a = some m ∧
  m.value.spanType.needsFrameinfo = true ∧ m.value.start < addr ∧ addr < m.value.end_

instance (st : Bootstrap) (addr : ℕ) : Decidable (Straddles st addr) :=
  decidable_of_iff (∃ c ∈ st.bootAlloc.tree.heap.cells, (c.any fun m => m.value.spanType.needsFrameinfo &&
      decide (m.value.start < addr ∧ addr < m.value.end_)) = true) (by
    simp only [Straddles, Heap.get?, Option.any_eq_true, Bool.and_eq_true, decide_eq_true_eq]
    constructor
    · rintro ⟨c,hc,m,rfl,hm⟩
      obtain ⟨a,ha⟩ := List.mem_iff_getElem?.mp hc
      exact ⟨a,m,by rw [ha]; rfl,hm⟩
    · rintro ⟨a,m,ha,hm⟩
      cases hc : st.bootAlloc.tree.heap.cells[a]? with
      | none => simp [hc] at ha
      | some c =>
        rw [hc] at ha
        exact ⟨c,List.mem_of_getElem? hc,m,ha,hm⟩)

/-- The `FrameInfo` of the frame of an address is in a page that is mapped and initialised. -/
def Ready (st : Bootstrap) (p : ℕ) : Prop := ∃ phys,
  st.pages (roundDown 4096 (frameInfoAddr (p / FRAME_SIZE))) = some phys ∧ st.reserved phys = true

/-- A state of the loop: the frames of the mapped pages are in use. -/
structure Walking (n : ℕ) (st : Bootstrap) (t : CTree (ℕ × Span)) : Prop where
  valid : ∃ fl, Valid n st.bootAlloc t fl []
  used : ∀ v phys, st.pages v = some phys → ∀ p, phys ≤ p → p < phys+4096 → denote view t p = some .inUse

/-- What the loop keeps: only free memory changes its type, mapped pages stay mapped, and initialised
ones stay initialised. -/
structure Keeps (st : Bootstrap) (t : CTree (ℕ × Span)) (st' : Bootstrap) (t' : CTree (ℕ × Span)) : Prop where
  types : ∀ p, denote view t' p = denote view t p ∨
    denote view t p = some .free ∧ denote view t' p = some .inUse
  pages : ∀ v phys, st.pages v = some phys → st'.pages v = some phys
  reserved : ∀ v phys, st.pages v = some phys → st.reserved phys = true → st'.reserved phys = true

namespace Keeps

lemma refl (st : Bootstrap) (t : CTree (ℕ × Span)) : Keeps st t st t :=
  ⟨fun _ => Or.inl rfl,fun _ _ h => h,fun _ _ _ h => h⟩

lemma trans (h1 : Keeps st t st' t') (h2 : Keeps st' t' st'' t'') : Keeps st t st'' t'' := by
  refine ⟨fun p => ?_,fun v phys h => h2.pages v phys (h1.pages v phys h),fun v phys h hr => ?_⟩
  · rcases h1.types p with ha | ⟨ha,hb⟩
    · rw [← ha]
      exact h2.types p
    · rcases h2.types p with hc | ⟨hc,_⟩
      · exact Or.inr ⟨ha,hc.trans hb⟩
      · rw [hb] at hc
        simp at hc
  · exact h2.reserved v phys (h1.pages v phys h) (h1.reserved v phys h hr)

lemma ready (h : Keeps st t st' t') {p : ℕ} (hp : Ready st p) : Ready st' p := by
  obtain ⟨phys,h1,h2⟩ := hp
  exact ⟨phys,h.pages _ _ h1,h.reserved _ _ h1 h2⟩

/-- Memory in use stays in use. -/
lemma inUse (h : Keeps st t st' t') {p : ℕ} (hp : denote view t p = some .inUse) :
    denote view t' p = some .inUse := by
  rcases h.types p with ha | ⟨ha,_⟩
  · rw [ha, hp]
  · rw [hp] at ha
    simp at ha

end Keeps

/-- The address is in a span that needs `FrameInfo`s. -/
def Needs (t : CTree (ℕ × Span)) (p : ℕ) : Prop := ∃ ty, denote view t p = some ty ∧ ty.needsFrameinfo = true

/-- Which addresses need a `FrameInfo` does not change. -/
lemma Keeps.needs_iff (h : Keeps st t st' t') (p : ℕ) : Needs t' p ↔ Needs t p := by
  unfold Needs
  rcases h.types p with ha | ⟨ha,hb⟩
  · rw [ha]
  · rw [ha, hb]
    simp [SpanType.needsFrameinfo]

/-- A new frame is not the frame of a mapped page, so writing to it changes no such page. -/
lemma Walking.allocateFrame (h : Walking n st t) {phys : ℕ} (hrun : st.allocateFrame = .ok (phys,st'))
    (reserved : ℕ → Bool) (hr : ∀ f, f ≠ phys → reserved f = st.reserved f) :
    ∃ t', Walking n { st' with reserved := reserved } t' ∧ Keeps st t { st' with reserved := reserved } t' ∧
      st'.pages = st.pages ∧
      ∀ p, phys ≤ p → p < phys+4096 → denote view t' p = some .inUse := by
  obtain ⟨fl,hv⟩ := h.valid
  obtain ⟨⟨res,b'⟩,ha,hrest⟩ := bind_ok hrun
  cases res with
  | none => simp [throw, throwThe, MonadExceptOf.throw] at hrest
  | some a =>
    obtain ⟨rfl,rfl⟩ := Prod.mk.inj (Except.ok.inj hrest)
    obtain ⟨t',fl',hv',hin,hout⟩ := alloc_taken hv (by decide : FRAME_LAYOUT.padTo 4096 = .ok ⟨4096,4096⟩) ha
    have hkeep : Keeps st t { st with bootAlloc := b', reserved := reserved } t' := by
      refine ⟨fun p => ?_,fun _ _ h => h,fun v f hf hres => ?_⟩
      · by_cases hp : a ≤ p ∧ p < a+4096
        · exact Or.inr (hin p hp.1 hp.2)
        · exact Or.inl (hout p (by omega))
      · have hne : f ≠ a := by
          rintro rfl
          have h1 := h.used v f hf f le_rfl (by omega)
          have h2 := (hin f le_rfl (by omega)).1
          rw [h1] at h2
          simp at h2
        exact (hr f hne).trans hres
    refine ⟨t',⟨⟨fl',hv'⟩,fun v f hf p h1 h2 => ?_⟩,hkeep,rfl,fun p h1 h2 => (hin p h1 h2).2⟩
    exact hkeep.inUse (h.used v f hf p h1 h2)

lemma allocateFrame_reserved {phys : ℕ} (hrun : st.allocateFrame = .ok (phys,st')) : st'.reserved = st.reserved := by
  obtain ⟨⟨res,b'⟩,_,hrest⟩ := bind_ok hrun
  cases res with
  | none => simp [throw, throwThe, MonadExceptOf.throw] at hrest
  | some a =>
    obtain ⟨_,rfl⟩ := Prod.mk.inj (Except.ok.inj hrest)
    rfl

/-- Taking frames for page tables. -/
lemma Walking.addTables (k : ℕ) (h : Walking n st t) (hrun : Bootstrap.addTables k st = .ok st') :
    ∃ t', Walking n st' t' ∧ Keeps st t st' t' ∧ st'.pages = st.pages := by
  induction k generalizing st t with
  | zero =>
    obtain rfl := Except.ok.inj hrun
    exact ⟨t,h,Keeps.refl st t,rfl⟩
  | succ k ih =>
    obtain ⟨⟨phys,st1⟩,ha,hrest⟩ := bind_ok hrun
    obtain ⟨t1,hw1,hk1,hp1,_⟩ := h.allocateFrame ha (Function.update st1.reserved phys false) fun f hf => by
      rw [Function.update_of_ne hf, allocateFrame_reserved ha]
    obtain ⟨t',hw',hk',hp'⟩ := ih hw1 hrest
    exact ⟨t',hw',hk1.trans hk',hp'.trans hp1⟩

/-- After `ensure_allocated` the page is mapped. -/
lemma Walking.ensureAllocated (h : Walking n st t) {k virt phys : ℕ}
    (hrun : st.ensureAllocated k virt = .ok (phys,st')) :
    ∃ t', Walking n st' t' ∧ Keeps st t st' t' ∧ st'.pages virt = some phys := by
  unfold Bootstrap.ensureAllocated at hrun
  cases hvirt : st.pages virt with
  | some f =>
    rw [hvirt] at hrun
    obtain ⟨rfl,rfl⟩ := Prod.mk.inj (Except.ok.inj hrun)
    exact ⟨t,h,Keeps.refl st t,hvirt⟩
  | none =>
    rw [hvirt] at hrun
    obtain ⟨⟨f,st1⟩,ha,hrest⟩ := bind_ok hrun
    obtain ⟨st2,hmap,hst2⟩ := bind_ok hrest
    obtain ⟨rfl,rfl⟩ := Prod.mk.inj (Except.ok.inj hst2)
    obtain ⟨st3,htab,hst3⟩ := bind_ok hmap
    obtain rfl := Except.ok.inj hst3
    obtain ⟨t1,hw1,hk1,hp1,huse⟩ := h.allocateFrame ha st1.reserved fun g _ => by rw [allocateFrame_reserved ha]
    obtain ⟨t',hw',hk',hp'⟩ := hw1.addTables k htab
    have hpages : st3.pages = st.pages := hp'.trans hp1
    have hkeep := hk1.trans hk'
    refine ⟨t',⟨hw'.valid,fun v g hg p h1 h2 => ?_⟩,⟨hkeep.types,fun v g hg => ?_,hkeep.reserved⟩,?_⟩
    · change Function.update st3.pages virt (some f) v = some g at hg
      by_cases hv : v = virt
      · rw [hv, Function.update_self] at hg
        obtain rfl := Option.some.inj hg
        exact hk'.inUse (huse p h1 h2)
      · rw [Function.update_of_ne hv] at hg
        exact hw'.used v g hg p h1 h2
    · have hne : v ≠ virt := by
        rintro rfl
        rw [hvirt] at hg
        simp at hg
      simp only [Function.update_of_ne hne, hpages]
      exact hg
    · simp

/-- After the loop over the pages of a span all of them are mapped and initialised. -/
lemma Walking.mapPages (fiAddrs : List ℕ) (h : Walking n st t) (hrun : Bootstrap.mapPages tables fiAddrs st = .ok st') :
    ∃ t', Walking n st' t' ∧ Keeps st t st' t' ∧
      ∀ v ∈ fiAddrs, ∃ phys, st'.pages v = some phys ∧ st'.reserved phys = true := by
  induction fiAddrs generalizing st t with
  | nil =>
    obtain rfl := Except.ok.inj hrun
    exact ⟨t,h,Keeps.refl st t,by simp⟩
  | cons v vs ih =>
    obtain ⟨⟨phys,st1⟩,he,hrest⟩ := bind_ok hrun
    obtain ⟨st2,hnew,hrest⟩ := bind_ok hrest
    obtain ⟨t1,hw1,hk1,hp1⟩ := h.ensureAllocated he
    obtain ⟨_,_,hst2⟩ := bind_ok hnew
    obtain rfl := Except.ok.inj hst2
    have hk2 : Keeps st1 t1 { st1 with reserved := Function.update st1.reserved phys true } t1 := by
      refine ⟨fun _ => Or.inl rfl,fun _ _ h => h,fun _ f _ hr => ?_⟩
      simp only [Function.update_apply]
      split_ifs
      · rfl
      · exact hr
    have hw2 : Walking n { st1 with reserved := Function.update st1.reserved phys true } t1 := ⟨hw1.valid,hw1.used⟩
    obtain ⟨t',hw',hk',hall⟩ := ih hw2 hrest
    refine ⟨t',hw',(hk1.trans hk2).trans hk',fun u hu => ?_⟩
    rcases List.mem_cons.mp hu with rfl | hu
    · exact ⟨phys,hk'.pages u phys hp1,hk'.reserved u phys hp1 (Function.update_self _ _ _)⟩
    · exact hall u hu

/-- The page of the `FrameInfo` of an address of a span is one of the pages of the span. -/
lemma mem_fiPages_of_mem {span : Span} {p : ℕ} (h1 : span.start ≤ p) (h2 : p < span.end_) :
    roundDown 4096 (frameInfoAddr (p / FRAME_SIZE)) ∈ fiPages span := by
  have hstart : fiStart span = FRAME_INFO_ADDR + 4096 * (span.start / 4096 / 64) := by
    unfold fiStart roundDown frameInfoAddr FRAME_INFO_ADDR FRAME_INFO_SIZE FRAME_SIZE
    omega
  have hend : fiEnd span = FRAME_INFO_ADDR + 4096 * (((span.end_ + 4095) / 4096 + 63) / 64) := by
    unfold fiEnd roundUp frameInfoAddr FRAME_INFO_ADDR FRAME_INFO_SIZE FRAME_SIZE
    omega
  have hpage : roundDown 4096 (frameInfoAddr (p / FRAME_SIZE)) = FRAME_INFO_ADDR + 4096 * (p / 4096 / 64) := by
    unfold roundDown frameInfoAddr FRAME_INFO_ADDR FRAME_INFO_SIZE FRAME_SIZE
    omega
  unfold fiPages
  rw [List.mem_map]
  refine ⟨p / 4096 / 64 - span.start / 4096 / 64,?_,?_⟩
  · rw [List.mem_range, hstart, hend]
    omega
  · rw [hpage, hstart]
    omega

/-- A round of the loop, where no span that needs `FrameInfo`s straddles the address: afterwards all
addresses before the next round's are ready, and at the end all are. -/
lemma Walking.frameInfoStep (h : Walking n st t) {addr : ℕ} (hs : ¬ Straddles st addr)
    (hready : ∀ p, p < addr → Needs t p → Ready st p) {next : Option ℕ}
    (hrun : st.frameInfoStep tables addr = .ok (next,st')) :
    ∃ t', Walking n st' t' ∧ Keeps st t st' t' ∧
      ∀ p, (∀ addr', next = some addr' → p < addr') → Needs t' p → Ready st' p := by
  obtain ⟨fl,hv⟩ := h.valid
  have hno : ∀ y ∈ t.toList, y.2.spanType.needsFrameinfo = true → y.2.start < addr → y.2.end_ ≤ addr := by
    intro y hy hneeds hlt
    obtain ⟨m,_,hm,hmv,_⟩ := hv.tree.valid.node_of_mem hy
    by_contra hend
    exact hs ⟨y.1,m,hm,by rw [hmv]; exact hneeds,by rw [hmv]; exact hlt,by rw [hmv]; omega⟩
  -- an address that needs a `FrameInfo` is in a span that ends by `addr` or starts from it on
  have hspan : ∀ p, Needs t p → ∃ y ∈ t.toList, y.2.spanType.needsFrameinfo = true ∧ y.2.start ≤ p ∧ p < y.2.end_ ∧
      (p < addr ∨ addr ≤ y.2.start) := by
    rintro p ⟨ty,hty,hneeds⟩
    obtain ⟨z,hz,⟨h1,h2⟩,rfl⟩ := hv.tree.wf.lookup_eq_some.mp hty
    obtain ⟨y,hy,rfl⟩ := List.mem_map.mp hz
    have h1 : y.2.start ≤ p := h1
    have h2 : p < y.2.end_ := h2
    refine ⟨y,hy,hneeds,h1,h2,?_⟩
    by_cases hlt : y.2.start < addr
    · exact Or.inl (h2.trans_le (hno y hy hneeds hlt))
    · exact Or.inr (by omega)
  unfold Bootstrap.frameInfoStep at hrun
  rcases hv.tree.lowerBound_lo addr (fun x w => (rfl : decide (x.start ≥ addr) = decide (addr ≤ view.lo x))) with
    ⟨hlb,hlast⟩ | ⟨x,hx,hlb,hlo,hfirst⟩
  · rw [hlb] at hrun
    obtain ⟨rfl,rfl⟩ := Prod.mk.inj (Except.ok.inj hrun)
    refine ⟨t,h,Keeps.refl st t,fun p _ hp => ?_⟩
    obtain ⟨y,hy,_,_,_,hp' | hp'⟩ := hspan p hp
    · exact hready p hp' hp
    · have hlt : y.2.start < addr := hlast y.2 (mem_values hy)
      omega
  · obtain ⟨m,_,hm,hmv,_⟩ := hv.tree.valid.node_of_mem hx
    simp only [hlb, deref_eq hm, hmv, bind, Except.bind] at hrun
    -- what comes before the end of the span found, apart from the span itself
    have hbefore : ∀ p, p < x.2.end_ → Needs t p → Ready st p ∨
        x.2.spanType.needsFrameinfo = true ∧ x.2.start ≤ p ∧ p < x.2.end_ := by
      intro p hp hneeds
      obtain ⟨y,hy,hyn,h1,h2,hp' | hp'⟩ := hspan p hneeds
      · exact Or.inl (hready p hp' hneeds)
      · rcases hfirst y.2 (mem_values hy) hp' with he | hle
        · rw [he] at hyn h1 h2
          exact Or.inr ⟨hyn,h1,h2⟩
        · have hle : x.2.end_ ≤ y.2.start := hle
          omega
    split_ifs at hrun with hneeds
    · cases hmap : Bootstrap.mapPages tables (fiPages x.2) st with
      | error e => simp [hmap] at hrun
      | ok st1 =>
        rw [hmap] at hrun
        obtain ⟨rfl,rfl⟩ := Prod.mk.inj (Except.ok.inj hrun)
        obtain ⟨t',hw',hk',hall⟩ := h.mapPages _ hmap
        refine ⟨t',hw',hk',fun p hp hpn => ?_⟩
        rcases hbefore p (hp x.2.end_ rfl) ((hk'.needs_iff p).mp hpn) with hr | ⟨_,h1,h2⟩
        · exact hk'.ready hr
        · exact hall _ (mem_fiPages_of_mem h1 h2)
    · obtain ⟨rfl,rfl⟩ := Prod.mk.inj (Except.ok.inj hrun)
      refine ⟨t,h,Keeps.refl st t,fun p hp hpn => ?_⟩
      rcases hbefore p (hp x.2.end_ rfl) hpn with hr | ⟨hxn,_⟩
      · exact hr
      · exact absurd hxn hneeds

/-- The loop from an address on. -/
lemma Walking.frameInfoLoop (fuel : ℕ) (h : Walking n st t) {addr : ℕ}
    (hs : ∀ st1 addr1, Looks tables st addr st1 addr1 → ¬ Straddles st1 addr1)
    (hready : ∀ p, p < addr → Needs t p → Ready st p)
    (hrun : Bootstrap.frameInfoLoop tables fuel st addr = .ok st') : ∀ p, Needs t p → Ready st' p := by
  induction fuel generalizing st t addr with
  | zero => simp [Bootstrap.frameInfoLoop] at hrun
  | succ fuel ih =>
    obtain ⟨⟨next,st1⟩,hstep,hrest⟩ := bind_ok hrun
    obtain ⟨t1,hw1,hk1,hready1⟩ := h.frameInfoStep (hs st addr .start) hready hstep
    cases next with
    | none =>
      obtain rfl := Except.ok.inj hrest
      intro p hp
      exact hready1 p (by simp) ((hk1.needs_iff p).mpr hp)
    | some addr1 =>
      have hs1 : ∀ st2 addr2, Looks tables st1 addr1 st2 addr2 → ¬ Straddles st2 addr2 := by
        intro st2 addr2 hl
        apply hs
        induction hl with
        | start => exact .next .start hstep
        | next hl hrun ihl => exact .next ihl hrun
      intro p hp
      refine ih hw1 hs1 (fun q hq => hready1 q ?_) hrest p ((hk1.needs_iff p).mpr hp)
      rintro addr' he
      obtain rfl := Option.some.inj he
      exact hq

/-- Whatever frames `map_to` takes: if, whenever the loop looks for the next span, no span that needs
`FrameInfo`s starts before the address it has reached and ends after it, then at the end the `FrameInfo`
of every frame that intersects such a span of the beginning is in a page that is mapped and
initialised. -/
theorem frameInfos_ready {fl : List ℕ} {fuel : ℕ} (h : Valid n st.bootAlloc t fl []) (hp : ∀ v, st.pages v = none)
    (hs : ∀ st1 addr, Looks tables st 0 st1 addr → ¬ Straddles st1 addr)
    (hrun : Bootstrap.frameInfoLoop tables fuel st 0 = .ok st') :
    ∀ x ∈ values t, x.spanType.needsFrameinfo = true → ∀ f, f * FRAME_SIZE < x.end_ → x.start < (f+1) * FRAME_SIZE →
      ∃ phys, st'.pages (roundDown 4096 (frameInfoAddr f)) = some phys ∧ st'.reserved phys = true := by
  have hw : Walking n st t := ⟨⟨fl,h⟩,fun v phys hv => by simp [hp] at hv⟩
  intro x hx hneeds f h1 h2
  have hlt : x.start < x.end_ := h.tree.wf.proper x hx
  -- an address that is in the span and in the frame
  have hframe : (max x.start (f * FRAME_SIZE)) / FRAME_SIZE = f := by
    simp only [FRAME_SIZE] at h1 h2 ⊢
    omega
  have hd : denote view t (max x.start (f * FRAME_SIZE)) = some x.spanType :=
    h.tree.wf.lookup_of_mem hx ⟨le_max_left _ _,max_lt hlt h1⟩
  have hready := hw.frameInfoLoop fuel hs (by simp) hrun _ ⟨x.spanType,hd,hneeds⟩
  unfold Ready at hready
  rw [hframe] at hready
  exact hready

/-- The state before the loop. -/
def Bootstrap.new (bootAlloc : BootAlloc) : Bootstrap := ⟨bootAlloc,fun _ => none,fun _ => false⟩

/-- A memory of 64 free frames: one page is mapped for their `FrameInfo`s. -/
theorem frameInfos_ready_one : ∃ b st',
    BootAlloc.update (.new 4) 0x100000 0x40000 (fun _ => .ok .free) = .ok b ∧
    Bootstrap.frameInfoLoop (fun _ => 0) 3 (.new b) 0 = .ok st' ∧ ∀ f, 0x100 ≤ f → f < 0x140 →
      ∃ phys, st'.pages (roundDown 4096 (frameInfoAddr f)) = some phys ∧ st'.reserved phys = true := by
  have hres : (BootAlloc.update (.new 4) 0x100000 0x40000 (fun _ => .ok .free) >>= fun b =>
      (Bootstrap.new b).frameInfoStep (fun _ => 0) 0 >>= fun p =>
      p.2.frameInfoStep (fun _ => 0) 0x140000 >>= fun q =>
      .ok (p.1,decide (Straddles p.2 0x140000),q.1)) = .ok (some 0x140000,false,none) := by decide +kernel
  obtain ⟨b,hb,hres⟩ := bind_ok hres
  obtain ⟨⟨next1,st1⟩,h1,hres⟩ := bind_ok hres
  obtain ⟨⟨next2,st2⟩,h2,hres⟩ := bind_ok hres
  obtain ⟨rfl,hres⟩ := Prod.mk.inj (Except.ok.inj hres)
  obtain ⟨hst,rfl⟩ := Prod.mk.inj hres
  have hst : ¬ Straddles st1 0x140000 := of_decide_eq_false hst
  have hlooks : ∀ st3 addr, Looks (fun _ => 0) (Bootstrap.new b) 0 st3 addr →
      (st3 = Bootstrap.new b ∧ addr = 0) ∨ (st3 = st1 ∧ addr = 0x140000) := by
    intro st3 addr hl
    induction hl with
    | start => exact Or.inl ⟨rfl,rfl⟩
    | next hl hrun ih =>
      rcases ih with ⟨rfl,rfl⟩ | ⟨rfl,rfl⟩
      · obtain ⟨ha,rfl⟩ := Prod.mk.inj (Except.ok.inj (h1.symm.trans hrun))
        exact Or.inr ⟨rfl,(Option.some.inj ha).symm⟩
      · obtain ⟨ha,_⟩ := Prod.mk.inj (Except.ok.inj (h2.symm.trans hrun))
        simp at ha
  have hrun : Bootstrap.frameInfoLoop (fun _ => 0) 3 (.new b) 0 = .ok st2 := by
    simp only [Bootstrap.frameInfoLoop, h1, h2, bind, Except.bind, pure, Except.pure]
  have hu := (valid_new 4).update (f := fun _ => .ok .free) (Cut.univ leaf) (Set.mem_univ 0x100000)
    (Set.mem_univ _) (by decide : 0x100000 + 0x40000 < 2^64)
  obtain ⟨t,fl,hv,_,hin,hout⟩ := hu.result hb
  refine ⟨b,st2,hb,hrun,fun f hf1 hf2 => ?_⟩
  obtain ⟨w,hw,hd⟩ := hin (f * 4096) (by omega) (by omega)
  obtain rfl := Except.ok.inj hw
  obtain ⟨x,hx,⟨hx1,hx2⟩,hty⟩ := hv.tree.wf.lookup_eq_some.mp hd
  have hx1 : x.start ≤ f * 4096 := hx1
  have hx2 : f * 4096 < x.end_ := hx2
  have hty : x.spanType = .free := hty
  refine frameInfos_ready hv (fun _ => rfl) ?_ hrun x hx (by rw [hty]; rfl) f hx2 ?_
  · intro st3 addr hl
    rcases hlooks st3 addr hl with ⟨rfl,rfl⟩ | ⟨rfl,rfl⟩
    · rintro ⟨_,_,_,_,hlt,_⟩
      omega
    · exact hst
  · simp only [FRAME_SIZE]
    omega

/-- With three slots, an allocation of the loop joins the span that comes next with the one before
it, and the loop never sees it: the `FrameInfo`s of the frames from 0x140000 on stay unmapped. -/
theorem frameInfos_skipped : ¬ ∀ (n : ℕ) (st st' : Bootstrap) (t : CTree (ℕ × Span)) (fl : List ℕ) (tables : ℕ → ℕ)
    (fuel : ℕ), Valid n st.bootAlloc t fl [] → (∀ v, st.pages v = none) →
    Bootstrap.frameInfoLoop tables fuel st 0 = .ok st' → ∀ x ∈ values t, x.spanType.needsFrameinfo = true →
    ∀ f, f * FRAME_SIZE < x.end_ → x.start < (f+1) * FRAME_SIZE →
      ∃ phys, st'.pages (roundDown 4096 (frameInfoAddr f)) = some phys ∧ st'.reserved phys = true := by
  intro hall
  have hres : (BootAlloc.markUsed (.new 3) 0x100000 0x40000 >>= fun b => b.markUsed 0x140000 0x40000 >>= fun b =>
      b.update 0x200000 0x100000 (fun _ => .ok .free) >>= fun b =>
      Bootstrap.frameInfoLoop (fun _ => 0) 10 (.new b) 0 >>= fun st =>
      .ok (st.pages (roundDown 4096 (frameInfoAddr 0x140)))) = .ok none := by decide +kernel
  obtain ⟨b1,h1,hres⟩ := bind_ok hres
  obtain ⟨b2,h2,hres⟩ := bind_ok hres
  obtain ⟨b3,h3,hres⟩ := bind_ok hres
  obtain ⟨st',hrun,hres⟩ := bind_ok hres
  have hu1 := (valid_new 3).update (f := fun s => .ok (BootAlloc.unlessReserved .inUse s)) (Cut.univ leaf)
    (Set.mem_univ 0x100000) (Set.mem_univ _) (by decide : 0x100000 + 0x40000 < 2^64)
  obtain ⟨t1,_,hv1,_,_,hout1⟩ := hu1.result h1
  have hu2 := hv1.update (f := fun s => .ok (BootAlloc.unlessReserved .inUse s)) (Cut.univ t1) (Set.mem_univ 0x140000)
    (Set.mem_univ _) (by decide : 0x140000 + 0x40000 < 2^64)
  obtain ⟨t2,_,hv2,_,hin2,_⟩ := hu2.result h2
  have hu3 := hv2.update (f := fun _ => .ok .free) (Cut.univ t2) (Set.mem_univ 0x200000) (Set.mem_univ _)
    (by decide : 0x200000 + 0x100000 < 2^64)
  obtain ⟨t3,fl3,hv3,_,_,hout3⟩ := hu3.result h3
  have hd : denote view t3 0x140000 = some .inUse := by
    obtain ⟨w,hw,hd⟩ := hin2 0x140000 (by omega) (by omega)
    rw [hout1 0x140000 (by omega)] at hw
    rw [hout3 0x140000 (by omega), hd, ← Except.ok.inj hw]
    rfl
  obtain ⟨x,hx,⟨hx1,hx2⟩,hty⟩ := hv3.tree.wf.lookup_eq_some.mp hd
  have hx1 : x.start ≤ 0x140000 := hx1
  have hx2 : 0x140000 < x.end_ := hx2
  have hty : x.spanType = .inUse := hty
  obtain ⟨phys,hphys,_⟩ := hall 3 (.new b3) st' t3 fl3 (fun _ => 0) 10 hv3 (fun _ => rfl) hrun x hx
    (by rw [hty]; rfl) 0x140 (by simp only [FRAME_SIZE]; omega) (by simp only [FRAME_SIZE]; omega)
  rw [Except.ok.inj hres] at hphys
  simp at hphys

end Lilith.Boot
