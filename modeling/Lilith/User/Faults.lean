import Lilith.User.Model

/-! The invariant of the memory of processes: the frames of their pages are live objects of the allocator, no two pages share a
frame, and each frame has the bytes that its process should see. -/
namespace Lilith.User
open Theory PtrGraph CTree Rbtree
open Boot (Layout)
open Buddy (FRAME_SIZE MAX_ORDER)
open Direct (Usage FRAME_LAYOUT Reach)
open VirtualAlloc (Range Ordered UserAddressSpace)

/-- What a process should see: bytes of its own, which are zero at first, in the ranges that were mapped for it. -/
structure Private where
  bytes : ℕ → UInt8
  ranges : List Range

/-- The frame is the page table of the process or that of one of its pages. -/
def State.Owns (self : State) (proc phys : ℕ) : Prop :=
  ∃ p, self.procs proc = some p ∧ (phys = p.pageTable ∨ ∃ page, p.pages page = some phys)

/-- The panics of the handler when there are no frames. -/
def OutOfMemory (e : Fault) : Prop := e = .panic "called `Option::unwrap()` on a `None` value" ∨
  e = .panic "called `Result::unwrap()` on an `Err` value: FrameAllocationFailed"

structure Inv (mapped : ℕ → Bool) (U : Set ℕ) (s : State) (m : ℕ → Private) : Prop where
  reach : Reach mapped U s.usage
  owned : ∀ i phys, s.Owns i phys → frameObject phys ∈ s.usage.live
  own : ∀ i j p q v w f, s.procs i = some p → s.procs j = some q → p.pages v = some f → q.pages w = some f → i = j ∧ v = w
  bytes : ∀ i p v f, s.procs i = some p → p.pages v = some f → ∀ o < FRAME_SIZE, s.memory (f + o) = (m i).bytes (v * FRAME_SIZE + o)
  untouched : ∀ i v, (∀ p, s.procs i = some p → p.pages v = none) → ∀ o < FRAME_SIZE, (m i).bytes (v * FRAME_SIZE + o) = 0
  touched : ∀ i p v f, s.procs i = some p → p.pages v = some f → ∃ r ∈ (m i).ranges, ∃ a, r.Has a ∧ a / FRAME_SIZE = v
  tables : ∀ i j p q v, s.procs i = some p → s.procs j = some q → q.pages v ≠ some p.pageTable
  mappings : ∀ i p, s.procs i = some p → ∃ t, p.addressSpace.mappings.spans.Valid t ∧ Ordered (values t) ∧
    ∀ a, (∃ x ∈ values t, x.range.Has a) ↔ ∃ r ∈ (m i).ranges, r.Has a
  absent : ∀ i, s.procs i = none → (m i).ranges = []

variable {mapped : ℕ → Bool} {U : Set ℕ} {s s' : State} {u u' : Usage} {m : ℕ → Private} {i j a f g k page phys tables : ℕ}
  {fs gs : List ℕ} {p : ProcMemory} {r : Range} {mem : Option MemoryError}

/-- Frames were allocated, and nothing else happened. -/
structure Grows (mapped : ℕ → Bool) (U : Set ℕ) (s s' : State) (fs : List ℕ) : Prop where
  reach : Reach mapped U s'.usage
  live : s'.usage.live = fs.map frameObject ++ s.usage.live
  memory : s'.memory = s.memory
  procs : s'.procs = s.procs

lemma Grows.refl (h : Reach mapped U s.usage) : Grows mapped U s s [] := ⟨h,rfl,rfl,rfl⟩

lemma Grows.trans {s'' : State} (h : Grows mapped U s s' fs) (h' : Grows mapped U s' s'' gs) : Grows mapped U s s'' (gs ++ fs) :=
  ⟨h'.reach,by rw [h'.live, h.live, List.map_append, List.append_assoc],h'.memory.trans h.memory,h'.procs.trans h.procs⟩

section Alloc
variable (h0 : 0 ∉ U) (hlow : ∀ n ∈ U, n * FRAME_SIZE < PHYSICAL_MEMORY_MAX_SIZE)
include h0 hlow

/-- Frames that are live objects are apart from each other. -/
lemma frames_apart (hr : Reach mapped U u) (hf : frameObject f ∈ u.live) (hg : frameObject g ∈ u.live) (hne : f ≠ g) :
    f + FRAME_SIZE ≤ g ∨ g + FRAME_SIZE ≤ f := by
  have hs := hr.splits h0 hlow
  obtain ⟨F,B,G,Q,ht⟩ := hs.reach.tracks
  have hne' : frameObject f ≠ frameObject g := fun he => hne (by
    have := congrArg Prod.fst he
    unfold frameObject at this
    omega)
  have : Std.Symm fun p q : ℕ × Layout => p.1 + p.2.size ≤ q.1 ∨ q.1 + q.2.size ≤ p.1 := ⟨fun _ _ h => h.symm⟩
  have hor := (hs.apart ht).forall hf hg hne'
  change PHYSICAL_MEMORY_OFFSET + f + FRAME_SIZE ≤ PHYSICAL_MEMORY_OFFSET + g ∨
    PHYSICAL_MEMORY_OFFSET + g + FRAME_SIZE ≤ PHYSICAL_MEMORY_OFFSET + f at hor
  omega

/-- A new frame is not one of the live ones. -/
lemma frame_new (hr : Reach mapped U u) (hl : u.live = frameObject f :: u'.live) : frameObject f ∉ u'.live := by
  have hs := hr.splits h0 hlow
  obtain ⟨F,B,G,Q,ht⟩ := hs.reach.tracks
  have hap := hs.apart ht
  rw [hl, List.pairwise_cons] at hap
  intro hf
  have h := hap.1 _ hf
  change PHYSICAL_MEMORY_OFFSET + f + FRAME_SIZE ≤ PHYSICAL_MEMORY_OFFSET + f ∨
    PHYSICAL_MEMORY_OFFSET + f + FRAME_SIZE ≤ PHYSICAL_MEMORY_OFFSET + f at h
  unfold FRAME_SIZE at h
  omega

/-- Live frames are in the direct map. -/
lemma frame_low (hr : Reach mapped U u) (hf : frameObject f ∈ u.live) : f < PHYSICAL_MEMORY_MAX_SIZE := by
  have hs := hr.splits h0 hlow
  obtain ⟨phys,hlt,he⟩ := hs.mapped _ (Direct.mem_large.mpr ⟨hf,Direct.frameLayout.2.1⟩)
  unfold frameObject at he
  omega

lemma allocFrame_cases (hr : Reach mapped U s.usage) : ∃ res s', s.allocFrame = .ok (res,s') ∧ Grows mapped U s s' res.toList := by
  have hs := hr.splits h0 hlow
  obtain ⟨F,B,G,Q,ht⟩ := hs.reach.tracks
  have hinv : Slub.Inv s.usage.heap F B s.usage.added mapped G Q := ht.inv
  rcases hinv.allocBlock (Nat.zero_le MAX_ORDER) with h1 | ⟨b,st',_,h1,_⟩
  · have hrun : Direct.allocFrame s.usage.heap = .ok (.error .outOfMemory,s.usage.heap) := by
      rw [Direct.allocFrame, h1]
      rfl
    refine ⟨none,{ s with usage := ⟨_,s.usage.added,s.usage.live⟩ },?_,hr.allocFrameFails hrun,rfl,rfl,rfl⟩
    rw [State.allocFrame, hrun]
    rfl
  · have hrun : Direct.allocFrame s.usage.heap = .ok (.ok (b.start * FRAME_SIZE),{ s.usage.heap with buddy := st' }) := by
      rw [Direct.allocFrame, h1]
      rfl
    refine ⟨some (b.start * FRAME_SIZE),{ s with usage := ⟨_,s.usage.added,frameObject (b.start * FRAME_SIZE) :: s.usage.live⟩ },?_,
      hr.allocFrame hrun,rfl,rfl,rfl⟩
    rw [State.allocFrame, hrun]
    rfl

lemma addTables_cases (k : ℕ) (hr : Reach mapped U s.usage) :
    ∃ enough s' fs, State.addTables k s = .ok (enough,s') ∧ Grows mapped U s s' fs := by
  induction k generalizing s with
  | zero => exact ⟨true,s,[],rfl,Grows.refl hr⟩
  | succ k ih =>
    obtain ⟨res,s1,h1,hg⟩ := allocFrame_cases h0 hlow hr
    cases res with
    | none =>
      refine ⟨false,s1,_,?_,hg⟩
      rw [State.addTables, h1]
      rfl
    | some frame =>
      obtain ⟨enough,s2,fs,h2,hg2⟩ := ih hg.reach
      refine ⟨enough,s2,_,?_,hg.trans hg2⟩
      rw [State.addTables, h1]
      exact h2

end Alloc

/-- The processes after one of them changed. -/
lemma procs_update {q : ProcMemory} (h : Function.update s.procs i (some p) j = some q) : j = i ∧ q = p ∨ j ≠ i ∧ s.procs j = some q := by
  by_cases hj : j = i
  · rw [hj, Function.update_self] at h
    exact Or.inl ⟨hj,(Option.some.inj h).symm⟩
  · rw [Function.update_of_ne hj] at h
    exact Or.inr ⟨hj,h⟩

/-- A range that `add_mapping` takes is one of the spans afterwards. -/
lemma addMapping_ok {as as' : UserAddressSpace} {t : CTree (ℕ × VirtualAlloc.Span Unit)} (hv : as.mappings.spans.Valid t)
    (ho : Ordered (values t)) (hr : r.start ≤ r.end_) (hrun : as.addMapping r mem = .ok as') :
    ∃ t', as'.mappings.spans.Valid t' ∧ Ordered (values t') ∧ ∀ y, y ∈ values t' ↔ y = ⟨r.start,r.end_,()⟩ ∨ y ∈ values t := by
  obtain ⟨⟨result,mappings⟩,hinsert,hrest⟩ := bind_ok hrun
  cases result with
  | error e => cases hrest
  | ok _ =>
    obtain rfl := Except.ok.inj hrest
    cases mem with
    | some e =>
      unfold VirtualAlloc.SpanAlloc.insert at hinsert
      split_ifs at hinsert
      · cases hinsert
      · obtain ⟨found,_,hinsert⟩ := bind_ok hinsert
        split_ifs at hinsert
        · cases hinsert
        · cases hinsert
    | none =>
      rcases VirtualAlloc.insert_find hv ho r () with ⟨_,h1⟩ | ⟨_,h1⟩
      · cases h1.symm.trans hinsert
      · obtain ⟨before,after,hold,_,_,hok,herr⟩ := VirtualAlloc.insertSpan_iff (x := ⟨r.start,r.end_,()⟩) hv ho hr
        by_cases hord : Ordered (before ++ ⟨r.start,r.end_,()⟩::after)
        · obtain ⟨sa',t',h2,hv',hvals⟩ := hok hord
          obtain ⟨_,rfl⟩ := Prod.mk.inj (Except.ok.inj (h2.symm.trans (h1.symm.trans hinsert)))
          refine ⟨t',hv',hvals ▸ hord,fun y => ?_⟩
          rw [hvals, hold]
          simp only [List.mem_append, List.mem_cons]
          tauto
        · obtain ⟨e,h2⟩ := herr hord
          cases h2.symm.trans (h1.symm.trans hinsert)

namespace Inv

/-- What others do: they keep the frames of processes allocated, and do not write them. -/
lemma other (h : Inv mapped U s m) (hu : Reach mapped U u') (hlive : ∀ i phys, s.Owns i phys → frameObject phys ∈ u'.live)
    {memory : ℕ → UInt8} (hmem : ∀ i f, s.Owns i f → ∀ a, f ≤ a → a < f + FRAME_SIZE → memory a = s.memory a) :
    Inv mapped U { s with usage := u', memory := memory } m := by
  refine ⟨hu,hlive,h.own,fun i p v f hp hv o ho => ?_,h.untouched,h.touched,h.tables,h.mappings,h.absent⟩
  rw [← h.bytes i p v f hp hv o ho]
  exact hmem i f ⟨p,hp,Or.inr ⟨v,hv⟩⟩ _ (Nat.le_add_right _ _) (Nat.add_lt_add_left ho _)

lemma grow (h : Inv mapped U s m) (hg : Grows mapped U s s' fs) : Inv mapped U s' m := by
  obtain ⟨u,memory,procs⟩ := s'
  obtain ⟨hr,hl,rfl,rfl⟩ := hg
  refine h.other hr (fun i phys ho => ?_) fun i f _ a _ _ => rfl
  change _ ∈ u.live
  rw [hl]
  exact List.mem_append_right _ (h.owned i phys ho)

/-- A page is mapped to a new frame that is zero. -/
lemma mapPage (h : Inv mapped U s m) (hp : s.procs i = some p) (hpage : p.pages page = none) (hf : frameObject f ∈ s.usage.live)
    (hnew : ∀ j g, s.Owns j g → g ≠ f) (hzero : ∀ o < FRAME_SIZE, s.memory (f + o) = 0)
    (hr : ∃ r ∈ (m i).ranges, ∃ a, r.Has a ∧ a / FRAME_SIZE = page) :
    Inv mapped U { s with
      procs := Function.update s.procs i (some { p with pages := Function.update p.pages page (some f) }) } m := by
  -- a page of a process afterwards is the new one or one from before
  have hcase : ∀ {j q v g}, Function.update s.procs i (some { p with pages := Function.update p.pages page (some f) }) j = some q →
      q.pages v = some g → (j = i ∧ v = page ∧ g = f) ∨ ∃ q', s.procs j = some q' ∧ q'.pages v = some g := by
    intro j q v g hq hv
    rcases procs_update hq with ⟨rfl,rfl⟩ | ⟨_,hq⟩
    · by_cases he : v = page
      · rw [he] at hv
        simp only [Function.update_self] at hv
        exact Or.inl ⟨rfl,he,(Option.some.inj hv).symm⟩
      · simp only [Function.update_of_ne he] at hv
        exact Or.inr ⟨p,hp,hv⟩
    · exact Or.inr ⟨q,hq,hv⟩
  have htable : ∀ {j q}, Function.update s.procs i (some { p with pages := Function.update p.pages page (some f) }) j = some q →
      ∃ q', s.procs j = some q' ∧ q'.pageTable = q.pageTable ∧ q'.addressSpace = q.addressSpace := by
    intro j q hq
    rcases procs_update hq with ⟨rfl,rfl⟩ | ⟨_,hq⟩
    · exact ⟨p,hp,rfl,rfl⟩
    · exact ⟨q,hq,rfl,rfl⟩
  refine ⟨h.reach,?_,?_,?_,?_,?_,?_,?_,?_⟩
  · rintro j phys ⟨q,hq,rfl | ⟨v,hv⟩⟩
    · obtain ⟨q',hq',he,_⟩ := htable hq
      exact h.owned j _ ⟨q',hq',Or.inl he.symm⟩
    · rcases hcase hq hv with ⟨_,_,rfl⟩ | ⟨q',hq',hv'⟩
      · exact hf
      · exact h.owned j phys ⟨q',hq',Or.inr ⟨v,hv'⟩⟩
  · intro j k q q' v w g hq hq' hv hw
    rcases hcase hq hv with ⟨rfl,rfl,rfl⟩ | ⟨q1,hq1,hv1⟩
    · rcases hcase hq' hw with ⟨rfl,rfl,_⟩ | ⟨q2,hq2,hw2⟩
      · exact ⟨rfl,rfl⟩
      · exact absurd rfl (hnew k g ⟨q2,hq2,Or.inr ⟨w,hw2⟩⟩)
    · rcases hcase hq' hw with ⟨rfl,rfl,rfl⟩ | ⟨q2,hq2,hw2⟩
      · exact absurd rfl (hnew j g ⟨q1,hq1,Or.inr ⟨v,hv1⟩⟩)
      · exact h.own j k q1 q2 v w g hq1 hq2 hv1 hw2
  · intro j q v g hq hv o ho
    rcases hcase hq hv with ⟨rfl,rfl,rfl⟩ | ⟨q1,hq1,hv1⟩
    · have hnone : ∀ q, s.procs j = some q → q.pages v = none := fun q hq => by
        obtain rfl := Option.some.inj (hq.symm.trans hp)
        exact hpage
      exact (hzero o ho).trans (h.untouched j v hnone o ho).symm
    · exact h.bytes j q1 v g hq1 hv1 o ho
  · intro j v hnone o ho
    refine h.untouched j v (fun q hq => ?_) o ho
    by_cases hj : j = i
    · rw [hj] at hq hnone
      obtain rfl := Option.some.inj (hq.symm.trans hp)
      have hsome := hnone _ (Function.update_self _ _ _)
      by_cases he : v = page
      · rw [he]
        exact hpage
      · simpa only [Function.update_of_ne he] using hsome
    · exact hnone q (by simpa only [Function.update_of_ne hj] using hq)
  · intro j q v g hq hv
    rcases hcase hq hv with ⟨rfl,rfl,_⟩ | ⟨q1,hq1,hv1⟩
    · exact hr
    · exact h.touched j q1 v g hq1 hv1
  · intro j k q q' v hq hq' hv
    obtain ⟨q1,hq1,he,_⟩ := htable hq
    rw [← he] at hv
    rcases hcase hq' hv with ⟨_,_,hg⟩ | ⟨q2,hq2,hv2⟩
    · exact hnew j _ ⟨q1,hq1,Or.inl rfl⟩ hg
    · exact h.tables j k q1 q2 v hq1 hq2 hv2
  · intro j q hq
    obtain ⟨q1,hq1,_,he⟩ := htable hq
    rw [← he]
    exact h.mappings j q1 hq1
  · intro j hj
    change Function.update s.procs i _ j = none at hj
    refine h.absent j ?_
    by_cases he : j = i
    · rw [he, Function.update_self] at hj
      cases hj
    · rwa [Function.update_of_ne he] at hj

/-- A process writes a byte of a page. -/
lemma write (h0 : 0 ∉ U) (hlow : ∀ n ∈ U, n * FRAME_SIZE < PHYSICAL_MEMORY_MAX_SIZE) (h : Inv mapped U s m)
    (hp : s.procs i = some p) (hpage : p.pages (a / FRAME_SIZE) = some f) (b : UInt8) :
    Inv mapped U (s.write (f + a % FRAME_SIZE) b) (Function.update m i { m i with bytes := Function.update (m i).bytes a b }) := by
  have hranges : ∀ j, (Function.update m i { m i with bytes := Function.update (m i).bytes a b } j).ranges = (m j).ranges := by
    intro j
    by_cases hj : j = i
    · rw [hj, Function.update_self]
    · rw [Function.update_of_ne hj]
  have hpos : 0 < FRAME_SIZE := by decide
  have hsplit : a / FRAME_SIZE * FRAME_SIZE + a % FRAME_SIZE = a := Nat.div_add_mod' a FRAME_SIZE
  have hmod : a % FRAME_SIZE < FRAME_SIZE := Nat.mod_lt _ hpos
  refine ⟨h.reach,h.owned,h.own,?_,?_,?_,h.tables,?_,?_⟩
  · intro j q v g hq hv o ho
    change Function.update s.memory (f + a % FRAME_SIZE) b (g + o) = _
    by_cases hsame : g = f
    · rw [hsame] at hv ⊢
      obtain ⟨rfl,rfl⟩ := h.own j i q p v _ f hq hp hv hpage
      rw [Function.update_self]
      by_cases he : o = a % FRAME_SIZE
      · rw [he, hsplit, Function.update_self]
        simp only [Function.update_self]
      · have hne : f + o ≠ f + a % FRAME_SIZE := by omega
        have hne' : a / FRAME_SIZE * FRAME_SIZE + o ≠ a := by omega
        rw [Function.update_of_ne hne]
        simp only [Function.update_of_ne hne']
        exact h.bytes j q _ f hq hv o ho
    · have hne : g + o ≠ f + a % FRAME_SIZE := by
        have := frames_apart h0 hlow h.reach (h.owned j g ⟨q,hq,Or.inr ⟨v,hv⟩⟩) (h.owned i f ⟨p,hp,Or.inr ⟨_,hpage⟩⟩) hsame
        omega
      rw [Function.update_of_ne hne, h.bytes j q v g hq hv o ho]
      by_cases hj : j = i
      · subst hj
        have hne' : v * FRAME_SIZE + o ≠ a := by
          intro he
          have hv' : a / FRAME_SIZE = v := by
            rw [← he, Nat.add_comm, Nat.add_mul_div_right _ _ hpos, Nat.div_eq_of_lt ho, Nat.zero_add]
          obtain rfl := Option.some.inj (hq.symm.trans hp)
          rw [hv', hv] at hpage
          exact hsame (Option.some.inj hpage)
        rw [Function.update_self]
        simp only [Function.update_of_ne hne']
      · rw [Function.update_of_ne hj]
  · intro j v hnone o ho
    by_cases hj : j = i
    · subst hj
      have hne' : v * FRAME_SIZE + o ≠ a := by
        intro he
        have hv' : a / FRAME_SIZE = v := by
          rw [← he, Nat.add_comm, Nat.add_mul_div_right _ _ hpos, Nat.div_eq_of_lt ho, Nat.zero_add]
        rw [hv', hnone p hp] at hpage
        cases hpage
      rw [Function.update_self]
      simp only [Function.update_of_ne hne']
      exact h.untouched j v hnone o ho
    · rw [Function.update_of_ne hj]
      exact h.untouched j v hnone o ho
  · intro j q v g hq hv
    rw [hranges]
    exact h.touched j q v g hq hv
  · intro j q hq
    rw [hranges]
    exact h.mappings j q hq
  · intro j hj
    rw [hranges]
    exact h.absent j hj

/-- A range is mapped for a process. -/
lemma addMapping (h : Inv mapped U s m) (hr : r.start ≤ r.end_) (hrun : s.addMapping i r mem = .ok s') :
    Inv mapped U s' (Function.update m i { m i with ranges := r :: (m i).ranges }) := by
  unfold State.addMapping at hrun
  cases hp : s.procs i with
  | none =>
    rw [hp] at hrun
    cases hrun
  | some p =>
    rw [hp] at hrun
    obtain ⟨as',hadd,hrun⟩ := bind_ok hrun
    obtain rfl := Except.ok.inj hrun
    obtain ⟨t,hv,ho,hmem⟩ := h.mappings i p hp
    obtain ⟨t',hv',ho',hmem'⟩ := addMapping_ok hv ho hr hadd
    have hbytes : ∀ j, (Function.update m i { m i with ranges := r :: (m i).ranges } j).bytes = (m j).bytes := by
      intro j
      by_cases hj : j = i
      · rw [hj, Function.update_self]
      · rw [Function.update_of_ne hj]
    have hsub : ∀ j, ∀ r' ∈ (m j).ranges, r' ∈ (Function.update m i { m i with ranges := r :: (m i).ranges } j).ranges := by
      intro j r' hr'
      by_cases hj : j = i
      · subst hj
        rw [Function.update_self]
        exact List.mem_cons_of_mem _ hr'
      · rwa [Function.update_of_ne hj]
    have hold : ∀ {j q}, Function.update s.procs i (some { p with addressSpace := as' }) j = some q →
        ∃ q', s.procs j = some q' ∧ q'.pageTable = q.pageTable ∧ q'.pages = q.pages := by
      intro j q hq
      rcases procs_update hq with ⟨rfl,rfl⟩ | ⟨_,hq⟩
      · exact ⟨p,hp,rfl,rfl⟩
      · exact ⟨q,hq,rfl,rfl⟩
    refine ⟨h.reach,?_,?_,?_,?_,?_,?_,?_,?_⟩
    · rintro j phys ⟨q,hq,hphys⟩
      obtain ⟨q',hq',h1,h2⟩ := hold hq
      rw [← h1, ← h2] at hphys
      exact h.owned j phys ⟨q',hq',hphys⟩
    · intro j k q q' v w f hq hq' hv hw
      obtain ⟨q1,hq1,_,h2⟩ := hold hq
      obtain ⟨q2,hq2,_,h3⟩ := hold hq'
      rw [← h2] at hv
      rw [← h3] at hw
      exact h.own j k q1 q2 v w f hq1 hq2 hv hw
    · intro j q v f hq hv o ho
      obtain ⟨q1,hq1,_,h2⟩ := hold hq
      rw [← h2] at hv
      rw [hbytes]
      exact h.bytes j q1 v f hq1 hv o ho
    · intro j v hnone o ho
      rw [hbytes]
      refine h.untouched j v (fun q hq => ?_) o ho
      by_cases hj : j = i
      · rw [hj] at hq hnone
        obtain rfl := Option.some.inj (hq.symm.trans hp)
        exact hnone { q with addressSpace := as' } (Function.update_self _ _ _)
      · exact hnone q (by simpa only [Function.update_of_ne hj] using hq)
    · intro j q v f hq hv
      obtain ⟨q1,hq1,_,h2⟩ := hold hq
      rw [← h2] at hv
      obtain ⟨r',hr',ha⟩ := h.touched j q1 v f hq1 hv
      exact ⟨r',hsub j r' hr',ha⟩
    · intro j k q q' v hq hq'
      obtain ⟨q1,hq1,h1,_⟩ := hold hq
      obtain ⟨q2,hq2,_,h2⟩ := hold hq'
      rw [← h1, ← h2]
      exact h.tables j k q1 q2 v hq1 hq2
    · intro j q hq
      rcases procs_update hq with ⟨rfl,rfl⟩ | ⟨hj,hq⟩
      · refine ⟨t',hv',ho',fun a => ?_⟩
        rw [Function.update_self]
        simp only [hmem', List.mem_cons, exists_eq_or_imp, VirtualAlloc.Span.range_mk]
        exact or_congr_right (hmem a)
      · rw [Function.update_of_ne hj]
        exact h.mappings j q hq
    · intro j hj
      change Function.update s.procs i _ j = none at hj
      by_cases he : j = i
      · rw [he, Function.update_self] at hj
        cases hj
      · rw [Function.update_of_ne he] at hj ⊢
        exact h.absent j hj

end Inv
end Lilith.User
