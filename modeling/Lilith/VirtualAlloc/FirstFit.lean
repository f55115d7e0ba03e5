import Lilith.VirtualAlloc.Runs

/-! First fit. `find_gap` on an allocator with spans returns the lowest maximal free gap that is
long enough; on an allocator without spans it returns the whole range, whatever the size. -/
namespace Lilith.VirtualAlloc
open Theory PtrGraph CTree Rbtree

variable {V : Type} {sa sa' : SpanAlloc V} {range : Range} {m : SpanSet V} {t : CTree (ℕ × Span V)}

/-- A range inside another one that meets no span. -/
def Range.FreeIn (g range : Range) (m : SpanSet V) : Prop :=
  range.Contains g ∧ ∀ x ∈ m.spans, ¬ Meets x g

/-- A gap: a nonempty free range that no larger free range contains. -/
structure MaximalGap (range : Range) (m : SpanSet V) (g : Range) : Prop where
  proper : g.start < g.end_
  free : g.FreeIn range m
  maximal : ∀ g' : Range, g'.FreeIn range m → g'.Contains g → g' = g

/-- Gaps are in order: each ends where the next one starts, or before. -/
lemma gaps_ordered {lo hi : ℕ} {xs : List (Span V)} (h : view.WF xs) :
    (gaps lo xs hi).Pairwise fun g g' => g.end_ ≤ g'.start := by
  induction xs generalizing lo with
  | nil => simp [gaps]
  | cons x xs ih =>
    have hxs := h.sublist (List.sublist_cons_self x xs)
    have hx : x.start < x.end_ := h.proper x (by simp)
    have hlater : ∀ y ∈ xs, x.end_ ≤ y.start := (List.pairwise_cons.mp h.spaced).1
    refine List.pairwise_cons.mpr ⟨fun g hg => ?_,ih hxs⟩
    have hle := le_start_of_mem_gaps hxs hlater g hg
    simp only
    omega

/-- A range between the bounds that is beside all spans is part of a gap. -/
lemma exists_gap {lo hi : ℕ} {xs : List (Span V)} {g : Range}
    (hlo : lo ≤ g.start) (hhi : g.end_ ≤ hi) (hb : ∀ x ∈ xs, x.end_ ≤ g.start ∨ g.end_ ≤ x.start) :
    ∃ g' ∈ gaps lo xs hi, g'.Contains g := by
  induction xs generalizing lo with
  | nil => exact ⟨⟨lo,hi⟩,by simp [gaps],hlo,hhi⟩
  | cons x xs ih =>
    rcases hb x (by simp) with hx | hx
    · obtain ⟨g',hg',hc⟩ := ih hx fun y hy => hb y (by simp [hy])
      exact ⟨g',List.mem_cons_of_mem _ hg',hc⟩
    · exact ⟨⟨lo,x.start⟩,by simp [gaps],hlo,hx⟩

/-- In a list of ordered ranges, two with a common part are the same. -/
lemma eq_of_ordered {gs : List Range} (h : gs.Pairwise fun g g' => g.end_ ≤ g'.start) {g g' a : Range}
    (hg : g ∈ gs) (hg' : g' ∈ gs) (ha : a.start < a.end_) (h1 : g.Contains a) (h2 : g'.Contains a) :
    g = g' := by
  obtain ⟨h1s,h1e⟩ := h1
  obtain ⟨h2s,h2e⟩ := h2
  induction gs with
  | nil => simp at hg
  | cons b gs ih =>
    obtain ⟨hb,hgs⟩ := List.pairwise_cons.mp h
    rcases List.mem_cons.mp hg with rfl | hin
    · rcases List.mem_cons.mp hg' with rfl | hin'
      · rfl
      · have := hb g' hin'
        omega
    · rcases List.mem_cons.mp hg' with rfl | hin'
      · have := hb g hin
        omega
      · exact ih hgs hin hin'

/-- The nonempty gaps before, between and after the spans are the maximal free gaps. -/
theorem mem_gaps_iff {xs : List (Span V)} (h : view.WF xs) (hm : ∀ x, x ∈ m.spans ↔ x ∈ xs)
    (hin : Inside range xs) {g : Range} (hg : g.start < g.end_) :
    g ∈ gaps range.start xs range.end_ ↔ MaximalGap range m g := by
  have hfree : ∀ g' ∈ gaps range.start xs range.end_, g'.FreeIn range m := by
    intro g' hg'
    refine ⟨⟨?_,?_⟩,fun x hx => ?_⟩
    · exact le_start_of_mem_gaps h (fun y hy => (hin y hy).1) g' hg'
    · exact end_le_of_mem_gaps h (fun y hy => (hin y hy).2) g' hg'
    · exact not_meets.mpr (gaps_beside h g' hg' x ((hm x).mp hx))
  have hpart : ∀ g' : Range, g'.FreeIn range m →
      ∃ g'' ∈ gaps range.start xs range.end_, g''.Contains g' := by
    intro g' hf
    exact exists_gap hf.1.1 hf.1.2 fun x hx => not_meets.mp (hf.2 x ((hm x).mpr hx))
  constructor
  · intro hmem
    refine ⟨hg,hfree g hmem,fun g' hf hc => ?_⟩
    obtain ⟨hc1,hc2⟩ := hc
    -- the larger range is part of a gap, which shares addresses with `g`
    obtain ⟨g'',hmem',hs,he⟩ := hpart g' hf
    obtain rfl := eq_of_ordered (gaps_ordered h) hmem hmem' hg ⟨le_rfl,le_rfl⟩ ⟨by omega,by omega⟩
    have hstart : g'.start = g.start := by omega
    have hend : g'.end_ = g.end_ := by omega
    cases g
    cases g'
    exact congrArg₂ Range.mk hstart hend
  · intro hmax
    obtain ⟨g',hmem,hc⟩ := hpart g hmax.free
    rw [← hmax.maximal g' (hfree g' hmem) hc]
    exact hmem

/-- The first range in order that satisfies a predicate is the lowest. -/
lemma lowest_of_find? {gs : List Range} (h : gs.Pairwise fun g g' => g.end_ ≤ g'.start) {p : Range → Bool}
    {g : Range} (hf : gs.find? p = some g) :
    ∀ g' ∈ gs, p g' → g' = g ∨ g.end_ ≤ g'.start := by
  obtain ⟨_,before,after,rfl,hbefore⟩ := List.find?_eq_some_iff_append.mp hf
  obtain ⟨_,h2,_⟩ := List.pairwise_append.mp h
  intro g' hg' hp
  rcases List.mem_append.mp hg' with hg' | hg'
  · exact absurd hp (by simpa using hbefore g' hg')
  · rcases List.mem_cons.mp hg' with rfl | hg'
    · exact Or.inl rfl
    · exact Or.inr ((List.pairwise_cons.mp h2).1 g' hg')

lemma fits_iff {size : ℕ} (hsize : 0 < size) {g : Range} :
    Fits size g = true ↔ g.start < g.end_ ∧ size ≤ g.len := by
  simp only [Fits, Range.len, decide_eq_true_eq]
  omega

/-- An allocator has no node exactly when it has no span. -/
lemma Abstracts.eq_leaf_iff (h : Abstracts sa t m) : t = leaf ↔ m.spans = ∅ := by
  constructor
  · rintro rfl
    ext x
    simp [h.spans, values]
  · intro hm
    cases t with
    | leaf => rfl
    | node c l x r =>
      have hx : x.2 ∈ m.spans := by simp [h.spans, values_node]
      simp [hm] at hx

/-- The result of `find_gap` on an allocator with spans. -/
lemma findGap_eq (h : Abstracts sa t m) (hne : m.spans.Nonempty) (hin : Inside sa.range (values t))
    (size : ℕ) : sa.findGap size = .ok (firstGap size sa.range.start (values t) sa.range.end_) := by
  have hhead : sa.spans.head = t.ptr := h.tree.valid.focus.hole_eq
  have hleaf : t ≠ leaf := fun he => hne.ne_empty (h.eq_leaf_iff.mp he)
  have hrun : sa.findGap size = findGapLoop sa.spans.heap size sa.spans.heap.bound t.ptr sa.range.start
      sa.range.end_ := by
    unfold SpanAlloc.findGap
    rw [hhead]
    cases t with
    | leaf => exact absurd rfl hleaf
    | node c l x r => rfl
  obtain ⟨res,hres⟩ := findGapLoop_total h.tree size _ [] t sa.range.start sa.range.end_ rfl hleaf hin
    h.tree.valid.lt_bound
  rw [hrun, hres, findGapLoop_sound h.tree size _ [] t _ _ rfl hleaf hres]

/-- The first gap that is long enough, in terms of maximal free gaps. -/
lemma firstGap_eq_some_iff (h : Abstracts sa t m) (hin : Inside sa.range (values t)) {size : ℕ}
    (hsize : 0 < size) {g : Range} :
    firstGap size sa.range.start (values t) sa.range.end_ = some g ↔
      MaximalGap sa.range m g ∧ size ≤ g.len ∧
        ∀ g', MaximalGap sa.range m g' → size ≤ g'.len → g.start ≤ g'.start := by
  have hgap : ∀ {g : Range}, g.start < g.end_ →
      (g ∈ gaps sa.range.start (values t) sa.range.end_ ↔ MaximalGap sa.range m g) :=
    fun hg => mem_gaps_iff h.tree.wf h.spans hin hg
  have hord : (gaps sa.range.start (values t) sa.range.end_).Pairwise fun g g' => g.end_ ≤ g'.start :=
    gaps_ordered h.tree.wf
  constructor
  · intro hg
    obtain ⟨hp,hlen⟩ := (fits_iff hsize).mp (List.find?_some hg)
    refine ⟨(hgap hp).mp (List.mem_of_find?_eq_some hg),hlen,fun g' hmax hlen' => ?_⟩
    have hfit : Fits size g' := (fits_iff hsize).mpr ⟨hmax.proper,hlen'⟩
    rcases lowest_of_find? hord hg g' ((hgap hmax.proper).mpr hmax) hfit with rfl | hle
    · exact le_rfl
    · omega
  · rintro ⟨hmax,hlen,hlow⟩
    have hmem := (hgap hmax.proper).mpr hmax
    have hfit : Fits size g := (fits_iff hsize).mpr ⟨hmax.proper,hlen⟩
    cases hf : firstGap size sa.range.start (values t) sa.range.end_ with
    | none => exact absurd hfit (List.find?_eq_none.mp hf g hmem)
    | some g' =>
      obtain ⟨hp,hlen'⟩ := (fits_iff hsize).mp (List.find?_some hf)
      have hle := hlow g' ((hgap hp).mp (List.mem_of_find?_eq_some hf)) hlen'
      rcases lowest_of_find? hord hf g hmem hfit with rfl | hle'
      · rfl
      · omega

lemma firstGap_eq_none_iff (h : Abstracts sa t m) (hin : Inside sa.range (values t)) {size : ℕ}
    (hsize : 0 < size) : firstGap size sa.range.start (values t) sa.range.end_ = none ↔
      ∀ g, MaximalGap sa.range m g → g.len < size := by
  have hgap : ∀ {g : Range}, g.start < g.end_ →
      (g ∈ gaps sa.range.start (values t) sa.range.end_ ↔ MaximalGap sa.range m g) :=
    fun hg => mem_gaps_iff h.tree.wf h.spans hin hg
  constructor
  · intro hnone g hmax
    by_contra hlen
    have hfit : Fits size g := (fits_iff hsize).mpr ⟨hmax.proper,by omega⟩
    exact List.find?_eq_none.mp hnone g ((hgap hmax.proper).mpr hmax) hfit
  · intro hall
    apply List.find?_eq_none.mpr
    intro g hmem hfit
    obtain ⟨hp,hlen⟩ := (fits_iff hsize).mp hfit
    have := hall g ((hgap hp).mp hmem)
    omega

/-- On every allocator that has spans, all inside its range, `find_gap` returns the lowest maximal
free gap that is long enough, and nothing exactly when there is none. -/
theorem findGap_first_fit (h : Abstracts sa t m) (hne : m.spans.Nonempty)
    (hin : ∀ x ∈ m.spans, sa.range.Contains ⟨x.start,x.end_⟩) {size : ℕ} (hsize : 0 < size) :
    ∃ res, sa.findGap size = .ok res ∧
      (∀ g, res = some g ↔ MaximalGap sa.range m g ∧ size ≤ g.len ∧
        ∀ g', MaximalGap sa.range m g' → size ≤ g'.len → g.start ≤ g'.start) ∧
      (res = none ↔ ∀ g, MaximalGap sa.range m g → g.len < size) := by
  have hin' : Inside sa.range (values t) := fun x hx => hin x ((h.spans x).mpr hx)
  refine ⟨_,findGap_eq h hne hin' size,fun g => ?_,?_⟩
  · exact firstGap_eq_some_iff h hin' hsize
  · exact firstGap_eq_none_iff h hin' hsize

/-- The search for 20 addresses after ten were allocated. -/
theorem findGap_first_fit_one : ∃ (sa : SpanAlloc ℕ) (t : CTree (ℕ × Span ℕ)) (m : SpanSet ℕ),
    (new ⟨[]⟩ ⟨1000,2000⟩).alloc 10 7 none = .ok (.ok ⟨1000,1010⟩,sa) ∧ Abstracts sa t m ∧
      sa.findGap 20 = .ok (some ⟨1010,2000⟩) ∧ MaximalGap sa.range m ⟨1010,2000⟩ := by
  have h0 : Reach (V := ℕ) ⟨1000,2000⟩ (Range.Contains ⟨1000,2000⟩) (· ≤ 2000-1000)
    (new ⟨[]⟩ ⟨1000,2000⟩) := .new _
  have hrun : ∃ sa, (new ⟨[]⟩ ⟨1000,2000⟩).alloc 10 7 none = .ok (.ok ⟨1000,1010⟩,sa) ∧
      sa.findGap 20 = .ok (some ⟨1010,2000⟩) ∧ sa.spans.head.isNone = false := ⟨_,rfl,rfl,rfl⟩
  obtain ⟨sa,hsa,hfind,hhead⟩ := hrun
  obtain ⟨t,hs,hrange,hin⟩ := reach_inv (h0.alloc (by decide) (by decide) hsa)
  have ha := abstracts_of_tree hs
  have hne : (spanSet (values t) hs.wf).spans.Nonempty := by
    apply Set.nonempty_iff_ne_empty.mpr
    intro he
    have hptr : sa.spans.head = t.ptr := hs.valid.focus.hole_eq
    rw [hptr, ha.eq_leaf_iff.mpr he] at hhead
    simp at hhead
  have hsize : 0 < 20 := by decide
  obtain ⟨res,h1,h2,_⟩ := findGap_first_fit ha hne
    (fun x hx => hrange ▸ hin (fun _ h => h) (fun _ h => h) x hx) hsize
  exact ⟨sa,t,_,hsa,ha,hfind,((h2 _).mp (Except.ok.inj (h1.symm.trans hfind))).1⟩

/-- The allocators reached from a new one by `alloc` with sizes of the address type and by `free`,
with the spans that were allocated and not freed. `C` restricts the requests. -/
inductive AllocRun (range : Range) (C : SpanAlloc V → ℕ → Prop) : SpanAlloc V → Set (Span V) → Prop
  | new (heap : Heap (Span V) MaxGap) : AllocRun range C (new heap range) ∅
  | alloc {sa sa' : SpanAlloc V} {live : Set (Span V)} {size : ℕ} {value : V}
      {mem : Option MemoryError} {res : Except SpanError Range} (h : AllocRun range C sa live)
      (hsize : 0 < size) (hlt : size < 2^64) (hC : C sa size)
      (hrun : sa.alloc size value mem = .ok (res,sa')) :
      AllocRun range C sa' (match res with
        | .ok r => live ∪ {⟨r.start,r.end_,value⟩}
        | .error _ => live)
  | free {sa sa' : SpanAlloc V} {live : Set (Span V)} {addr : ℕ} {r : Range} {value : V}
      (h : AllocRun range C sa live) (hrun : sa.free addr = .ok ((r,value),sa')) :
      AllocRun range C sa' (live \ {⟨r.start,r.end_,value⟩})

/-- What `alloc` is to do: return a range of the size that is inside the allocator's range and
meets no live span; and report a size for which there is no gap, with nothing changed. -/
def AllocContract (sa : SpanAlloc V) (m : SpanSet V) (size : ℕ) (value : V)
    (mem : Option MemoryError) : Prop :=
  ∃ res sa', sa.alloc size value mem = .ok (res,sa') ∧
    (∀ r, res = .ok r → r.end_ = r.start + size ∧ sa.range.Contains r ∧ ∀ x ∈ m.spans, ¬ Meets x r) ∧
    ((∀ g, MaximalGap sa.range m g → g.len < size) → res = .error .exhausted ∧ sa' = sa)

/-- No request is larger than the range while there are no spans. -/
def EmptyFits (range : Range) (sa : SpanAlloc V) (size : ℕ) : Prop :=
  sa.spans.head = none → size ≤ range.end_ - range.start

lemma Abstracts.head_iff (h : Abstracts sa t m) : sa.spans.head = none ↔ t = leaf := by
  have hptr : sa.spans.head = t.ptr := h.tree.valid.focus.hole_eq
  rw [hptr]
  cases t <;> simp

/-- When `find_gap` found a gap, `alloc` does not report that there is none. -/
lemma alloc_ne_exhausted {size : ℕ} {value : V} {mem : Option MemoryError} {g : Range}
    {res : Except SpanError Range} (hg : sa.findGap size = .ok (some g))
    (h : sa.alloc size value mem = .ok (res,sa')) : res ≠ .error .exhausted := by
  simp only [SpanAlloc.alloc, hg, bind, Except.bind] at h
  cases hadd : checkedAdd g.start size with
  | error f => simp [hadd] at h
  | ok e =>
    simp only [hadd] at h
    cases mem with
    | some err =>
      obtain ⟨rfl,_⟩ := Prod.mk.inj (Except.ok.inj h)
      simp [Except.map]
    | none =>
      simp only [SpanAlloc.insertSpan, bind, Except.bind] at h
      cases hins : sa.spans.insertNew ⟨g.start,e,value⟩ nodeCmp with
      | error f => simp [hins] at h
      | ok spans =>
        simp only [hins] at h
        obtain ⟨rfl,_⟩ := Prod.mk.inj (Except.ok.inj h)
        simp [Except.map]

/-- When `find_gap` found none, `alloc` reports it. -/
lemma alloc_exhausted {size : ℕ} (hg : sa.findGap size = .ok none) (value : V)
    (mem : Option MemoryError) : sa.alloc size value mem = .ok (.error .exhausted,sa) := by
  simp only [SpanAlloc.alloc, hg, bind, Except.bind, pure, Except.pure]

/-- Without spans, the range is the only gap. -/
lemma maximalGap_of_empty (hm : m.spans = ∅) {g : Range} :
    MaximalGap range m g ↔ g = range ∧ range.start < range.end_ := by
  have hfree : range.FreeIn range m := ⟨⟨le_rfl,le_rfl⟩,by simp [hm]⟩
  constructor
  · intro hg
    obtain rfl := hg.maximal range hfree hg.free.1
    exact ⟨rfl,hg.proper⟩
  · rintro ⟨rfl,hp⟩
    refine ⟨hp,hfree,fun g' hf hc => ?_⟩
    obtain ⟨h1,h2⟩ := hf.1
    obtain ⟨h3,h4⟩ := hc
    have hstart : g'.start = g.start := by omega
    have hend : g'.end_ = g.end_ := by omega
    cases g
    cases g'
    exact congrArg₂ Range.mk hstart hend

/-- One request: the contract is kept exactly when the size fits where there are no spans. -/
lemma allocContract_iff (h : Abstracts sa t m) (hin : Inside sa.range (values t))
    (hu : sa.range.end_ < 2^64) {size : ℕ} (hsize : 0 < size) (value : V) (mem : Option MemoryError) :
    AllocContract sa m size value mem ↔ EmptyFits sa.range sa size := by
  constructor
  · rintro ⟨res,sa',hrun,_,hex⟩ hhead
    have hempty := h.eq_leaf_iff.mp (h.head_iff.mp hhead)
    by_contra hle
    have hno : ∀ g, MaximalGap sa.range m g → g.len < size := by
      intro g hg
      obtain ⟨rfl,_⟩ := (maximalGap_of_empty hempty).mp hg
      simp only [Range.len]
      omega
    have hfind : sa.findGap size = .ok (some sa.range) := by
      unfold SpanAlloc.findGap
      rw [hhead]
      rfl
    exact alloc_ne_exhausted hfind hrun (hex hno).1
  · intro hC
    have hle : t = leaf → size ≤ sa.range.end_ - sa.range.start := fun ht => hC (h.head_iff.mpr ht)
    obtain ⟨res,sa',hrun⟩ := alloc_total h.tree hin hsize hle hu value mem
    refine ⟨res,sa',hrun,fun r hr => ?_,fun hno => ?_⟩
    · rcases alloc_cases h.tree hsize hrun with ⟨_,rfl | ⟨e,_,rfl⟩⟩ | ⟨r',_,rfl,hend,hbeside,_,g,hg,hstart⟩
      · simp at hr
      · simp at hr
      · obtain rfl : r' = r := Except.ok.inj hr
        obtain ⟨h3,h4⟩ := findGap_inside h.tree hin hsize hle hg
        exact ⟨hend,⟨by omega,by omega⟩,fun x hx => hbeside x ((h.spans x).mp hx)⟩
    · by_cases hempty : m.spans = ∅
      · have hfit := hle (h.eq_leaf_iff.mpr hempty)
        have := hno sa.range ((maximalGap_of_empty hempty).mpr ⟨rfl,by omega⟩)
        simp only [Range.len] at this
        omega
      · have hfind := findGap_eq h (Set.nonempty_iff_ne_empty.mpr hempty) hin size
        rw [(firstGap_eq_none_iff h hin hsize).mpr hno] at hfind
        rw [alloc_exhausted hfind] at hrun
        obtain ⟨rfl,rfl⟩ := Prod.mk.inj (Except.ok.inj hrun)
        exact ⟨rfl,rfl⟩

/-- In every run in which every request fits where there are no spans, the live spans are those of
the tree, and inside the range. -/
lemma allocRun_inv {live : Set (Span V)} (h : AllocRun range (EmptyFits range) sa live) :
    ∃ t m, Abstracts sa t m ∧ m.spans = live ∧ sa.range = range ∧ Inside range (values t) := by
  induction h with
  | new heap =>
    have hs : SpanTree view (new heap range : SpanAlloc V).spans leaf :=
      ⟨⟨⟨trivial,rfl,by simp⟩,⟨0,rfl⟩,trivial⟩,SpanView.WF.nil⟩
    have ha := abstracts_of_tree hs
    exact ⟨leaf,_,ha,ha.eq_leaf_iff.mp rfl,rfl,by simp [Inside, values]⟩
  | @alloc sa sa' live size value mem res h hsize hlt hC hrun ih =>
    obtain ⟨t,m,ha,hm,hrange,hin⟩ := ih
    subst hrange
    have hle : t = leaf → size ≤ sa.range.end_ - sa.range.start := fun ht => hC (ha.head_iff.mpr ht)
    rcases alloc_cases ha.tree hsize hrun with ⟨rfl,rfl | ⟨e,_,rfl⟩⟩ | ⟨r,t2,rfl,hend,_,hadd,g,hg,hstart⟩
    · exact ⟨t,m,ha,hm,rfl,hin⟩
    · exact ⟨t,m,ha,hm,rfl,hin⟩
    · obtain ⟨m',ha',hm'⟩ := hadd.abstracts ha.spans
      refine ⟨t2,m',ha',by rw [hm', hm],hadd.range,fun x hx => ?_⟩
      rcases (hadd.mem x).mp hx with rfl | hx
      · obtain ⟨h3,h4⟩ := findGap_inside ha.tree hin hsize hle hg
        simp only
        omega
      · exact hin x hx
  | @free sa sa' live addr r value h hrun ih =>
    obtain ⟨t,m,ha,hm,hrange,hin⟩ := ih
    obtain ⟨x,hx,h1,h2⟩ := free_inv ha.tree hrun
    obtain ⟨sa2,t2,before,after,hf,ht,h3,h4,h5⟩ := free_ok ha.tree hx h1 h2
    obtain ⟨he,rfl⟩ := Prod.mk.inj (Except.ok.inj (hf.symm.trans hrun))
    obtain ⟨rfl,rfl⟩ := Prod.mk.inj he
    obtain ⟨m',ha',hm'⟩ := ha.removed ht h3 h4
    refine ⟨t2,m',ha',by rw [hm', hm],h5.trans hrange,fun y hy => hin y ?_⟩
    rw [h3, mem_of_append]
    exact Or.inr (h4 ▸ hy)

/-- In every run of `alloc` and `free` in which no request made while there are no spans is larger
than the range, every request keeps its contract exactly when it is not of that kind either. -/
theorem alloc_contract_iff (hu : range.end_ < 2^64) {live : Set (Span V)}
    (h : AllocRun range (EmptyFits range) sa live) :
    ∃ t m, Abstracts sa t m ∧ m.spans = live ∧ sa.range = range ∧
      (∀ x ∈ live, range.Contains ⟨x.start,x.end_⟩) ∧
      ∀ (size : ℕ) (value : V) (mem : Option MemoryError), 0 < size → size < 2^64 →
        (AllocContract sa m size value mem ↔ EmptyFits range sa size) := by
  obtain ⟨t,m,ha,rfl,rfl,hin⟩ := allocRun_inv h
  refine ⟨t,m,ha,rfl,rfl,fun x hx => hin x ((ha.spans x).mp hx),?_⟩
  intro size value mem hsize _
  exact allocContract_iff ha hin hu hsize value mem

/-- Requests of an allocator that held one span and holds none again. -/
theorem alloc_contract_iff_freed : ∃ (sa : SpanAlloc ℕ) (t : CTree (ℕ × Span ℕ)) (m : SpanSet ℕ),
    Abstracts sa t m ∧ AllocContract sa m 1000 3 none ∧ ¬ AllocContract sa m 1001 3 none := by
  have hrun : ∃ sa sa' : SpanAlloc ℕ,
      (new ⟨[]⟩ ⟨1000,2000⟩).alloc 10 7 none = .ok (.ok ⟨1000,1010⟩,sa) ∧
      sa.free 1000 = .ok ((⟨1000,1010⟩,7),sa') ∧ sa'.spans.head = none := ⟨_,_,rfl,rfl,rfl⟩
  obtain ⟨sa,sa',h1,h2,hhead⟩ := hrun
  have h0 : AllocRun (V := ℕ) ⟨1000,2000⟩ (EmptyFits ⟨1000,2000⟩) (new ⟨[]⟩ ⟨1000,2000⟩) ∅ := .new _
  have hlast := (h0.alloc (by decide) (by decide) (fun _ => by decide) h1).free h2
  obtain ⟨t,m,ha,_,_,_,hall⟩ := alloc_contract_iff (by decide) hlast
  refine ⟨sa',t,m,ha,?_,?_⟩
  · exact (hall 1000 3 none (by decide) (by decide)).mpr fun _ => by decide
  · intro hc
    exact absurd ((hall 1001 3 none (by decide) (by decide)).mp hc hhead) (by decide)

/-- A new allocator returns a range that is larger than its own. -/
theorem alloc_leaves_range : ¬ ∀ (sa : SpanAlloc Unit) (live : Set (Span Unit)) (t : CTree (ℕ × Span Unit))
    (m : SpanSet Unit) (size : ℕ), AllocRun ⟨1000,1010⟩ (fun _ _ => True) sa live → Abstracts sa t m →
    m.spans = live → 0 < size → size < 2^64 → AllocContract sa m size () none := by
  intro hall
  have h0 : AllocRun (V := Unit) ⟨1000,1010⟩ (fun _ _ => True) (new ⟨[]⟩ ⟨1000,1010⟩) ∅ := .new _
  have ht : SpanTree view (new (V := Unit) ⟨[]⟩ ⟨1000,1010⟩).spans leaf :=
    ⟨⟨⟨trivial,rfl,by simp⟩,⟨0,rfl⟩,trivial⟩,SpanView.WF.nil⟩
  have ha := abstracts_of_tree ht
  obtain ⟨res,sa',hrun,hin,_⟩ := hall _ _ _ _ 20 h0 ha (ha.eq_leaf_iff.mp rfl) (by decide) (by decide)
  have hout : ∃ sa', (new ⟨[]⟩ ⟨1000,1010⟩).alloc 20 () none = .ok (.ok ⟨1000,1020⟩,sa') := ⟨_,rfl⟩
  obtain ⟨sa2,h2⟩ := hout
  obtain ⟨rfl,_⟩ := Prod.mk.inj (Except.ok.inj (h2.symm.trans hrun))
  exact absurd (hin _ rfl).2.1 (by decide)

end Lilith.VirtualAlloc
