import Lilith.VirtualAlloc.Correct

/-! Runs of the span allocator. -/
namespace Lilith.VirtualAlloc
open Theory PtrGraph CTree Rbtree

variable {V : Type} {sa sa' : SpanAlloc V} {range : Range} {R : Range → Prop} {N : ℕ → Prop}

/-- The allocators reachable from an empty one, when only nonempty ranges that satisfy `R` are
inserted and only nonzero sizes that satisfy `N` are allocated. -/
inductive Reach (range : Range) (R : Range → Prop) (N : ℕ → Prop) : SpanAlloc V → Prop
  | new (heap : Heap (Span V) MaxGap) : Reach range R N (new heap range)
  | insert {sa sa' : SpanAlloc V} {r : Range} {value : V} {mem : Option MemoryError}
      {res : Except SpanError Unit} (h : Reach range R N sa) (hr : r.start < r.end_) (hR : R r)
      (hrun : sa.insert r value mem = .ok (res,sa')) : Reach range R N sa'
  | alloc {sa sa' : SpanAlloc V} {size : ℕ} {value : V} {mem : Option MemoryError}
      {res : Except SpanError Range} (h : Reach range R N sa) (hsize : 0 < size) (hN : N size)
      (hrun : sa.alloc size value mem = .ok (res,sa')) : Reach range R N sa'
  | free {sa sa' : SpanAlloc V} {addr : ℕ} {res : Range × V} (h : Reach range R N sa)
      (hrun : sa.free addr = .ok (res,sa')) : Reach range R N sa'

def Range.Contains (outer r : Range) : Prop := outer.start ≤ r.start ∧ r.end_ ≤ outer.end_

instance (outer r : Range) : Decidable (outer.Contains r) := inferInstanceAs (Decidable (_ ∧ _))

lemma mem_of_append {xs ys : List (Span V)} {x y : Span V} :
    y ∈ xs ++ x::ys ↔ y = x ∨ y ∈ xs ++ ys := by
  simp only [List.mem_append, List.mem_cons]
  tauto

lemma Added.mem {t t' : CTree (ℕ × Span V)} {x : Span V} (h : Added sa sa' t x t') (y : Span V) :
    y ∈ values t' ↔ y = x ∨ y ∈ values t := by
  obtain ⟨before,after,h1,h2⟩ := h.split
  rw [h1, h2, mem_of_append]

lemma free_inv {t : CTree (ℕ × Span V)} (hs : SpanTree view sa.spans t) {addr : ℕ} {res : Range × V}
    (h : sa.free addr = .ok (res,sa')) : ∃ x ∈ values t, x.start ≤ addr ∧ addr < x.end_ := by
  rcases find_sideOf hs.valid (.of_wf hs.wf) addr (addr+1) _
      (byContaining_eq (.of_wf hs.wf) addr) with ⟨hf,_⟩ | ⟨x,hx,_,hm⟩
  · unfold SpanAlloc.free at h
    rw [hf] at h
    simp [bind, Except.bind, throw, throwThe, MonadExceptOf.throw] at h
  · obtain ⟨h1,h2⟩ : x.2.start < addr+1 ∧ addr < x.2.end_ := hm
    exact ⟨x.2,mem_values hx,Nat.lt_succ_iff.mp h1,h2⟩

/-- Every reachable allocator is a tree of disjoint spans. Where only parts of the range are
requested, they are inside of it. -/
theorem reach_inv (h : Reach range R N sa) : ∃ t, SpanTree view sa.spans t ∧ sa.range = range ∧
    ((∀ r, R r → range.Contains r) → (∀ n, N n → n ≤ range.end_ - range.start) →
      Inside range (values t)) := by
  induction h with
  | new heap =>
    exact ⟨leaf,⟨⟨⟨trivial,rfl,by simp⟩,⟨0,rfl⟩,trivial⟩,SpanView.WF.nil⟩,rfl,by simp [Inside, values]⟩
  | @insert sa sa' r value mem res h hr hR hrun ih =>
    obtain ⟨t,hs,hrange,hin⟩ := ih
    rcases insert_cases hs hr value mem with ⟨_,hi⟩ | ⟨_,⟨e,_,hi⟩ | ⟨_,sa2,t2,hi,hadd⟩⟩
    · obtain ⟨_,rfl⟩ := Prod.mk.inj (Except.ok.inj (hi.symm.trans hrun))
      exact ⟨t,hs,hrange,hin⟩
    · obtain ⟨_,rfl⟩ := Prod.mk.inj (Except.ok.inj (hi.symm.trans hrun))
      exact ⟨t,hs,hrange,hin⟩
    · obtain ⟨_,rfl⟩ := Prod.mk.inj (Except.ok.inj (hi.symm.trans hrun))
      refine ⟨t2,hadd.tree,hadd.range.trans hrange,fun h1 h2 x hx => ?_⟩
      rcases (hadd.mem x).mp hx with rfl | hx
      · exact h1 r hR
      · exact hin h1 h2 x hx
  | @alloc sa sa' size value mem res h hsize hN hrun ih =>
    obtain ⟨t,hs,hrange,hin⟩ := ih
    rcases alloc_cases hs hsize hrun with ⟨rfl,_⟩ | ⟨r,t2,_,hend,_,hadd,g,hg,hstart⟩
    · exact ⟨t,hs,hrange,hin⟩
    · refine ⟨t2,hadd.tree,hadd.range.trans hrange,fun h1 h2 x hx => ?_⟩
      rcases (hadd.mem x).mp hx with rfl | hx
      · have hle : size ≤ sa.range.end_ - sa.range.start := by rw [hrange]; exact h2 size hN
        obtain ⟨h3,h4⟩ := findGap_inside hs (hrange ▸ hin h1 h2) hsize (fun _ => hle) hg
        rw [hrange] at h3 h4
        simp only
        omega
      · exact hin h1 h2 x hx
  | @free sa sa' addr res h hrun ih =>
    obtain ⟨t,hs,hrange,hin⟩ := ih
    obtain ⟨x,hx,h1,h2⟩ := free_inv hs hrun
    obtain ⟨sa2,t2,before,after,hf,ht,h3,h4,h5⟩ := free_ok hs hx h1 h2
    obtain ⟨_,rfl⟩ := Prod.mk.inj (Except.ok.inj (hf.symm.trans hrun))
    refine ⟨t2,ht,h5.trans hrange,fun h6 h7 y hy => hin h6 h7 y ?_⟩
    rw [h3, mem_of_append]
    exact Or.inr (h4 ▸ hy)

/-- The allocator holds the spans of the set `m`: in order in a valid tree, each span ending
before the next one starts, with the augment value of every node that of its subtree. -/
structure Abstracts (sa : SpanAlloc V) (t : CTree (ℕ × Span V)) (m : SpanSet V) : Prop where
  tree : SpanTree view sa.spans t
  spans : ∀ x, x ∈ m.spans ↔ x ∈ values t
  gaps : ∀ (k : Ctx (ℕ × Span V)) c l x r, k.fill (node c l x r) = t →
    ∃ n, sa.spans.heap.get? x.1 = some n ∧ n.augment = summary (values (node c l x r))

/-- What the operations do to the set of spans. -/
structure Behaves (sa : SpanAlloc V) (m : SpanSet V) : Prop where
  /-- `insert` of a range inside the allocator's -/
  insert : ∀ (r : Range) (value : V) (mem : Option MemoryError), r.start < r.end_ →
    sa.range.Contains r →
    ((∃ x ∈ m.spans, Meets x r) → sa.insert r value mem = .ok (.error .overlapped,sa)) ∧
    ((∀ x ∈ m.spans, ¬ Meets x r) → ∀ e, mem = some e →
      sa.insert r value mem = .ok (.error (.memory e),sa)) ∧
    ((∀ x ∈ m.spans, ¬ Meets x r) → mem = none → ∃ sa' t' m',
      sa.insert r value mem = .ok (.ok (),sa') ∧ Abstracts sa' t' m' ∧
      m'.spans = m.spans ∪ {⟨r.start,r.end_,value⟩})
  /-- `alloc` of a size that is not larger than the range -/
  alloc : ∀ (size : ℕ) (value : V) (mem : Option MemoryError), 0 < size →
    size ≤ sa.range.end_ - sa.range.start →
    sa.alloc size value mem = .ok (.error .exhausted,sa) ∨
    (∃ e, mem = some e ∧ sa.alloc size value mem = .ok (.error (.memory e),sa)) ∨
    ∃ r sa' t' m', sa.alloc size value mem = .ok (.ok r,sa') ∧ r.end_ = r.start + size ∧
      sa.range.Contains r ∧ (∀ x ∈ m.spans, ¬ Meets x r) ∧ Abstracts sa' t' m' ∧
      m'.spans = m.spans ∪ {⟨r.start,r.end_,value⟩}
  /-- `span_containing` -/
  containing : ∀ addr, (∀ x ∈ m.spans, x.start ≤ addr → addr < x.end_ →
      sa.spanContaining addr = .ok (some x.value)) ∧
    ((∀ x ∈ m.spans, ¬ (x.start ≤ addr ∧ addr < x.end_)) → sa.spanContaining addr = .ok none)
  /-- `free` of an address in a span -/
  free : ∀ x ∈ m.spans, ∀ addr, x.start ≤ addr → addr < x.end_ → ∃ sa' t' m',
    sa.free addr = .ok ((⟨x.start,x.end_⟩,x.value),sa') ∧ Abstracts sa' t' m' ∧
    m'.spans = m.spans \ {x}

lemma abstracts_of_tree {t : CTree (ℕ × Span V)} (hs : SpanTree view sa.spans t) :
    Abstracts sa t (spanSet (values t) hs.wf) where
  tree := hs
  spans _ := Iff.rfl
  gaps k c l x r hk := by
    have hx : x ∈ t.toList := by rw [← hk, Ctx.mem_fill]; simp
    obtain ⟨n,w,hn,_,hw,hav⟩ := hs.valid.node_of_mem hx
    have hg := childGap_ok hs hk
    simp only [childGap, ptr_node, deref_eq hn, hw, bind, Except.bind, pure, Except.pure] at hg
    refine ⟨n,hn,?_⟩
    have haug : n.augment = some w := by rw [← hav]; simp [Heap.aug, hn]
    rw [haug]
    exact Except.ok.inj hg

lemma Added.abstracts {t t' : CTree (ℕ × Span V)} {x : Span V} {m : SpanSet V}
    (h : Added sa sa' t x t') (hm : ∀ y, y ∈ m.spans ↔ y ∈ values t) :
    ∃ m', Abstracts sa' t' m' ∧ m'.spans = m.spans ∪ {x} := by
  refine ⟨_,abstracts_of_tree h.tree,?_⟩
  ext y
  have hy := h.mem y
  simp only [spanSet, Set.mem_ofPred_eq, Set.mem_union, Set.mem_singleton_iff, hm]
  tauto

lemma Abstracts.removed {t t' : CTree (ℕ × Span V)} {m : SpanSet V} (h : Abstracts sa t m)
    {x : Span V} {before after : List (Span V)} (ht' : SpanTree view sa'.spans t') (h1 : values t = before ++ x::after)
    (h2 : values t' = before ++ after) : ∃ m', Abstracts sa' t' m' ∧ m'.spans = m.spans \ {x} := by
  refine ⟨_,abstracts_of_tree ht',?_⟩
  have hnd : (before ++ x::after).Nodup := by
    rw [← h1]
    exact h.tree.wf.lo_lt.imp fun {y z} hyz he => by simp [he] at hyz
  have hout := (List.nodup_cons.mp (List.nodup_middle.mp hnd)).1
  ext y
  simp only [spanSet, Set.mem_ofPred_eq, Set.mem_sdiff, Set.mem_singleton_iff, h.spans, h1, h2,
    mem_of_append]
  constructor
  · intro hy
    exact ⟨Or.inr hy,by rintro rfl; exact hout hy⟩
  · rintro ⟨rfl | hy,hne⟩
    · exact absurd rfl hne
    · exact hy

/-- Every allocator reached by requests inside its range is a set of disjoint spans, and its
operations act on that set. -/
theorem span_alloc_refines (hu : range.end_ < 2^64)
    (h : Reach range range.Contains (· ≤ range.end_ - range.start) sa) :
    ∃ t m, Abstracts sa t m ∧ sa.range = range ∧ (∀ x ∈ m.spans, range.Contains ⟨x.start,x.end_⟩) ∧
      Behaves sa m := by
  obtain ⟨t,hs,hrange,hin⟩ := reach_inv h
  have hin : Inside sa.range (values t) := hrange ▸ hin (fun _ h => h) (fun _ h => h)
  refine ⟨t,_,abstracts_of_tree hs,hrange,fun x hx => hrange ▸ hin x hx,?_,?_,?_,?_⟩
  · intro r value mem hr _
    rcases insert_cases hs hr value mem with ⟨hm,hi⟩ | ⟨hno,hrest⟩
    · refine ⟨fun _ => hi,fun hno => ?_,fun hno => ?_⟩
      all_goals
        obtain ⟨x,hx,hmx⟩ := hm
        exact absurd hmx (hno x hx)
    · refine ⟨?_,fun _ e he => ?_,fun _ he => ?_⟩
      · rintro ⟨x,hx,hmx⟩
        exact absurd hmx (hno x hx)
      · rcases hrest with ⟨e',he',hi⟩ | ⟨he',_⟩
        · obtain rfl : e' = e := Option.some.inj (he'.symm.trans he)
          exact hi
        · simp [he] at he'
      · rcases hrest with ⟨e',he',_⟩ | ⟨_,sa',t',hi,hadd⟩
        · simp [he] at he'
        · obtain ⟨m',h1,h2⟩ := hadd.abstracts (abstracts_of_tree hs).spans
          exact ⟨sa',t',m',hi,h1,h2⟩
  · intro size value mem hsize hle
    obtain ⟨res,sa',hrun⟩ := alloc_total hs hin hsize (fun _ => hle) (hrange ▸ hu) value mem
    rcases alloc_cases hs hsize hrun with ⟨rfl,rfl | ⟨e,he,rfl⟩⟩ | ⟨r,t',rfl,hend,hno,hadd,g,hg,hstart⟩
    · exact Or.inl hrun
    · exact Or.inr (Or.inl ⟨e,he,hrun⟩)
    · obtain ⟨h3,h4⟩ := findGap_inside hs hin hsize (fun _ => hle) hg
      obtain ⟨m',h1,h2⟩ := hadd.abstracts (abstracts_of_tree hs).spans
      exact Or.inr (Or.inr ⟨r,sa',t',m',hrun,hend,⟨by omega,by omega⟩,hno,h1,h2⟩)
  · intro addr
    rw [spanContaining_ok hs]
    constructor
    · intro x hx h1 h2
      exact congrArg Except.ok (hs.wf.lookup_of_mem hx ⟨h1,h2⟩)
    · intro hno
      exact congrArg Except.ok (SpanView.lookup_eq_none.mpr hno)
  · intro x hx addr h1 h2
    obtain ⟨sa',t',before,after,hf,ht,h3,h4,_⟩ := free_ok hs hx h1 h2
    obtain ⟨m',ha',hm'⟩ := (abstracts_of_tree hs).removed ht h3 h4
    exact ⟨sa',t',m',hf,ha',hm'⟩

theorem span_alloc_refines_one : ∃ (sa : SpanAlloc ℕ) (t : CTree (ℕ × Span ℕ)) (m : SpanSet ℕ),
    (new ⟨[]⟩ ⟨1000,2000⟩).alloc 10 7 none = .ok (.ok ⟨1000,1010⟩,sa) ∧ Abstracts sa t m ∧
      Behaves sa m := by
  have h0 : Reach (V := ℕ) ⟨1000,2000⟩ (Range.Contains ⟨1000,2000⟩) (· ≤ 2000-1000)
    (new ⟨[]⟩ ⟨1000,2000⟩) := .new _
  have hrun : ∃ sa, (new ⟨[]⟩ ⟨1000,2000⟩).alloc 10 7 none = .ok (.ok ⟨1000,1010⟩,sa) := ⟨_,rfl⟩
  obtain ⟨sa,hsa⟩ := hrun
  obtain ⟨t,m,h2,_,_,h3⟩ := span_alloc_refines (by decide)
    (h0.alloc (by decide) (by decide) hsa)
  exact ⟨sa,t,m,hsa,h2,h3⟩

/-- What `insert` is to do with a range: report one that is not inside the allocator's range or
that meets a span, and else store it; an error changes nothing. -/
def InsertContract (sa : SpanAlloc V) (m : SpanSet V) (r : Range) (value : V)
    (mem : Option MemoryError) (res : Except SpanError Unit) (sa' : SpanAlloc V) : Prop :=
  (res = .error .invalidAddress ↔ ¬ sa.range.Contains r) ∧
  (res = .error .overlapped ↔ sa.range.Contains r ∧ ∃ x ∈ m.spans, Meets x r) ∧
  (sa.range.Contains r → (∀ x ∈ m.spans, ¬ Meets x r) → mem = none → res = .ok () ∧
    ∃ t' m', Abstracts sa' t' m' ∧ m'.spans = m.spans ∪ {⟨r.start,r.end_,value⟩}) ∧
  (res ≠ .ok () → sa' = sa)

def addMappings (as : UserAddressSpace) (rs : List (Range × Option MemoryError)) :
    Except Fault UserAddressSpace := rs.foldlM (fun as r => as.addMapping r.1 r.2) as

/-- `insert` keeps its contract exactly on ranges inside the allocator's range. -/
lemma insert_contract {t : CTree (ℕ × Span V)} {m : SpanSet V} (ha : Abstracts sa t m) {r : Range}
    (hr : r.start < r.end_) (value : V) (mem : Option MemoryError) :
    ∃ res sa', sa.insert r value mem = .ok (res,sa') ∧
      (InsertContract sa m r value mem res sa' ↔ sa.range.Contains r) := by
  have hm : ∀ {P : Span V → Prop}, (∃ x ∈ values t, P x) ↔ ∃ x ∈ m.spans, P x := by
    intro P
    simp only [ha.spans]
  -- the code never reports an invalid address
  have hvalid : ∀ res sa', res ≠ .error .invalidAddress → InsertContract sa m r value mem res sa' →
      sa.range.Contains r := by
    intro res sa' hne hc
    by_contra hn
    exact hne (hc.1.mpr hn)
  rcases insert_cases ha.tree hr value mem with ⟨hmeet,hi⟩ | ⟨hno,⟨e,he,hi⟩ | ⟨he,sa',t',hi,hadd⟩⟩
  · refine ⟨_,_,hi,hvalid _ _ (by simp),fun hc => ⟨by simp [hc],?_,fun _ hno => ?_,fun _ => rfl⟩⟩
    · exact ⟨fun _ => ⟨hc,hm.mp hmeet⟩,fun _ => rfl⟩
    · obtain ⟨x,hx,hmx⟩ := hm.mp hmeet
      exact absurd hmx (hno x hx)
  · refine ⟨_,_,hi,hvalid _ _ (by simp),fun hc => ⟨by simp [hc],?_,?_,fun _ => rfl⟩⟩
    · refine ⟨by simp,?_⟩
      rintro ⟨_,hmeet⟩
      obtain ⟨x,hx,hmx⟩ := hm.mpr hmeet
      exact absurd hmx (hno x hx)
    · intro _ _ hnone
      simp [he] at hnone
  · refine ⟨_,_,hi,hvalid _ _ (by simp),fun hc => ⟨by simp [hc],?_,?_,by simp⟩⟩
    · refine ⟨by simp,?_⟩
      rintro ⟨_,hmeet⟩
      obtain ⟨x,hx,hmx⟩ := hm.mpr hmeet
      exact absurd hmx (hno x hx)
    · intro _ _ _
      obtain ⟨m',h1,h2⟩ := hadd.abstracts ha.spans
      exact ⟨rfl,t',m',h1,h2⟩

lemma addMappings_spans {rs : List (Range × Option MemoryError)} (hr : ∀ r ∈ rs, r.1.start < r.1.end_)
    {as as' : UserAddressSpace} {t : CTree (ℕ × Span Unit)} {m : SpanSet Unit}
    (ha : Abstracts as.mappings t m) (hrun : addMappings as rs = .ok as') :
    ∃ t' m', Abstracts as'.mappings t' m' ∧ ∀ x, x ∈ m'.spans ↔ x ∈ m.spans ∨
      ∃ r ∈ rs, x = ⟨r.1.start,r.1.end_,()⟩ := by
  induction rs generalizing as t m with
  | nil =>
    obtain rfl : as = as' := Except.ok.inj hrun
    exact ⟨t,m,ha,by simp⟩
  | cons r rs ih =>
    have hr0 := hr r (by simp)
    change (as.addMapping r.1 r.2 >>= fun as => addMappings as rs) = .ok as' at hrun
    unfold UserAddressSpace.addMapping at hrun
    rcases insert_cases ha.tree hr0 () r.2 with ⟨_,hi⟩ | ⟨_,⟨e,_,hi⟩ | ⟨_,sa2,t2,hi,hadd⟩⟩
    · rw [hi] at hrun
      simp [bind, Except.bind, throw, throwThe, MonadExceptOf.throw] at hrun
    · rw [hi] at hrun
      simp [bind, Except.bind, throw, throwThe, MonadExceptOf.throw] at hrun
    · rw [hi] at hrun
      obtain ⟨m2,h1,h2⟩ := hadd.abstracts ha.spans
      have h1 : Abstracts (UserAddressSpace.mk sa2).mappings t2 m2 := h1
      obtain ⟨t',m',h3,h4⟩ := ih (fun r' hr' => hr r' (by simp [hr'])) h1 hrun
      refine ⟨t',m',h3,fun x => ?_⟩
      rw [h4, h2]
      simp only [Set.mem_union, Set.mem_singleton_iff, List.mem_cons, exists_eq_or_imp]
      tauto

/-- For every reachable allocator and every nonempty range, `insert` does what it is to do exactly
when the range is inside the allocator's range; and the mappings of a user address space are all
below `2^48` exactly when all ranges it was asked to map are. -/
theorem insert_contract_iff (h : Reach range R N sa) :
    (∃ t m, Abstracts sa t m ∧ ∀ (r : Range) (value : V) (mem : Option MemoryError),
      r.start < r.end_ → ∃ res sa', sa.insert r value mem = .ok (res,sa') ∧
        (InsertContract sa m r value mem res sa' ↔ sa.range.Contains r)) ∧
    ∀ (heap : Heap (Span Unit) MaxGap) (rs : List (Range × Option MemoryError))
      (as : UserAddressSpace), (∀ r ∈ rs, r.1.start < r.1.end_) →
      addMappings (.new heap) rs = .ok as → ∃ t m, Abstracts as.mappings t m ∧
        ((∀ x ∈ m.spans, Range.Contains ⟨0,2^48⟩ ⟨x.start,x.end_⟩) ↔
          ∀ r ∈ rs, Range.Contains ⟨0,2^48⟩ r.1) := by
  constructor
  · obtain ⟨t,hs,_,_⟩ := reach_inv h
    have ha := abstracts_of_tree hs
    exact ⟨t,_,ha,fun r value mem hr => insert_contract ha hr value mem⟩
  · intro heap rs as hr hrun
    obtain ⟨t,hs,_,_⟩ := reach_inv
      (Reach.new heap : Reach (V := Unit) ⟨0,2^48⟩ (fun _ => True) (fun _ => True) _)
    have hempty : t = leaf := by
      have hhead : (none : Ptr) = t.ptr := hs.valid.focus.hole_eq
      cases t with
      | leaf => rfl
      | node c l x r => simp at hhead
    have ha : Abstracts (UserAddressSpace.new heap).mappings t _ := abstracts_of_tree hs
    obtain ⟨t',m',h1,h2⟩ := addMappings_spans hr ha hrun
    refine ⟨t',m',h1,?_⟩
    subst hempty
    have hspans : ∀ x, x ∈ m'.spans ↔ ∃ r ∈ rs, x = ⟨r.1.start,r.1.end_,()⟩ := by
      intro x
      rw [h2]
      simp [spanSet, values]
    simp only [hspans]
    constructor
    · intro hall r hr'
      exact hall _ ⟨r,hr',rfl⟩
    · rintro hall x ⟨r,hr',rfl⟩
      exact hall r hr'

/-- A range in the upper half, given to an address space with no mappings. -/
theorem insert_contract_iff_kernel : ∃ t m,
    Abstracts (UserAddressSpace.new ⟨[]⟩).mappings t m ∧ ∃ res sa',
      (UserAddressSpace.new ⟨[]⟩).mappings.insert ⟨0xffff800000000000,0xffff800000001000⟩ () none =
        .ok (res,sa') ∧
      (InsertContract (UserAddressSpace.new ⟨[]⟩).mappings m
          ⟨0xffff800000000000,0xffff800000001000⟩ () none res sa' ↔
        Range.Contains ⟨0,2^48⟩ ⟨0xffff800000000000,0xffff800000001000⟩) := by
  have h : Reach (V := Unit) ⟨0,2^48⟩ (fun _ => True) (fun _ => True)
    (UserAddressSpace.new ⟨[]⟩).mappings := .new _
  obtain ⟨⟨t,m,h1,h2⟩,_⟩ := insert_contract_iff h
  exact ⟨t,m,h1,h2 _ () none (by decide)⟩

/-- The address space accepts a range in the upper half. -/
theorem insert_accepts_kernel_range : ¬ ∀ (sa : SpanAlloc Unit) (t : CTree (ℕ × Span Unit))
    (m : SpanSet Unit) (r : Range) (res : Except SpanError Unit) (sa' : SpanAlloc Unit),
    Reach ⟨0,2^48⟩ (fun _ => True) (fun _ => True) sa → Abstracts sa t m → r.start < r.end_ →
    sa.insert r () none = .ok (res,sa') → InsertContract sa m r () none res sa' := by
  intro hall
  have h0 : Reach (V := Unit) ⟨0,2^48⟩ (fun _ => True) (fun _ => True) (new ⟨[]⟩ ⟨0,2^48⟩) := .new _
  have ht : SpanTree view (new (V := Unit) ⟨[]⟩ ⟨0,2^48⟩).spans leaf :=
    ⟨⟨⟨trivial,rfl,by simp⟩,⟨0,rfl⟩,trivial⟩,SpanView.WF.nil⟩
  have hrun : ∃ sa', (new ⟨[]⟩ ⟨0,2^48⟩).insert ⟨0xffff800000000000,0xffff800000001000⟩ () none =
    .ok (.ok (),sa') := ⟨_,rfl⟩
  obtain ⟨sa',hrun⟩ := hrun
  have hc := hall _ _ _ ⟨0xffff800000000000,0xffff800000001000⟩ _ _ h0 (abstracts_of_tree ht)
    (by decide) hrun
  have hno : ¬ Range.Contains ⟨0,2^48⟩ ⟨0xffff800000000000,0xffff800000001000⟩ := by decide
  exact absurd (hc.1.mpr hno) (by simp)

end Lilith.VirtualAlloc
