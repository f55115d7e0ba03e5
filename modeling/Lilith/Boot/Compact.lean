import Lilith.Boot.Slots

/-! `compact` joins neighbouring spans of the same type, and `insert` calls it when there is no
free slot. Neither changes the type of an address, other than that `insert` sets the new span. -/
namespace Lilith.Boot
open Theory PtrGraph CTree Rbtree

variable {n : ℕ} {b : BootAlloc} {t : CTree (ℕ × Span)} {fl : List ℕ}

/-- The joint span of two spans, where `compact` joins them. -/
def glue (x y : Span) : Option Span :=
  if x.spanType = y.spanType ∧ x.end_ = y.start then some ⟨x.start,y.end_,x.spanType⟩ else none

lemma glue_glues : view.Glues glue where
  touch {x y z} h := by
    unfold glue at h
    split at h
    · next hc => exact ⟨hc.2,hc.1⟩
    · simp at h
  joint {x y z} h := by
    unfold glue at h
    split at h
    · obtain rfl := Option.some.inj h
      exact ⟨rfl,rfl,rfl⟩
    · simp at h
  apart {x y} h := by
    unfold glue at h
    split at h
    · simp at h
    · next hc => exact fun ht hv => hc ⟨hv,ht⟩

/-- One join: the two nodes are taken out, and the first one is put back with the joint span. -/
lemma Valid.join (h : Valid n b t fl []) {before after : List (ℕ × Span)} {x y : ℕ × Span} {z : Span}
    (ht : t.toList = before ++ x::y::after) (hz : glue x.2 y.2 = some z) :
    ∃ tree span b1 b2 t2, b.tree.removeRaw (some x.1) = .ok tree ∧
      { b with tree := tree }.remove y.1 = .ok (span,b1) ∧
      (b1.writeNode x.1 z).insertTree x.1 = .ok b2 ∧ Valid n b2 t2 (y.1::fl) [] ∧
      t2.toList = before ++ (x.1,z)::after := by
  have hnd : ((before ++ x::y::after).map Prod.fst).Nodup := ht ▸ h.tree.valid.focus.nodup_tree
  obtain ⟨tree,t1,bs,as,h1,hv1,h2,h3⟩ := h.removeTree (show x ∈ t.toList by simp [ht])
  obtain ⟨rfl,rfl⟩ := split_unique hnd (ht.symm.trans h2)
  have hnd1 : ((before ++ y::after).map Prod.fst).Nodup := h3 ▸ hv1.tree.valid.focus.nodup_tree
  obtain ⟨b1,t2,bs,as,h4,hv2,h5,h6⟩ := hv1.remove (show y ∈ t1.toList by simp [h3])
  obtain ⟨rfl,rfl⟩ := split_unique hnd1 (h3.symm.trans h5)
  -- the joint span fits in the place of the two
  have hw : view.WF (before.map Prod.snd ++ x.2::y.2::after.map Prod.snd) := by
    have := h.tree.wf
    simpa [values, ht] using this
  have hw' := glue_glues.wf hz hw
  obtain ⟨hlo,hhi,_⟩ := glue_glues.joint hz
  have hfree : ∀ p, z.start ≤ p → p < z.end_ → denote view t2 p = none := by
    intro p hp1 hp2
    unfold denote
    rw [values_eq_append h6, hw'.lookup_remove]
    exact if_pos ⟨hp1,hp2⟩
  have hb : z.end_ < 2^64 := by
    have hhi : z.end_ = y.2.end_ := hhi
    rw [hhi]
    exact h.bounded y.2 (mem_values (by simp [ht]))
  obtain ⟨hv3,hget⟩ := hv2.writeNode z
  obtain ⟨b2,t3,bs,as,h7,hv4,h8,h9⟩ := hv3.insertTree hget (hw'.proper z (by simp)) hb hfree
  refine ⟨tree,y.2,b1,b2,t3,h1,h4,h7,hv4,?_⟩
  -- the order of the spans leaves one place for it
  have hw3 : view.WF (bs.map Prod.snd ++ z::as.map Prod.snd) := by
    have := hv4.tree.wf
    simpa [values, h9] using this
  have heq : before ++ after = bs ++ as := h6.symm.trans h8
  have hmap : before.map Prod.snd ++ after.map Prod.snd = bs.map Prod.snd ++ as.map Prod.snd := by
    rw [← List.map_append, ← List.map_append, heq]
  have hlen := congrArg List.length (hw'.split_unique hmap hw3).1
  obtain ⟨rfl,rfl⟩ := List.append_inj heq (by simpa using hlen)
  exact h9

/-- A round of the loop of `compact` at a node that is not the last one. -/
lemma compactLoop_run (fuel : ℕ) {a s : ℕ} {x y : RbNode Span MaxFree} (hsucc : b.tree.heap.successor (some a) = .ok (some s))
    (hx : b.tree.heap.deref (some a) = .ok x) (hy : b.tree.heap.deref (some s) = .ok y) :
    BootAlloc.compactLoop (fuel+1) b a =
      if x.value.spanType = y.value.spanType ∧ x.value.end_ = y.value.start then do
        let tree ← b.tree.removeRaw (some a)
        let (_,b1) ← { b with tree := tree }.remove s
        let b2 ← (b1.writeNode a ⟨x.value.start,y.value.end_,x.value.spanType⟩).insertTree a
        BootAlloc.compactLoop fuel b2 a
      else BootAlloc.compactLoop fuel b s := by
  simp only [BootAlloc.compactLoop, hsucc, bind, Except.bind, hx, hy]

/-- The loop of `compact` from a node on. -/
lemma Valid.compactLoop (fuel : ℕ) (h : Valid n b t fl []) {before after : List (ℕ × Span)}
    {x : ℕ × Span} (ht : t.toList = before ++ x::after) (hf : after.length < fuel) :
    ∃ b' t' fl', BootAlloc.compactLoop fuel b x.1 = .ok b' ∧ Valid n b' t' fl' [] ∧
      values t' = before.map Prod.snd ++ SpanView.glueFrom glue x.2 (after.map Prod.snd) ∧
      fl.length ≤ fl'.length := by
  induction fuel generalizing b t fl before x after with
  | zero => omega
  | succ fuel ih =>
    have hsucc := h.tree.valid.successor ht
    cases after with
    | nil =>
      refine ⟨b,t,fl,?_,h,by simp [values, ht, SpanView.glueFrom],le_rfl⟩
      simp only [BootAlloc.compactLoop, hsucc, bind, Except.bind, pure, Except.pure]
      rfl
    | cons y after =>
      obtain ⟨nx,_,hnx,hvx,_⟩ := h.tree.valid.node_of_mem (show x ∈ t.toList by simp [ht])
      obtain ⟨ny,_,hny,hvy,_⟩ := h.tree.valid.node_of_mem (show y ∈ t.toList by simp [ht])
      rw [List.length_cons] at hf
      have hrun := compactLoop_run fuel (hsucc.trans rfl) (deref_eq hnx) (deref_eq hny)
      rw [hvx, hvy] at hrun
      by_cases hc : x.2.spanType = y.2.spanType ∧ x.2.end_ = y.2.start
      · have hz : glue x.2 y.2 = some ⟨x.2.start,y.2.end_,x.2.spanType⟩ := if_pos hc
        obtain ⟨tree,span,b1,b2,t2,h1,h2,h3,hv,hl⟩ := h.join ht hz
        obtain ⟨b',t',fl',h4,h5,h6,h7⟩ := ih hv hl (by omega)
        refine ⟨b',t',fl',?_,h5,?_,?_⟩
        · rw [hrun, if_pos hc]
          simp only [h1, h2, h3, bind, Except.bind]
          exact h4
        · rw [h6, List.map_cons, SpanView.glueFrom, hz]
        · rw [List.length_cons] at h7
          omega
      · have hz : glue x.2 y.2 = none := if_neg hc
        obtain ⟨b',t',fl',h4,h5,h6,h7⟩ := ih h
          (show t.toList = (before ++ [x]) ++ y::after by simp [ht]) (by omega)
        refine ⟨b',t',fl',by rw [hrun, if_neg hc, h4],h5,?_,h7⟩
        rw [h6, List.map_cons, SpanView.glueFrom, hz]
        simp

/-- How the spans `xs` come from the spans `ys` by joining some: each one ends where one of those
with the same type ends that it covers. -/
def Covers (xs ys : List Span) : Prop := ∀ z ∈ xs, ∃ w ∈ ys, w.end_ = z.end_ ∧
  w.spanType = z.spanType ∧ z.start ≤ w.start

lemma Covers.refl (xs : List Span) : Covers xs xs := fun z hz => ⟨z,hz,rfl,rfl,le_rfl⟩

/-- `compact` keeps the type of every address, and afterwards no span can be joined with the next. -/
theorem Valid.compact (h : Valid n b t fl []) : ∃ b' t' fl', b.compact = .ok b' ∧
    Valid n b' t' fl' [] ∧ denote view t' = denote view t ∧ Covers (values t') (values t) ∧
    fl.length ≤ fl'.length ∧
    (∀ x ∈ values t', denote view t' x.end_ ≠ some x.spanType) ∧
    ∀ x ∈ values t', ∃ w ∈ values t, w.start = x.start := by
  have hlow := h.tree.valid.lowestNodeRaw
  cases ht : t.toList with
  | nil =>
    rw [ht] at hlow
    have hval : values t = [] := by simp [values, ht]
    refine ⟨b,t,fl,?_,h,rfl,Covers.refl _,le_rfl,by simp [hval],fun x hx => ⟨x,hx,rfl⟩⟩
    simp only [BootAlloc.compact, hlow, bind, Except.bind]
    rfl
  | cons x after =>
    rw [ht] at hlow
    have hfuel : after.length < b.tree.heap.bound := by
      have hb := h.lt_bound
      rw [ht, List.length_cons] at hb
      omega
    obtain ⟨b',t',fl',h1,h2,h3,h4⟩ := h.compactLoop _ (show t.toList = [] ++ x::after from ht) hfuel
    have hval : values t = x.2::after.map Prod.snd := by simp [values, ht]
    have hw := h.tree.wf
    rw [hval, ← List.nil_append (x.2::_)] at hw
    simp only [List.map_nil, List.nil_append] at h3
    have hden : denote view t' = denote view t := by
      unfold denote
      rw [h3, hval]
      exact (glue_glues.glueFrom_ok hw).2
    refine ⟨b',t',fl',?_,h2,hden,?_,h4,fun z hz => ?_,fun z hz => ?_⟩
    · simp only [BootAlloc.compact, hlow, bind, Except.bind, List.head?_cons, Option.map_some]
      exact h1
    · intro z hz
      rw [hval]
      rw [h3] at hz
      exact glue_glues.exists_of_mem (List.nil_append (x.2::_) ▸ hw) hz
    · rw [hden]
      rw [h3] at hz
      unfold denote
      rw [hval]
      exact glue_glues.maximal hw hz
    · rw [h3] at hz
      have hstart : ∀ x y z, glue x y = some z → z.start = x.start := fun x y z hg => (glue_glues.joint hg).1
      have hsub := SpanView.glueFrom_sublist Span.start hstart x.2 (after.map Prod.snd)
      rw [hval]
      exact List.mem_map.mp (hsub.subset (List.mem_map_of_mem hz))

/-- The allocator after `insert` of a span: the types of the addresses, and the other spans. -/
structure Inserted (n : ℕ) (t : CTree (ℕ × Span)) (fl : List ℕ) (span : Span) (b' : BootAlloc)
    (t' : CTree (ℕ × Span)) (fl' : List ℕ) : Prop where
  valid : Valid n b' t' fl' []
  denote : denote view t' = paint (denote view t) span.start span.end_ (some span.spanType)
  covers : ∀ z ∈ values t', z = span ∨ ∃ w ∈ values t, w.end_ = z.end_ ∧
    w.spanType = z.spanType ∧ z.start ≤ w.start
  starts : ∀ z ∈ values t', z = span ∨ ∃ w ∈ values t, w.start = z.start
  free : fl.length ≤ fl'.length + 1

/-- `insert` of a span in a free place succeeds, unless there is no slot and none can be gained. -/
theorem Valid.insert (h : Valid n b t fl []) (span : Span) (hlt : span.start < span.end_)
    (hb : span.end_ < 2^64) (hfree : ∀ p, span.start ≤ p → p < span.end_ → denote view t p = none) :
    Outcome (b.insert span) (fun e => e = BootAlloc.ranOut ∧ fl = [])
      fun b' => ∃ t' fl', Inserted n t fl span b' t' fl' := by
  have hslot : ∀ {b1 : BootAlloc} {t1 : CTree (ℕ × Span)} {a : ℕ} {fl1 : List ℕ},
      Valid n b1 t1 (a::fl1) [] → denote view t1 = denote view t → Covers (values t1) (values t) →
      (∀ z ∈ values t1, ∃ w ∈ values t, w.start = z.start) → fl.length ≤ fl1.length + 1 → ∃ b' t' fl', b1.insertSlot span = .ok b' ∧
        Inserted n t fl span b' t' fl' := by
    intro b1 t1 a fl1 hv hd hc hs hl
    obtain ⟨b',t',before,after,h1,h2,h3,h4⟩ := hv.insertSlot hlt hb (by rw [hd]; exact hfree)
    have hmem : ∀ z ∈ values t', z = span ∨ z ∈ values t1 := fun z hz => by
      rw [values_eq_append h4, List.map_cons, List.mem_append, List.mem_cons] at hz
      rw [values_eq_append h3, List.mem_append]
      tauto
    refine ⟨b',t',fl1,h1,h2,?_,fun z hz => ?_,fun z hz => ?_,hl⟩
    · rw [← hd]
      exact h2.tree.denote_insert h3 h4
    · exact (hmem z hz).imp_right (hc z)
    · exact (hmem z hz).imp_right (hs z)
  cases fl with
  | nil =>
    have hnone : b.freeNode = none := h.list
    obtain ⟨b1,t1,fl1,h1,h2,h3,h4,_,_,hs⟩ := h.compact
    cases fl1 with
    | nil =>
      have hnone1 : b1.freeNode = none := h2.list
      have hrun : b.insert span = .error BootAlloc.ranOut := by
        simp only [BootAlloc.insert, hnone, h1, bind, Except.bind, hnone1, Option.isNone_none, if_true]
        rfl
      rw [hrun]
      exact ⟨rfl,rfl⟩
    | cons a fl1 =>
      have hsome : b1.freeNode = some a := h2.list.1
      obtain ⟨b',t',fl',h5,h6⟩ := hslot h2 h3 h4 hs (by simp)
      refine Outcome.of_eq ?_ ⟨t',fl',h6⟩
      simp only [BootAlloc.insert, hnone, h1, bind, Except.bind, hsome, Option.isNone_none, if_true,
        Option.isNone_some, Bool.false_eq_true, if_false]
      exact h5
  | cons a fl =>
    have hsome : b.freeNode = some a := h.list.1
    obtain ⟨b',t',fl',h5,h6⟩ := hslot h rfl (Covers.refl _) (fun z hz => ⟨z,hz,rfl⟩) (by simp)
    refine Outcome.of_eq ?_ ⟨t',fl',h6⟩
    simp only [BootAlloc.insert, hsome, bind, Except.bind, Option.isNone_some, Bool.false_eq_true,
      if_false]
    exact h5

end Lilith.Boot
