import Lilith.Rbtree.Lookup

/-! Trees of disjoint spans, ordered by their lower ends. Searching, inserting and removing act on
the map from points to values that the spans denote. -/
namespace Lilith.Rbtree
open Theory PtrGraph CTree Std

variable {T V A W : Type} [LinearOrder A] {v : SpanView A T W} {tr : RbTree T V}
  {t t' : CTree (ℕ × T)}

/-- The augmentation does not fault on any tree of disjoint spans. -/
def Computes (V : Type) [Augment T V] (v : SpanView A T W) : Prop :=
  ∀ t : CTree (ℕ × T), v.WF (values t) → ∃ w : Option V, augOf t = .ok w

/-- A valid tree whose values are disjoint spans in order. -/
structure SpanTree [Augment T V] (v : SpanView A T W) (tr : RbTree T V) (t : CTree (ℕ × T)) :
    Prop where
  valid : tr.Valid t
  wf : v.WF (values t)

/-- The map a tree of spans denotes. -/
def denote (v : SpanView A T W) (t : CTree (ℕ × T)) : A → Option W := v.lookup (values t)

@[simp] theorem values_eq_append {before after : List (ℕ × T)} (h : t.toList = before ++ after) :
    values t = before.map Prod.snd ++ after.map Prod.snd := by simp [values, h]

lemma mem_values {x : ℕ × T} (h : x ∈ t.toList) : x.2 ∈ values t := List.mem_map_of_mem h

/-- The result of an operation on which the augmentation does not fault. -/
lemma RbTree.Yields.ok [Augment T V] {result : Except Fault (RbTree T V)} {S : Set ℕ}
    {h : Heap T V} (hy : RbTree.Yields result t' S h) {w : Option V} (hw : augOf t' = .ok w) :
    ∃ tr', result = .ok tr' ∧ tr'.Valid t' ∧ Keeps S h tr'.heap := by
  simp only [RbTree.Yields, hw] at hy
  exact hy

lemma compare_isLE {a b : A} : (compare a b).isLE ↔ a ≤ b := by
  rw [Ordering.isLE_iff_ne_gt]
  exact compare_le_iff_le

lemma transCmp_lo {cmp : T → T → Ordering} (hcmp : ∀ x y, cmp x y = compare (v.lo x) (v.lo y)) :
    TransCmp cmp := by
  have he : cmp = compareOn v.lo := funext fun x => funext fun y => hcmp x y
  rw [he]
  infer_instance

/-- What happens to the memory of other owners: cells that were in use before and do not belong
to the nodes `S` stay as they are. -/
def Untouched (S : Set ℕ) (h h' : Heap T V) : Prop :=
  ∀ b, b < h.cells.length → b ∉ S → h'.get? b = h.get? b

/-- An operation that turned the tree `t` into `t'` used the nodes of `t` and fresh cells only. -/
structure Grows (h : Heap T V) (t : CTree (ℕ × T)) (h' : Heap T V) (t' : CTree (ℕ × T)) : Prop where
  frame : Untouched {i | i ∈ t.ids} h h'
  ids : ∀ i ∈ t'.ids, i ∈ t.ids ∨ h.cells.length ≤ i
  length : h.cells.length ≤ h'.cells.length

lemma Grows.refl (h : Heap T V) (t : CTree (ℕ × T)) : Grows h t h t :=
  ⟨fun _ _ _ => rfl,fun _ hi => Or.inl hi,le_rfl⟩

lemma Grows.trans {h h' h'' : Heap T V} {t'' : CTree (ℕ × T)} (h1 : Grows h t h' t')
    (h2 : Grows h' t' h'' t'') : Grows h t h'' t'' := by
  refine ⟨fun b hb hS => ?_,fun i hi => ?_,h1.length.trans h2.length⟩
  · rw [h2.frame b (hb.trans_le h1.length) fun hi => (h1.ids b hi).elim hS hb.not_ge, h1.frame b hb hS]
  · rcases h2.ids i hi with hi | hi
    · exact h1.ids i hi
    · exact Or.inr (h1.length.trans hi)

section Operations
variable [Augment T V]

/-- Inserting a node whose span is free. -/
theorem SpanTree.insertRaw (hs : SpanTree v tr t) (hc : Computes V v) {cmp : T → T → Ordering}
    (hcmp : ∀ x y, cmp x y = compare (v.lo x) (v.lo y)) {a : ℕ} {n : RbNode T V}
    (hn : tr.heap.get? a = some n) (ha : a ∉ t.ids) (hlt : v.lo n.value < v.hi n.value)
    (hfree : ∀ p, v.lo n.value ≤ p → p < v.hi n.value → denote v t p = none) :
    ∃ tr' t' before after, tr.insertRaw (some a) cmp = .ok tr' ∧ SpanTree v tr' t' ∧
      t.toList = before ++ after ∧ t'.toList = before ++ (a,n.value)::after ∧
      Keeps (insert a {i | i ∈ t.ids}) tr.heap tr'.heap := by
  obtain ⟨t',k,hk,hd,hl,hy⟩ := RbTree.insertRaw_yields cmp hs.valid hn ha
  have hold : t.toList = k.before ++ k.after := by rw [← hk, Ctx.toList_fill]; simp
  have hsort : SortedBy cmp (k.before ++ k.after) := by
    have hlo := hs.wf.lo_lt
    rw [values_eq_append hold, ← List.map_append, List.pairwise_map] at hlo
    refine hlo.imp fun {x y} hxy => ?_
    rw [hcmp, compare_isLE]
    exact hxy.le
  have htrans : TransCmp cmp := transCmp_lo hcmp
  obtain ⟨hb,haf⟩ := hd.split hsort
  have hwf : v.WF (values t') := by
    rw [values_eq_append hl, List.map_cons]
    have hw0 := hs.wf
    have hf0 := hfree
    unfold denote at hf0
    rw [values_eq_append hold] at hw0 hf0
    refine hw0.insert hlt hf0 (fun x hx => ?_) fun y hy => ?_
    · obtain ⟨z,hz,rfl⟩ := List.mem_map.mp hx
      have hlt' := hb z hz
      rw [hcmp] at hlt'
      exact compare_lt_iff_lt.mp hlt'
    · obtain ⟨z,hz,rfl⟩ := List.mem_map.mp hy
      have hle := haf z hz
      rw [hcmp, compare_isLE] at hle
      exact hle
  obtain ⟨w,hw⟩ := hc t' hwf
  obtain ⟨tr',h1,h2,h3⟩ := hy.ok hw
  exact ⟨tr',t',k.before,k.after,h1,⟨h2,hwf⟩,hold,hl,h3⟩

/-- Removing a node. -/
theorem SpanTree.removeRaw (hs : SpanTree v tr t) (hc : Computes V v) {x : ℕ × T}
    (hx : x ∈ t.toList) : ∃ tr' t' before after, tr.removeRaw (some x.1) = .ok tr' ∧
      SpanTree v tr' t' ∧ t.toList = before ++ x::after ∧ t'.toList = before ++ after ∧
      Keeps {i | i ∈ t.ids} tr.heap tr'.heap := by
  obtain ⟨t',before,after,h1,h2,hy⟩ := RbTree.removeRaw_yields hs.valid hx
  have hwf : v.WF (values t') := by
    have hw0 := hs.wf
    rw [values_eq_append h1, List.map_cons] at hw0
    rw [values_eq_append h2]
    exact hw0.remove
  obtain ⟨w,hw⟩ := hc t' hwf
  obtain ⟨tr',h3,h4,h5⟩ := hy.ok hw
  exact ⟨tr',t',before,after,h3,⟨h4,hwf⟩,h1,h2,h5⟩

/-- The map after an insertion. -/
lemma SpanTree.denote_insert {tr' : RbTree T V} (hs : SpanTree v tr' t')
    {before after : List (ℕ × T)} {x : ℕ × T} (h : t.toList = before ++ after)
    (h' : t'.toList = before ++ x::after) :
    denote v t' = paint (denote v t) (v.lo x.2) (v.hi x.2) (some (v.val x.2)) := by
  funext p
  have hwf := hs.wf
  unfold denote
  rw [values_eq_append h', List.map_cons] at hwf ⊢
  rw [hwf.lookup_insert, values_eq_append h]

/-- The map after a removal. -/
lemma SpanTree.denote_remove (hs : SpanTree v tr t) {before after : List (ℕ × T)} {x : ℕ × T}
    (h : t.toList = before ++ x::after) (h' : t'.toList = before ++ after) :
    denote v t' = paint (denote v t) (v.lo x.2) (v.hi x.2) none := by
  funext p
  have hwf := hs.wf
  unfold denote
  rw [values_eq_append h, List.map_cons] at hwf ⊢
  rw [values_eq_append h', hwf.lookup_remove]

/-- The spans that a removal leaves are beside the removed one. -/
lemma SpanTree.beside_removed (hs : SpanTree v tr t) {before after : List (ℕ × T)} {x : ℕ × T}
    (h : t.toList = before ++ x::after) (h' : t'.toList = before ++ after) :
    ∀ z ∈ values t', z ∈ values t ∧ (v.hi z ≤ v.lo x.2 ∨ v.hi x.2 ≤ v.lo z) := by
  intro z hz
  have hw := hs.wf
  rw [values_eq_append h, List.map_cons] at hw ⊢
  rw [values_eq_append h', List.mem_append] at hz
  obtain ⟨_,hw2,hw3⟩ := List.pairwise_append.mp hw.spaced
  rcases hz with hz | hz
  · exact ⟨by simp [hz],Or.inl (hw3 z hz x.2 (by simp))⟩
  · exact ⟨by simp [hz],Or.inr ((List.pairwise_cons.mp hw2).1 z hz)⟩

/-- The value of a span at its points. -/
lemma SpanTree.denote_of_mem (hs : SpanTree v tr t) {x : ℕ × T} (hx : x ∈ t.toList) {p : A}
    (h1 : v.lo x.2 ≤ p) (h2 : p < v.hi x.2) : denote v t p = some (v.val x.2) :=
  hs.wf.lookup_of_mem (mem_values hx) ⟨h1,h2⟩

lemma SpanTree.proper (hs : SpanTree v tr t) {x : ℕ × T} (hx : x ∈ t.toList) :
    v.lo x.2 < v.hi x.2 := hs.wf.proper x.2 (mem_values hx)

/-- The first span that ends after a point. -/
theorem SpanTree.lowerBound_hi (hs : SpanTree v tr t) {eval : T → V → Bool} (p : A)
    (he : ∀ x w, eval x w = decide (p < v.hi x)) :
    (tr.lowerBoundRaw eval = .ok none ∧ ∀ q, p ≤ q → denote v t q = none) ∨
    ∃ x ∈ t.toList, tr.lowerBoundRaw eval = .ok (some x.1) ∧ p < v.hi x.2 ∧
      ∀ q, p ≤ q → q < v.lo x.2 → denote v t q = none := by
  have hup : Upward (fun x : ℕ × T => decide (p < v.hi x.2)) t.toList := by
    have hhi := hs.wf.hi_lt
    unfold values at hhi
    rw [List.pairwise_map] at hhi
    refine hhi.imp fun {x y} hxy hx => ?_
    simp only [decide_eq_true_eq] at hx ⊢
    exact hx.trans hxy
  have hrun := hs.valid.lowerBoundRaw (fun x _ w _ => he x.2 w) hup
  have hmap : (values t).find? (fun x => decide (p < v.hi x)) =
      (t.toList.find? fun x => decide (p < v.hi x.2)).map Prod.snd := by
    unfold values
    rw [List.find?_map]
    rfl
  cases hf : t.toList.find? fun x => decide (p < v.hi x.2) with
  | none =>
    rw [hf] at hrun hmap
    exact Or.inl ⟨hrun,SpanView.WF.none_after hmap⟩
  | some x =>
    rw [hf] at hrun hmap
    obtain ⟨h1,h2,_⟩ := hs.wf.first hmap
    exact Or.inr ⟨x,List.mem_of_find?_eq_some hf,hrun,h1,h2⟩

/-- The first span that starts at a point or after it. -/
theorem SpanTree.lowerBound_lo (hs : SpanTree v tr t) {eval : T → V → Bool} (p : A)
    (he : ∀ x w, eval x w = decide (p ≤ v.lo x)) :
    (tr.lowerBoundRaw eval = .ok none ∧ ∀ y ∈ values t, v.lo y < p) ∨
    ∃ x ∈ t.toList, tr.lowerBoundRaw eval = .ok (some x.1) ∧ p ≤ v.lo x.2 ∧
      ∀ y ∈ values t, p ≤ v.lo y → y = x.2 ∨ v.hi x.2 ≤ v.lo y := by
  have hup : Upward (fun x : ℕ × T => decide (p ≤ v.lo x.2)) t.toList := by
    have hlo := hs.wf.lo_lt
    unfold values at hlo
    rw [List.pairwise_map] at hlo
    refine hlo.imp fun {x y} hxy hx => ?_
    simp only [decide_eq_true_eq] at hx ⊢
    exact hx.trans hxy.le
  have hrun := hs.valid.lowerBoundRaw (fun x _ w _ => he x.2 w) hup
  cases hf : t.toList.find? fun x => decide (p ≤ v.lo x.2) with
  | none =>
    rw [hf] at hrun
    refine Or.inl ⟨hrun,fun y hy => ?_⟩
    obtain ⟨z,hz,rfl⟩ := List.mem_map.mp hy
    simpa using List.find?_eq_none.mp hf z hz
  | some x =>
    rw [hf] at hrun
    obtain ⟨hx,before,after,ht,hbefore⟩ := List.find?_eq_some_iff_append.mp hf
    refine Or.inr ⟨x,by simp [ht],hrun,by simpa using hx,fun y hy hp => ?_⟩
    have hw := hs.wf.spaced
    rw [values_eq_append ht, List.map_cons] at hy hw
    rcases List.mem_append.mp hy with hy | hy
    · obtain ⟨z,hz,rfl⟩ := List.mem_map.mp hy
      exact absurd hp (by simpa using hbefore z hz)
    · rcases List.mem_cons.mp hy with rfl | hy
      · exact Or.inl rfl
      · exact Or.inr ((List.pairwise_cons.mp (List.pairwise_append.mp hw).2.1).1 y hy)

/-- The nodes of a tree are in use. -/
lemma RbTree.Valid.lt_length (hv : tr.Valid t) : ∀ i ∈ t.ids, i < tr.heap.cells.length := by
  intro i hi
  obtain ⟨y,hy,rfl⟩ := List.mem_map.mp hi
  obtain ⟨n,_,hn,_⟩ := hv.node_of_mem hy
  exact Heap.lt_of_get? hn

/-- The tree in memory with one more node. -/
lemma RbTree.Valid.alloc (hv : tr.Valid t) (x : T) :
    RbTree.Valid (⟨⟨tr.heap.cells ++ [some (.new x)]⟩,tr.head⟩ : RbTree T V) t ∧
      Heap.get? ⟨tr.heap.cells ++ [some (.new x)]⟩ tr.heap.cells.length = some (RbNode.new x : RbNode T V) ∧
      tr.heap.cells.length ∉ t.ids := by
  refine ⟨hv.congr fun a ha => ?_,by simp [Heap.get?],fun h => absurd (hv.lt_length _ h) (lt_irrefl _)⟩
  simp [Heap.get?, List.getElem?_append_left (hv.lt_length a ha)]

omit [Augment T V] in
/-- Inserting a new node uses the nodes of the tree and the new one. -/
lemma Grows.of_insert {heap heap' : Heap T V} {x : T} {before after : List (ℕ × T)}
    (h : Keeps (insert heap.cells.length {i | i ∈ t.ids}) ⟨heap.cells ++ [some (.new x)]⟩ heap')
    (hold : t.toList = before ++ after) (hnew : t'.toList = before ++ (heap.cells.length,x)::after) :
    Grows heap t heap' t' := by
  refine ⟨fun b hb hbS => ?_,fun i hi => ?_,?_⟩
  · rw [h.frame b (by simp only [Set.mem_insert_iff, not_or]; exact ⟨hb.ne,hbS⟩)]
    simp [Heap.get?, List.getElem?_append_left hb]
  · simp only [CTree.ids, hold, hnew, List.map_append, List.map_cons, List.mem_append, List.mem_cons] at hi ⊢
    rcases hi with hi | rfl | hi
    · exact Or.inl (Or.inl hi)
    · exact Or.inr le_rfl
    · exact Or.inl (Or.inr hi)
  · rw [h.length]
    simp

/-- Inserting a free span in a new node. -/
theorem SpanTree.insertNew (hs : SpanTree v tr t) (hc : Computes V v) {cmp : T → T → Ordering}
    (hcmp : ∀ x y, cmp x y = compare (v.lo x) (v.lo y)) {x : T} (hlt : v.lo x < v.hi x)
    (hfree : ∀ p, v.lo x ≤ p → p < v.hi x → denote v t p = none) :
    ∃ tr' t' before after, tr.insertNew x cmp = .ok tr' ∧ SpanTree v tr' t' ∧
      t.toList = before ++ after ∧ t'.toList = before ++ (tr.heap.cells.length,x)::after ∧
      Grows tr.heap t tr'.heap t' := by
  obtain ⟨hvalid,hnew,hout⟩ := hs.valid.alloc x
  obtain ⟨tr',t',before,after,h1,h2,h3,h4,h5⟩ := SpanTree.insertRaw ⟨hvalid,hs.wf⟩ hc hcmp hnew hout hlt hfree
  exact ⟨tr',t',before,after,h1,h2,h3,h4,Grows.of_insert h5 h3 h4⟩

/-- Inserting any value in a new node, when the augmentation faults on no tree. -/
theorem RbTree.Valid.insertNew (hv : tr.Valid t) (hc : ∀ u : CTree (ℕ × T), ∃ w : Option V, augOf u = .ok w)
    (cmp : T → T → Ordering) (x : T) : ∃ tr' t' before after, tr.insertNew x cmp = .ok tr' ∧ tr'.Valid t' ∧
      t.toList = before ++ after ∧ t'.toList = before ++ (tr.heap.cells.length,x)::after ∧
      Grows tr.heap t tr'.heap t' := by
  obtain ⟨hvalid,hnew,hout⟩ := hv.alloc x
  obtain ⟨t',k,hk,_,hl,hy⟩ := RbTree.insertRaw_yields cmp hvalid hnew hout
  obtain ⟨w,hw⟩ := hc t'
  obtain ⟨tr',h1,h2,h3⟩ := hy.ok hw
  have hold : t.toList = k.before ++ k.after := by rw [← hk, Ctx.toList_fill]; simp
  exact ⟨tr',t',k.before,k.after,h1,h2,hold,hl,Grows.of_insert h3 hold hl⟩

/-- Removing a node and dropping it. -/
theorem SpanTree.removeValue (hs : SpanTree v tr t) (hc : Computes V v) {x : ℕ × T}
    (hx : x ∈ t.toList) : ∃ tr' t' before after, tr.removeValue (some x.1) = .ok (x.2,tr') ∧
      SpanTree v tr' t' ∧ t.toList = before ++ x::after ∧ t'.toList = before ++ after ∧
      Grows tr.heap t tr'.heap t' := by
  obtain ⟨tr',t',before,after,h1,h2,h3,h4,h5⟩ := hs.removeRaw hc hx
  have hnd : ((before ++ x::after).map Prod.fst).Nodup := h3 ▸ hs.valid.focus.nodup_tree
  have hout : x.1 ∉ t'.ids := by
    rw [CTree.ids, h4, List.map_append]
    rw [List.map_append, List.map_cons, List.nodup_middle, List.nodup_cons] at hnd
    exact hnd.1
  obtain ⟨n,_,hn,hnv,_⟩ := hs.valid.node_of_mem hx
  have hxS : x.1 ∈ {i | i ∈ t.ids} := List.mem_map_of_mem hx
  obtain ⟨m,hm,hmv⟩ : ∃ m, tr'.heap.get? x.1 = some m ∧ m.value = x.2 := by
    have hval := h5.value x.1 hxS
    rw [hn, Option.map_some, hnv] at hval
    exact Option.map_eq_some_iff.mp hval
  have hfree : ∀ b, b ≠ x.1 → (tr'.heap.free x.1).get? b = tr'.heap.get? b := by
    intro b hb
    simp [Heap.get?, Heap.free, List.getElem?_set_ne hb.symm]
  refine ⟨⟨tr'.heap.free x.1,tr'.head⟩,t',before,after,?_,⟨?_,h2.wf⟩,h3,h4,?_,fun i hi => Or.inl ?_,?_⟩
  · simp only [RbTree.removeValue, h1, bind, Except.bind, deref_eq hm, hmv, pure, Except.pure]
    rfl
  · exact h2.valid.congr fun a ha => hfree a (by rintro rfl; exact hout ha)
  · intro b hb hbS
    rw [hfree b (by rintro rfl; exact hbS hxS), h5.frame b hbS]
  · simp only [CTree.ids, h3, h4, List.map_append, List.map_cons, List.mem_append, List.mem_cons] at hi ⊢
    tauto
  · simp [Heap.free, h5.length]

end Operations
end Lilith.Rbtree
