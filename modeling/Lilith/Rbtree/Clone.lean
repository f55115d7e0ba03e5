import Lilith.Rbtree.SpanTree

/-! Reading a whole tree from memory, and `clone`: the copy is a valid tree with the same shape,
colours, values and augment values, made of fresh nodes only. -/
namespace Lilith.Rbtree
open Theory PtrGraph CTree

variable {T V : Type} {tr : RbTree T V} {t t' : CTree (ℕ × T)} {h h' : Heap T V}

/-- The tree under a pointer. -/
def Heap.toTree (h : Heap T V) : ℕ → Ptr → CTree (ℕ × T)
  | 0, _ => leaf
  | _+1, none => leaf
  | fuel+1, some a => match h.get? a with
    | none => leaf
    | some n => node n.color (h.toTree fuel n.left) (a,n.value) (h.toTree fuel n.right)

def RbTree.toTree (tr : RbTree T V) : CTree (ℕ × T) := tr.heap.toTree tr.heap.bound tr.head

/-- The links, colours and values of a heap. -/
def Heap.graph (h : Heap T V) : PtrGraph ℕ T := RbTree.graph ⟨h,none⟩

/-- The head pointer of a tree plays no role below it. -/
lemma repr_heap {q p : Ptr} : tr.graph.Repr q p t ↔ tr.heap.graph.Repr q p t := by
  constructor
  · intro hr
    exact hr.congr_all fun i _ => ⟨rfl,rfl,rfl,rfl⟩
  · intro hr
    exact hr.congr_all fun i _ => ⟨rfl,rfl,rfl,rfl⟩

/-- A represented node in terms of the heap. -/
lemma repr_heap_node {q p : Ptr} {c : Color} {l r : CTree (ℕ × T)} {x : ℕ × T} :
    h.graph.Repr q p (node c l x r) ↔ p = some x.1 ∧ ∃ n, h.get? x.1 = some n ∧ n.parent = q ∧
      n.color = c ∧ n.value = x.2 ∧ h.graph.Repr (some x.1) n.left l ∧
      h.graph.Repr (some x.1) n.right r := by
  rw [repr_node]
  constructor
  · rintro ⟨hp,hq,hc,hv,hl,hr⟩
    obtain ⟨n,hn,hnv⟩ : ∃ n, h.get? x.1 = some n ∧ n.value = x.2 := Option.map_eq_some_iff.mp hv
    simp only [Heap.graph, RbTree.graph, hn] at hq hc hl hr
    exact ⟨hp,n,hn,hq,hc,hnv,hl,hr⟩
  · rintro ⟨hp,n,hn,hq,hc,hv,hl,hr⟩
    simp only [Heap.graph, RbTree.graph, hn] at hl hr ⊢
    exact ⟨hp,hq,hc,congrArg some hv,hl,hr⟩

lemma toTree_eq {q p : Ptr} (fuel : ℕ) (hr : h.graph.Repr q p t) (hf : t.size < fuel) :
    h.toTree fuel p = t := by
  induction fuel generalizing q p t with
  | zero => omega
  | succ fuel ih =>
    cases t with
    | leaf =>
      obtain rfl : p = none := hr
      rfl
    | node c l x r =>
      obtain ⟨rfl,n,hn,_,rfl,hv,hl,hr⟩ := repr_heap_node.mp hr
      simp only [CTree.size] at hf
      simp only [Heap.toTree, hn, ih hl (by omega), ih hr (by omega), hv]

/-- A represented tree stays when its cells do. -/
lemma Repr.keep {q p : Ptr} (hr : h.graph.Repr q p t) (hk : ∀ i ∈ t.ids, h'.get? i = h.get? i) :
    h'.graph.Repr q p t := by
  refine hr.congr_all fun i hi => ?_
  simp [Heap.graph, RbTree.graph, hk i hi]

lemma Repr.lt_length {q p : Ptr} (hr : h.graph.Repr q p t) : ∀ i ∈ t.ids, i < h.cells.length := by
  induction t generalizing q p with
  | leaf => simp
  | node c l x r ihl ihr =>
    obtain ⟨_,n,hn,_,_,_,hl,hr⟩ := repr_heap_node.mp hr
    intro i hi
    simp only [ids_node, List.mem_append, List.mem_cons] at hi
    rcases hi with hi | rfl | hi
    · exact ihl hl i hi
    · exact Heap.lt_of_get? hn
    · exact ihr hr i hi

/-- The memory `h'` is `h` with more cells. -/
structure Extends (h h' : Heap T V) : Prop where
  frame : ∀ b, b < h.cells.length → h'.get? b = h.get? b
  length : h.cells.length ≤ h'.cells.length

lemma Extends.refl (h : Heap T V) : Extends h h := ⟨fun _ _ => rfl,le_rfl⟩

lemma Extends.trans {h'' : Heap T V} (h1 : Extends h h') (h2 : Extends h' h'') : Extends h h'' :=
  ⟨fun b hb => (h2.frame b (hb.trans_le h1.length)).trans (h1.frame b hb),h1.length.trans h2.length⟩

lemma Extends.alloc (h : Heap T V) (n : RbNode T V) : Extends h (h.alloc n).2 := by
  refine ⟨fun b hb => ?_,by simp [Heap.alloc]⟩
  simp [Heap.alloc, Heap.get?, List.getElem?_append_left hb]

/-- Writing to a cell that is not of `h`. -/
lemma Extends.set (h1 : Extends h h') {a : ℕ} (ha : h.cells.length ≤ a) (n : RbNode T V) :
    Extends h (h'.set a n) := by
  refine ⟨fun b hb => ?_,by simpa [Heap.set] using h1.length⟩
  rw [← h1.frame b hb]
  simp [Heap.set, Heap.get?, List.getElem?_set_ne (by omega : a ≠ b)]

/-- The tree `t'` in `h'` has the shape, the colours, the values and the augment values of `t`. -/
def Copy (h : Heap T V) (h' : Heap T V) : CTree (ℕ × T) → CTree (ℕ × T) → Prop
  | leaf, leaf => True
  | node c l x r, node c' l' x' r' => c' = c ∧ x'.2 = x.2 ∧ h'.aug x'.1 = h.aug x.1 ∧
      Copy h h' l l' ∧ Copy h h' r r'
  | _, _ => False

namespace Copy

lemma values_eq (hc : Copy h h' t t') : values t' = values t := by
  induction t generalizing t' with
  | leaf => cases t' with
    | leaf => rfl
    | node => exact hc.elim
  | node c l x r ihl ihr => cases t' with
    | leaf => exact hc.elim
    | node c' l' x' r' =>
      obtain ⟨_,hx,_,hl,hr⟩ := hc
      have h1 := ihl hl
      have h2 := ihr hr
      simp only [values] at h1 h2 ⊢
      simp [h1, h2, hx]

lemma color_eq (hc : Copy h h' t t') : t'.color = t.color := by
  cases t with
  | leaf => cases t' with
    | leaf => rfl
    | node => exact hc.elim
  | node => cases t' with
    | leaf => exact hc.elim
    | node => exact hc.1

lemma balanced (hc : Copy h h' t t') {m : ℕ} (hb : t.Balanced m) : t'.Balanced m := by
  induction t generalizing t' m with
  | leaf => cases t' with
    | leaf => exact hb
    | node => exact hc.elim
  | node c l x r ihl ihr => cases t' with
    | leaf => exact hc.elim
    | node c' l' x' r' =>
      obtain ⟨rfl,_,_,hl,hr⟩ := hc
      cases c' with
      | red =>
        obtain ⟨h1,h2,h3,h4⟩ := hb
        exact ⟨hl.color_eq.trans h1,hr.color_eq.trans h2,ihl hl h3,ihr hr h4⟩
      | black =>
        obtain ⟨k,hk,h3,h4⟩ := hb
        exact ⟨k,hk,ihl hl h3,ihr hr h4⟩

lemma aug_eq (hc : Copy h h' t t') : t'.ptr.bind h'.aug = t.ptr.bind h.aug := by
  cases t with
  | leaf => cases t' with
    | leaf => rfl
    | node => exact hc.elim
  | node => cases t' with
    | leaf => exact hc.elim
    | node => exact hc.2.2.1

lemma augmented [Augment T V] (hc : Copy h h' t t') (ha : Augmented h t) : Augmented h' t' := by
  induction t generalizing t' with
  | leaf => cases t' with
    | leaf => trivial
    | node => exact hc.elim
  | node c l x r ihl ihr => cases t' with
    | leaf => exact hc.elim
    | node c' l' x' r' =>
      obtain ⟨_,hx,haug,hl,hr⟩ := hc
      obtain ⟨h1,h2,v,hv,he⟩ := ha
      refine ⟨ihl hl h1,ihr hr h2,v,haug.trans hv,?_⟩
      rw [hl.aug_eq, hr.aug_eq, hx]
      exact he

/-- A copy depends on the augment values of the two trees only. -/
lemma congr {k k' : Heap T V} (hc : Copy h h' t t') (h1 : ∀ i ∈ t.ids, k.aug i = h.aug i)
    (h2 : ∀ i ∈ t'.ids, k'.aug i = h'.aug i) : Copy k k' t t' := by
  induction t generalizing t' with
  | leaf => cases t' with
    | leaf => trivial
    | node => exact hc.elim
  | node c l x r ihl ihr => cases t' with
    | leaf => exact hc.elim
    | node c' l' x' r' =>
      obtain ⟨hcol,hx,haug,hl,hr⟩ := hc
      refine ⟨hcol,hx,?_,ihl hl (fun i hi => h1 i (by simp [hi])) fun i hi => h2 i (by simp [hi]),
        ihr hr (fun i hi => h1 i (by simp [hi])) fun i hi => h2 i (by simp [hi])⟩
      rw [h1 x.1 (by simp), h2 x'.1 (by simp), haug]

end Copy

/-- The result of copying the tree `t` of `h` under pointer `p` with parent `q`. -/
structure Cloned (h : Heap T V) (t : CTree (ℕ × T)) (h' : Heap T V) (q p : Ptr)
    (t' : CTree (ℕ × T)) : Prop where
  repr : h'.graph.Repr q p t'
  copy : Copy h h' t t'
  fresh : ∀ i ∈ t'.ids, h.cells.length ≤ i
  nodup : t'.ids.Nodup
  grows : Extends h h'

/-- The copy of a child, linked to the new node `node`. -/
def Heap.cloneChild (fuel node : ℕ) (child : Ptr) (h : Heap T V) : Except Fault (Ptr × Heap T V) :=
  match child with
  | none => .ok (none,h)
  | some c => do
    let (m,h) ← Heap.cloneNode fuel c h
    return (some m,h.set m { ← h.deref (some m) with parent := some node })

lemma cloneNode_succ (fuel self : ℕ) (h : Heap T V) : Heap.cloneNode (fuel+1) self h = do
    let n ← h.deref (some self)
    let (left,h1) ← (h.alloc (.new n.value)).2.cloneChild fuel h.cells.length n.left
    let (right,h2) ← h1.cloneChild fuel h.cells.length n.right
    let new ← h2.deref (some h.cells.length)
    return (h.cells.length,h2.set h.cells.length
      { new with color := n.color, left := left, right := right, augment := n.augment }) := rfl

lemma get?_set_self {a : ℕ} (ha : a < h.cells.length) (n : RbNode T V) :
    (h.set a n).get? a = some n := by simp [Heap.set, Heap.get?, ha]

lemma get?_set_ne {a b : ℕ} (hab : b ≠ a) (n : RbNode T V) : (h.set a n).get? b = h.get? b := by
  simp [Heap.set, Heap.get?, List.getElem?_set_ne hab.symm]

lemma aug_of_get? {a : ℕ} (hh : h'.get? a = h.get? a) : h'.aug a = h.aug a := by
  simp only [Heap.aug, hh]

/-- Linking the copy of a child to its parent. -/
lemma Cloned.adopt {q : Ptr} {a : ℕ} (hc : Cloned h t h' q (some a) t') (node : ℕ) :
    ∃ m, h'.get? a = some m ∧
      Cloned h t (h'.set a { m with parent := some node }) (some node) (some a) t' := by
  obtain ⟨hr,hcp,hfr,hnd,hg⟩ := hc
  cases t' with
  | leaf => simp at hr
  | node c l x r =>
    obtain ⟨hp,m,hm,hq,hcol,hv,hl,hrr⟩ := repr_heap_node.mp hr
    obtain rfl : a = x.1 := Option.some.inj hp
    have hlt := Heap.lt_of_get? hm
    simp only [ids_node, List.nodup_append, List.nodup_cons, List.mem_cons] at hnd
    have hkeep : ∀ b, b ≠ x.1 → (h'.set x.1 { m with parent := some node }).get? b = h'.get? b :=
      fun b hb => get?_set_ne hb _
    refine ⟨m,hm,repr_heap_node.mpr ⟨rfl,{ m with parent := some node },get?_set_self hlt _,rfl,hcol,hv,
      ?_,?_⟩,?_,hfr,by simpa [List.nodup_append] using hnd,hg.set (hfr x.1 (by simp)) _⟩
    · exact Repr.keep hl fun i hi => hkeep i (by grind)
    · exact Repr.keep hrr fun i hi => hkeep i (by grind)
    · refine hcp.congr (fun _ _ => rfl) fun i _ => ?_
      by_cases hi : i = x.1
      · rw [hi]
        simp [Heap.aug, get?_set_self hlt, hm]
      · exact aug_of_get? (hkeep i hi)

/-- The copies of the children and the new node make up the copy of a node. -/
lemma Cloned.node {q pl pr : Ptr} {c : Color} {l r l' r' : CTree (ℕ × T)} {x : ℕ × T} {n : RbNode T V}
    {h2 h3 : Heap T V} (hr : h.graph.Repr q (some x.1) (node c l x r)) (hn : h.get? x.1 = some n)
    (hl : Cloned (h.alloc (.new n.value)).2 l h2 (some h.cells.length) pl l')
    (hrr : Cloned h2 r h3 (some h.cells.length) pr r') :
    h3.get? h.cells.length = some (.new n.value) ∧
      Cloned h (node c l x r) (h3.set h.cells.length { (.new n.value : RbNode T V) with
        color := n.color, left := pl, right := pr, augment := n.augment }) none (some h.cells.length)
        (node c l' (h.cells.length,x.2) r') := by
  obtain ⟨_,n',hn',_,hcol,hv,hrl,hrr'⟩ := repr_heap_node.mp hr
  obtain rfl : n' = n := Option.some.inj (hn'.symm.trans hn)
  set N := h.cells.length
  set h1 := (h.alloc (.new n'.value)).2
  have hg1 : Extends h h1 := Extends.alloc h _
  have hlen1 : h1.cells.length = N+1 := by simp [h1, Heap.alloc, N]
  have hN1 : h1.get? N = some (.new n'.value) := by simp [h1, Heap.alloc, Heap.get?, N]
  have hl2 := hl.grows.length
  have hl3 := hrr.grows.length
  have hN2 : h2.get? N = some (.new n'.value) := (hl.grows.frame N (by omega)).trans hN1
  have hN3 : h3.get? N = some (.new n'.value) := (hrr.grows.frame N (by omega)).trans hN2
  refine ⟨hN3,?_⟩
  set m : RbNode T V := { (.new n'.value : RbNode T V) with
    color := n'.color, left := pl, right := pr, augment := n'.augment }
  have hlt : N < h3.cells.length := by omega
  have hkeep : ∀ b, b ≠ N → (h3.set N m).get? b = h3.get? b := fun b hb => get?_set_ne hb _
  -- the new node, the left copy and the right copy follow each other in memory
  have hlids : ∀ i ∈ l'.ids, N < i ∧ i < h2.cells.length := fun i hi =>
    ⟨by have := hl.fresh i hi; omega,Repr.lt_length hl.repr i hi⟩
  have hrids : ∀ i ∈ r'.ids, N < i ∧ h2.cells.length ≤ i := fun i hi =>
    ⟨by have := hrr.fresh i hi; omega,hrr.fresh i hi⟩
  have hl4 : ∀ i ∈ l'.ids, (h3.set N m).get? i = h2.get? i := fun i hi => by
    rw [hkeep i (by have := hlids i hi; omega), hrr.grows.frame i (hlids i hi).2]
  have hr4 : ∀ i ∈ r'.ids, (h3.set N m).get? i = h3.get? i := fun i hi =>
    hkeep i (by have := hrids i hi; omega)
  refine ⟨repr_heap_node.mpr ⟨rfl,m,get?_set_self hlt m,rfl,hcol,hv,?_,?_⟩,⟨rfl,rfl,?_,?_,?_⟩,
    fun i hi => ?_,?_,((hg1.trans hl.grows).trans hrr.grows).set le_rfl _⟩
  · exact Repr.keep hl.repr hl4
  · exact Repr.keep hrr.repr hr4
  · simp [Heap.aug, get?_set_self hlt, hn, m]
  · refine hl.copy.congr (fun i hi => ?_) fun i hi => aug_of_get? (hl4 i hi)
    exact (aug_of_get? (hg1.frame i (Repr.lt_length hrl i hi))).symm
  · refine hrr.copy.congr (fun i hi => ?_) fun i hi => aug_of_get? (hr4 i hi)
    exact (aug_of_get? ((hg1.trans hl.grows).frame i (Repr.lt_length hrr' i hi))).symm
  · simp only [ids_node, List.mem_append, List.mem_cons] at hi
    rcases hi with hi | rfl | hi
    · exact (hlids i hi).1.le
    · exact le_rfl
    · exact (hrids i hi).1.le
  · simp only [ids_node, List.nodup_append, List.nodup_cons, List.mem_cons]
    refine ⟨hl.nodup,⟨fun hi => absurd (hrids N hi).1 (lt_irrefl N),hrr.nodup⟩,?_⟩
    rintro i hi j (rfl | hj)
    · exact (hlids i hi).1.ne'
    · have h4 := (hlids i hi).2
      have h5 := (hrids j hj).2
      omega

/-- Copying the nodes under a pointer. -/
theorem cloneNode_ok (fuel : ℕ) {q : Ptr} {a : ℕ} (hr : h.graph.Repr q (some a) t)
    (hf : t.size ≤ fuel) : ∃ b h' t', Heap.cloneNode fuel a h = .ok (b,h') ∧
      Cloned h t h' none (some b) t' := by
  induction fuel generalizing h t q a with
  | zero =>
    cases t with
    | leaf => simp at hr
    | node c l x r => simp [CTree.size] at hf
  | succ fuel ih =>
    have hchild : ∀ {h : Heap T V} {u : CTree (ℕ × T)} {q p : Ptr} (node : ℕ), h.graph.Repr q p u →
        u.size ≤ fuel → ∃ p' h' u', h.cloneChild fuel node p = .ok (p',h') ∧
          Cloned h u h' (some node) p' u' := by
      intro h u q p node hu hs
      cases p with
      | none =>
        cases u with
        | leaf => exact ⟨none,h,leaf,rfl,rfl,trivial,by simp,by simp,Extends.refl h⟩
        | node c l x r => simp [repr_node] at hu
      | some b =>
        obtain ⟨b',h',u',h1,h2⟩ := ih hu hs
        obtain ⟨m,hm,h3⟩ := h2.adopt node
        refine ⟨some b',_,u',?_,h3⟩
        simp only [Heap.cloneChild, h1, deref_eq hm, bind, Except.bind, pure, Except.pure]
    cases t with
    | leaf => simp at hr
    | node c l x r =>
      obtain ⟨hp,n,hn,_,_,_,hl,hrr⟩ := repr_heap_node.mp hr
      obtain rfl : a = x.1 := Option.some.inj hp
      simp only [CTree.size] at hf
      have hg1 := Extends.alloc h (.new n.value : RbNode T V)
      have hl1 := Repr.keep hl fun i hi => hg1.frame i (Repr.lt_length hl i hi)
      obtain ⟨pl,h2,l',h3,hcl⟩ := hchild h.cells.length hl1 (by omega)
      have hr1 := Repr.keep hrr fun i hi =>
        (hg1.trans hcl.grows).frame i (Repr.lt_length hrr i hi)
      obtain ⟨pr,h4,r',h5,hcr⟩ := hchild h.cells.length hr1 (by omega)
      obtain ⟨h6,h7⟩ := Cloned.node hr hn hcl hcr
      refine ⟨_,_,_,?_,h7⟩
      rw [cloneNode_succ]
      simp only [deref_eq hn, h3, h5, deref_eq h6, bind, Except.bind, pure, Except.pure]

section Valid
variable [Augment T V]

/-- A valid tree is the one that is read from memory. -/
lemma RbTree.Valid.toTree_eq (hv : tr.Valid t) : tr.toTree = t :=
  Rbtree.toTree_eq (q := none) _ (repr_heap.mp hv.focus.tree) hv.lt_bound

/-- `clone` gives a valid tree of fresh nodes with the same values. -/
theorem RbTree.Valid.clone (hv : tr.Valid t) : ∃ tr' t', tr.clone = .ok tr' ∧ tr'.Valid t' ∧
    Copy tr.heap tr'.heap t t' ∧ (∀ i ∈ t'.ids, tr.heap.cells.length ≤ i) ∧
    Extends tr.heap tr'.heap := by
  have hhead : tr.head = t.ptr := hv.focus.hole_eq
  cases hp : tr.head with
  | none =>
    obtain rfl : t = leaf := by
      cases t with
      | leaf => rfl
      | node c l x r => simp [hp] at hhead
    refine ⟨⟨tr.heap,none⟩,leaf,?_,⟨⟨trivial,rfl,by simp⟩,⟨0,rfl⟩,trivial⟩,trivial,by simp,
      Extends.refl _⟩
    simp [RbTree.clone, hp]
  | some a =>
    have hr : tr.heap.graph.Repr none (some a) t := hp ▸ repr_heap.mp hv.focus.tree
    obtain ⟨b,h',t',h1,h2⟩ := cloneNode_ok tr.heap.bound hr hv.lt_bound.le
    obtain ⟨m,hm⟩ := hv.balanced
    refine ⟨⟨h',some b⟩,t',?_,⟨⟨trivial,repr_heap.mpr h2.repr,h2.nodup⟩,⟨m,h2.copy.balanced hm⟩,
      h2.copy.augmented hv.augmented⟩,h2.copy,h2.fresh,h2.grows⟩
    simp only [RbTree.clone, hp, h1, bind, Except.bind, pure, Except.pure]

end Valid
end Lilith.Rbtree
