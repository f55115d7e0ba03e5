import Lilith.Rbtree.SpanTree
import Lilith.Theory.TreeEdits

/-! Comparing two trees by their values, and merging neighbouring values of a tree in place
(`pairwise_merge`). A node whose value is changed is marked as dirty only after its neighbour was removed,
so while the augment values are recomputed the one of that node may be wrong. -/
namespace Lilith.Rbtree

section Model
variable {T V : Type}

/-- The loop of `eq` of two trees in one memory. -/
def Heap.eqLoop [DecidableEq T] (h : Heap T V) : ℕ → Ptr → Ptr → Except Fault Bool
  | 0, _, _ => .error .diverge
  | fuel+1, some a, some b => do
    if (← h.deref (some a)).value ≠ (← h.deref (some b)).value then return false
    else h.eqLoop fuel (← h.successor (some a)) (← h.successor (some b))
  | _+1, a, b => .ok (a.isNone && b.isNone)

/-- `eq` of the trees with these heads -/
def Heap.treeEq [DecidableEq T] (h : Heap T V) (p q : Ptr) : Except Fault Bool := do
  h.eqLoop h.bound (← RbTree.lowestNodeRaw ⟨h,p⟩) (← RbTree.lowestNodeRaw ⟨h,q⟩)

/-- An assignment to the value of a node. -/
def Heap.setValue (h : Heap T V) (a : ℕ) (value : T) : Except Fault (Heap T V) := do
  return h.set a { ← h.deref (some a) with value := value }

/-- The loop of `pairwise_merge`. The function gives the new left value if it merges the two. The nodes that
are removed are not freed. -/
def RbTree.mergeLoop [Augment T V] (mergeFn : T → T → Except Fault (Option T)) :
    ℕ → RbTree T V → ℕ → Except Fault (RbTree T V)
  | 0, _, _ => .error .diverge
  | fuel+1, self, node => do
    match ← self.heap.successor (some node) with
    | none => return self
    | some succ => do
      match ← mergeFn (← self.heap.deref (some node)).value (← self.heap.deref (some succ)).value with
      | none => mergeLoop mergeFn fuel self succ
      | some value => do
        let self ← RbTree.removeRaw ⟨← self.heap.setValue node value,self.head⟩ (some succ)
        let (_,self) ← self.run (markDirty (some node))
        mergeLoop mergeFn fuel self node

def RbTree.pairwiseMerge [Augment T V] (self : RbTree T V) (mergeFn : T → T → Except Fault (Option T)) :
    Except Fault (RbTree T V) := do
  match ← self.lowestNodeRaw with
  | none => return self
  | some node => do
    let self ← self.mergeLoop mergeFn self.heap.bound node
    return (← self.run updateAugments).2

end Model

open Theory PtrGraph CTree

section Equality
variable {T V : Type} [Augment T V] {h : Heap T V} {p q : Ptr} {t u : CTree (ℕ × T)}

lemma eqLoop_ok [DecidableEq T] (ht : RbTree.Valid (⟨h,p⟩ : RbTree T V) t) (hu : RbTree.Valid (⟨h,q⟩ : RbTree T V) u)
    (fuel : ℕ) {xs xs' ys ys' : List (ℕ × T)} (hx : t.toList = xs' ++ xs) (hy : u.toList = ys' ++ ys)
    (hf : xs.length < fuel) : h.eqLoop fuel (xs.head?.map Prod.fst) (ys.head?.map Prod.fst) =
      .ok (decide (xs.map Prod.snd = ys.map Prod.snd)) := by
  induction fuel generalizing xs xs' ys ys' with
  | zero => omega
  | succ fuel ih =>
    cases xs with
    | nil => cases ys <;> simp [Heap.eqLoop]
    | cons x xs =>
      cases ys with
      | nil => simp [Heap.eqLoop]
      | cons y ys =>
        obtain ⟨n,_,hn,hnv,_⟩ := ht.node_of_mem (show x ∈ t.toList by simp [hx])
        obtain ⟨m,_,hm,hmv,_⟩ := hu.node_of_mem (show y ∈ u.toList by simp [hy])
        have hsx : h.successor (some x.1) = _ := ht.successor hx
        have hsy : h.successor (some y.1) = _ := hu.successor hy
        simp only [List.head?_cons, Option.map_some, Heap.eqLoop, deref_eq hn, deref_eq hm, hnv, hmv, hsx, hsy, bind,
          Except.bind]
        by_cases hxy : x.2 = y.2
        · rw [if_neg (by simpa using hxy)]
          have hx' : t.toList = (xs' ++ [x]) ++ xs := by simp [hx]
          have hy' : u.toList = (ys' ++ [y]) ++ ys := by simp [hy]
          rw [ih hx' hy' (by simpa using hf)]
          simp [hxy]
        · rw [if_pos hxy]
          simp [hxy, pure, Except.pure]

/-- Two trees are equal if they have the same values in the same order. -/
theorem treeEq_ok [DecidableEq T] (ht : RbTree.Valid (⟨h,p⟩ : RbTree T V) t) (hu : RbTree.Valid (⟨h,q⟩ : RbTree T V) u) :
    h.treeEq p q = .ok (decide (values t = values u)) := by
  have hf : t.toList.length < h.bound := by
    rw [CTree.toList_length]
    exact ht.lt_bound
  simp only [Heap.treeEq, ht.lowestNodeRaw, hu.lowestNodeRaw, bind, Except.bind]
  exact eqLoop_ok ht hu _ (List.nil_append _).symm (List.nil_append _).symm hf

end Equality

lemma Heap.set_self {T V : Type} {h : Heap T V} {a : ℕ} {n : RbNode T V} (ha : h.get? a = some n) : h.set a n = h := by
  have hcell : h.cells[a]? = some (some n) := by
    simpa [Heap.get?, Option.join_eq_some_iff] using ha
  obtain ⟨hlt,hn⟩ := List.getElem?_eq_some_iff.mp hcell
  simp only [Heap.set, ← hn, List.set_getElem_self]

/-- A removal uses the nodes of the tree only. -/
lemma Grows.of_keeps {T V : Type} {h h' : Heap T V} {t t' : CTree (ℕ × T)} (hk : Keeps {i | i ∈ t.ids} h h')
    (hi : ∀ i ∈ t'.ids, i ∈ t.ids) : Grows h t h' t' :=
  ⟨fun b _ hb => hk.frame b hb,fun i hi' => Or.inl (hi i hi'),hk.length.ge⟩

/-- The result has the property, unless a call of the augmentation faults. -/
def Delivers (T V : Type) [Augment T V] {α : Type} (result : Except Fault α) (P : α → Prop) : Prop :=
  match result with
  | .ok a => P a
  | .error f => ∃ (x : T) (left right : Option V), Augment.augment x left right = .error f

section Delivers
variable {T V : Type} [Augment T V] {α β : Type} {m : Except Fault α} {f : α → Except Fault β} {P : α → Prop} {R : β → Prop}

lemma Delivers.bind (h : Delivers T V m P) (hf : ∀ a, P a → Delivers T V (f a) R) : Delivers T V (m >>= f) R := by
  cases m with
  | error e => exact h
  | ok a => exact hf a h

lemma Delivers.mono {P' : α → Prop} (h : Delivers T V m P) (hP : ∀ a, P a → P' a) : Delivers T V m P' := by
  cases m with
  | error e => exact h
  | ok a => exact hP a h

lemma Delivers.of_ok {a : α} (h : m = .ok a) (ha : P a) : Delivers T V m P := by
  rw [h]
  exact ha

/-- Without augment values there is no fault. -/
lemma Delivers.unit (h : Delivers T Unit m P) : ∃ a, m = .ok a ∧ P a := by
  cases m with
  | error e =>
    obtain ⟨x,left,right,hf⟩ := h
    simp [Augment.augment] at hf
  | ok a => exact ⟨a,rfl,h⟩

end Delivers

variable {T V : Type} [Augment T V] {E : Set ℕ} {tr : RbTree T V} {t : CTree (ℕ × T)} {x y : ℕ × T}
  {before after : List (ℕ × T)}

/-- A valid tree, except that some nodes may be dirty and the values of the nodes in `E` may be wrong. -/
structure Marked (E : Set ℕ) (tr : RbTree T V) (t : CTree (ℕ × T)) : Prop where
  focus : tr.graph.Focus [] t
  balanced : ∃ m, t.Balanced m
  good : Good {i | i ∈ t.ids} (⟨tr,[]⟩ : State T V)
  settled : ∀ i ∈ t.ids, i ∉ E → tr.heap.aug i ≠ none → LocalAug (⟨tr,[]⟩ : State T V) i

namespace Marked

/-- A tree in which no node is dirty. -/
lemma of_augmentedBut (hf : tr.graph.Focus [] t) (hb : ∃ m, t.Balanced m) (ha : AugmentedBut E tr.heap t) :
    Marked E tr t :=
  ⟨hf,hb,Focus.good (s := ⟨tr,[]⟩) hf ha.isSome (by simp),fun i hi hE _ =>
    ha.localAug (s := ⟨tr,[]⟩) hf.tree i hi hE⟩

lemma node_of_mem (h : Marked E tr t) (hx : x ∈ t.toList) : ∃ n, tr.heap.get? x.1 = some n ∧ n.value = x.2 := by
  obtain ⟨k,c,l,r,rfl⟩ := Ctx.exists_fill_of_mem hx
  obtain ⟨n,hn,hnv,_⟩ := Focus.node_fields (Focus.of_root h.focus)
  exact ⟨n,hn,hnv⟩

/-- Recomputing the augment values. -/
lemma clean {s : State T V} {S : Set ℕ} (hf : s.graph.Focus [] t) (hg : Good S s) (hS : ∀ i ∈ t.ids, i ∈ S)
    (hloc : ∀ i ∈ t.ids, i ∉ E → s.heap.aug i ≠ none → LocalAug s i) :
    Delivers T V (updateAugments s) fun r => r.2.graph.Focus [] t ∧ Recomputed {i | i ∈ t.ids} s r.2 ∧
      AugmentedBut E r.2.heap t := by
  have hrun := updateAugments_but hf (hg.pendingBut hf.tree hS hloc)
  cases he : augNow s.heap t with
  | error f =>
    rw [he] at hrun
    rw [hrun]
    exact augNow_error he
  | ok w =>
    rw [he] at hrun
    obtain ⟨s',h1,h2,h3⟩ := hrun
    exact .of_ok h1 ⟨h2.graph ▸ hf,h2,h3⟩

/-- An operation on the state of a tree, as one on the tree. -/
lemma delivers_run {m : M T V Unit} {P : RbTree T V → Prop}
    (h : Delivers T V (m (⟨tr,[]⟩ : State T V)) fun r => P r.2.toRbTree) : Delivers T V (tr.run m) fun r => P r.2 := by
  unfold RbTree.run
  cases hm : m ⟨tr,[]⟩ with
  | error f =>
    rw [hm] at h
    exact h
  | ok r =>
    rw [hm] at h
    exact h

lemma updateAugments (h : Marked ∅ tr t) : Delivers T V (tr.run Rbtree.updateAugments) fun r => r.2.Valid t ∧
    Keeps {i | i ∈ t.ids} tr.heap r.2.heap := by
  refine delivers_run (P := fun tr' => tr'.Valid t ∧ Keeps {i | i ∈ t.ids} tr.heap tr'.heap) ((clean (s := ⟨tr,[]⟩) h.focus h.good (fun i hi => hi) h.settled).mono fun r hr => ?_)
  obtain ⟨h1,h2,h3⟩ := hr
  refine ⟨⟨h1,h.balanced,augmentedBut_empty.mp h3⟩,h2.frame,fun a _ => ?_,h2.length⟩
  exact congrFun (congrArg PtrGraph.value h2.graph) a

/-- A tree in which no node is dirty is left as it is. -/
lemma updateAugments_valid (h : tr.Valid t) : tr.run Rbtree.updateAugments = .ok ((),tr) := by
  have hhead : tr.head = t.ptr := h.focus.hole_eq
  have hdirty : isDirty tr.head (⟨tr,[]⟩ : State T V) = .ok (false,⟨tr,[]⟩) := by
    rw [isDirty_ok (hhead ▸ Repr.live (s := ⟨tr,[]⟩) h.focus.tree), hhead]
    exact congrArg (fun b => Except.ok (b,_)) h.augmented.not_rootDirty
  have hrun : Rbtree.updateAugments (⟨tr,[]⟩ : State T V) = .ok ((),⟨tr,[]⟩) := by
    have hdef : Rbtree.updateAugments (⟨tr,[]⟩ : State T V) = (isDirty tr.head >>= fun b =>
      if b then updateAugmentsLoop tr.heap.bound tr.head else pure ()) ⟨tr,[]⟩ := rfl
    rw [hdef, bind_run hdirty]
    rfl
  simp only [RbTree.run, hrun]
  rfl

/-- Recomputing the augment values after the links of a tree were changed. -/
lemma relinked {s1 : State T V} {t' : CTree (ℕ × T)} {S : Set ℕ} (h : Marked E tr t)
    (hstep : Step S (⟨tr,[]⟩ : State T V) s1) (hgood : Good S s1) (hf : s1.graph.Focus [] t') (hb : ∃ m, t'.Balanced m)
    (hids : ∀ i ∈ t'.ids, i ∈ S) (hold : ∀ i ∈ t'.ids, s1.heap.aug i ≠ none → i ∈ t.ids) :
    Delivers T V (Rbtree.updateAugments s1) fun r => Marked E r.2.toRbTree t' ∧ Keeps S tr.heap r.2.heap := by
  have hloc : ∀ i ∈ t'.ids, i ∉ E → s1.heap.aug i ≠ none → LocalAug s1 i := fun i hi hE hc => by
    obtain ⟨v,hv⟩ := Option.ne_none_iff_exists'.mp hc
    have haug := (hstep.clean i (hids i hi) v hv).1
    have hne : tr.heap.aug i ≠ none := fun hn => by simp [hn] at haug
    exact hstep.localAug hgood hf.tree hids i hi hc (h.settled i (hold i hi hc) hE hne)
  refine (clean hf hgood hids hloc).mono fun r hr => ?_
  obtain ⟨h1,h2,h3⟩ := hr
  refine ⟨of_augmentedBut h1 hb h3,fun a ha => ?_,fun a ha => ?_,h2.length.trans hstep.length⟩
  · exact (h2.frame a fun hi => ha (hids a hi)).trans (hstep.frame a ha)
  · exact (congrFun (congrArg PtrGraph.value h2.graph) a).trans (hstep.value a ha)

lemma delivers_tree {m : M T V Unit} {P : RbTree T V → Prop}
    (h : Delivers T V (m (⟨tr,[]⟩ : State T V)) fun r => P r.2.toRbTree) : Delivers T V ((tr.run m).map (·.2)) P := by
  have hrun := delivers_run h
  cases hm : tr.run m with
  | error f =>
    rw [hm] at hrun
    exact hrun
  | ok r =>
    rw [hm] at hrun
    exact hrun

/-- The nodes of `E` may have wrong values while their neighbours are removed. -/
lemma removeRaw (h : Marked E tr t) (hx : t.toList = before ++ x :: after) :
    Delivers T V (tr.removeRaw (some x.1)) fun tr' => ∃ t', Marked E tr' t' ∧ t'.toList = before ++ after ∧
      Keeps {i | i ∈ t.ids} tr.heap tr'.heap := by
  have hnd : ((before ++ x :: after).map Prod.fst).Nodup := hx ▸ h.focus.nodup_tree
  obtain ⟨k,c,l,r,rfl⟩ := Ctx.exists_fill_of_mem (show x ∈ t.toList by simp [hx])
  obtain ⟨n,hn,hk⟩ := (Ctx.balanced_fill k (node c l x r)).mp h.balanced
  obtain ⟨⟨⟩,s1,hrun,hstep,hgood,t',m',hf,hb,hl⟩ :=
    removeLink_spec (s := ⟨tr,[]⟩) (Focus.of_root h.focus) hn hk (fun i hi => hi) h.good
  have hlist : t'.toList = before ++ after := by
    have hold : (k.before ++ l.toList) ++ x :: (r.toList ++ k.after) = before ++ x :: after := by
      rw [← hx, Ctx.toList_fill]
      simp
    obtain ⟨rfl,rfl⟩ := split_unique (hold.symm ▸ hnd) hold
    rw [hl]
    simp
  have hids : ∀ i ∈ t'.ids, i ∈ (k.fill (node c l x r)).ids := fun i hi => by
    simp only [CTree.ids, hlist, hx, List.map_append, List.map_cons, List.mem_append, List.mem_cons] at hi ⊢
    tauto
  unfold RbTree.removeRaw
  apply delivers_tree
  rw [show Rbtree.removeRaw (some x.1) (⟨tr,[]⟩ : State T V) = Rbtree.updateAugments s1 from bind_run hrun]
  refine (h.relinked hstep hgood hf ⟨m',hb⟩ hids fun i hi _ => hids i hi).mono fun r hr => ?_
  exact ⟨t',hr.1,hlist,hr.2⟩

/-- Likewise for an insertion. -/
lemma insertRaw (h : Marked E tr t) (cmp : T → T → Ordering) {a : ℕ} {n : RbNode T V} (hn : tr.heap.get? a = some n)
    (ha : a ∉ t.ids) : Delivers T V (tr.insertRaw (some a) cmp) fun tr' => ∃ t', Marked E tr' t' ∧
      (∀ i ∈ t'.ids, i = a ∨ i ∈ t.ids) ∧ Keeps (insert a {i | i ∈ t.ids}) tr.heap tr'.heap := by
  obtain ⟨m,hm⟩ := h.balanced
  obtain ⟨⟨⟩,s1,hrun,hstep,hgood,hda,k,t',m',hk,hd,hf,hb,hl⟩ :=
    insertLink_ends (s := ⟨tr,[]⟩) cmp h.focus hm h.good hn ha
  have hids : ∀ i ∈ t'.ids, i = a ∨ i ∈ t.ids := fun i hi => by
    rw [← hk, Ctx.mem_ids_fill]
    simp only [CTree.ids, hl, List.map_append, List.map_cons, List.mem_append, List.mem_cons] at hi
    simp only [Ctx.ids, List.map_append, List.mem_append]
    tauto
  unfold RbTree.insertRaw
  apply delivers_tree
  rw [show Rbtree.insertRaw (some a) cmp (⟨tr,[]⟩ : State T V) = Rbtree.updateAugments s1 from bind_run hrun]
  refine (h.relinked hstep hgood hf ⟨m',hb⟩ hids fun i hi hc => ?_).mono fun r hr => ⟨t',hr.1,hids,hr.2⟩
  refine (hids i hi).resolve_left ?_
  rintro rfl
  exact hc hda

/-- Marking the node that may have a wrong value. -/
lemma markDirty (h : Marked {x.1} tr t) (hx : x ∈ t.toList) :
    ∃ tr', tr.run (Rbtree.markDirty (some x.1)) = .ok ((),tr') ∧ Marked ∅ tr' t ∧
      Keeps {i | i ∈ t.ids} tr.heap tr'.heap := by
  have hmem : x.1 ∈ t.ids := List.mem_map_of_mem hx
  have hgb : GoodBut {i | i ∈ t.ids} (some x.1) (⟨tr,[]⟩ : State T V) := h.good.but _
  obtain ⟨_,s',h1,h2,h3,h4⟩ := markDirty_ends hgb (by rintro a ⟨⟩; exact hmem)
  have hgraph : s'.graph = tr.graph := h2.graph
  have hfocus : s'.graph.Focus [] t := hgraph ▸ h.focus
  have hstep : Step {i | i ∈ t.ids} (⟨tr,[]⟩ : State T V) s' :=
    ⟨h2.frame,fun a _ => by rw [h2.graph],fun a _ v hv => ⟨h2.clean a v hv,by rw [h2.graph]⟩,h2.length⟩
  refine ⟨s'.toRbTree,?_,⟨hfocus,h.balanced,⟨h3.live,h3.parent,h3.closed,by simp⟩,fun i hi _ hc => ?_⟩,h2.frame,
    fun a _ => ?_,h2.length⟩
  · simp only [RbTree.run, h1]
    rfl
  · have hne : i ≠ x.1 := by
      rintro rfl
      exact hc (h4 x.1 rfl)
    obtain ⟨v,hv⟩ := Option.ne_none_iff_exists'.mp hc
    have hold : tr.heap.aug i ≠ none := fun hn => by
      have := h2.clean i v hv
      simp [hn] at this
    exact hstep.localAug h3 hfocus.tree (fun j hj => hj) i hi hc (h.settled i hi hne hold)
  · exact congrFun (congrArg PtrGraph.value h2.graph) a

/-- Assigning to the value of a node. -/
lemma setValue (h : Marked E tr t) (hx : t.toList = before ++ x :: after) (w : T) : ∃ heap t',
    tr.heap.setValue x.1 w = .ok heap ∧ Marked (insert x.1 E) ⟨heap,tr.head⟩ t' ∧ t'.toList = before ++ (x.1,w) :: after ∧
    (∀ b, b ≠ x.1 → heap.get? b = tr.heap.get? b) ∧ (∀ i, heap.aug i = tr.heap.aug i) ∧
    heap.cells.length = tr.heap.cells.length := by
  obtain ⟨n,hn,hnv⟩ := h.node_of_mem (show x ∈ t.toList by simp [hx])
  have hnd : ((before ++ x :: after).map Prod.fst).Nodup := hx ▸ h.focus.nodup_tree
  rw [List.map_append, List.map_cons, List.nodup_middle, List.nodup_cons, ← List.map_append, List.mem_map] at hnd
  set f : ℕ × T → T := fun y => if y.1 = x.1 then w else y.2 with hf
  have hget := fun b => Heap.get?_set hn { n with value := w } b
  have hlist : (t.relabel f).toList = before ++ (x.1,w) :: after := by
    have hkeep : ∀ y ∈ before ++ after, (y.1,f y) = y := fun y hy => by
      rw [show f y = y.2 from if_neg fun h => hnd.1 ⟨y,hy,h⟩]
    rw [toList_relabel, hx, List.map_append, List.map_cons, show f x = w from if_pos rfl,
      List.map_congr_left fun y hy => hkeep y (List.mem_append_left _ hy),
      List.map_congr_left fun y hy => hkeep y (List.mem_append_right _ hy), List.map_id', List.map_id']
  have haug : ∀ i, (tr.heap.set x.1 { n with value := w }).aug i = tr.heap.aug i := fun i => by
    simp only [Heap.aug, hget]
    split_ifs with hi
    · rw [hi, hn]
      rfl
    · rfl
  have hfocus : (⟨tr.heap.set x.1 { n with value := w },tr.head⟩ : RbTree T V).graph.Focus [] (t.relabel f) := by
    refine Focus.relabel (g := tr.graph) h.focus rfl fun y hy => ?_
    obtain ⟨m,hm,hmv⟩ := h.node_of_mem hy
    by_cases hyx : y.1 = x.1
    · rw [hyx] at hm
      obtain rfl := Option.some.inj (hn.symm.trans hm)
      refine ⟨?_,?_,?_,?_⟩ <;> simp [RbTree.graph, hget, hyx, hm, hf]
      rfl
    · refine ⟨?_,?_,?_,?_⟩ <;> simp [RbTree.graph, hget, hyx, hm, hf, hmv]
  obtain ⟨m,hm⟩ := h.balanced
  have hparent : ∀ a, (⟨tr.heap.set x.1 { n with value := w },tr.head⟩ : RbTree T V).graph.parent a =
      tr.graph.parent a := fun a => by
    simp only [RbTree.graph, hget]
    split_ifs with hi
    · rw [hi, hn]
      rfl
    · rfl
  refine ⟨tr.heap.set x.1 { n with value := w },t.relabel f,?_,⟨hfocus,⟨m,hm.relabel f⟩,?_,?_⟩,hlist,fun b hb => ?_,haug,
    Heap.length_set _ _ _⟩
  · simp only [Heap.setValue, deref_eq hn, bind, Except.bind]
    rfl
  · rw [ids_relabel]
    refine ⟨fun a ha => ?_,fun a ha b hb => ?_,fun a ha b hb hd => ?_,by simp⟩
    · simp only [hget]
      split_ifs with hi
      · exact ⟨_,rfl⟩
      · exact h.good.live a ha
    · exact h.good.parent a ha b ((hparent a).symm.trans hb)
    · simp only [haug] at hd ⊢
      exact h.good.closed a ha b ((hparent a).symm.trans hb) hd
  · rw [ids_relabel]
    intro i hi hE hc
    rw [Set.mem_insert_iff, not_or] at hE
    have hi' : (tr.heap.set x.1 { n with value := w }).get? i = tr.heap.get? i := by rw [hget, if_neg hE.1]
    obtain ⟨u,v,hu,hv,he⟩ := h.settled i hi hE.2 fun hd => hc ((haug i).trans hd)
    refine ⟨u,v,?_,(haug i).trans hv,?_⟩
    · simp only [RbTree.graph, hi']
      exact hu
    · rw [funext haug]
      simp only [RbTree.graph, hi']
      exact he
  · rw [hget, if_neg hb]

end Marked

lemma RbTree.Valid.marked (h : tr.Valid t) : Marked ∅ tr t :=
  .of_augmentedBut h.focus h.balanced (augmentedBut_empty.mpr h.augmented)

section Merging
variable {mergeFn : T → T → Except Fault (Option T)} {glue : T → T → Option T} {P : T → Prop}

/-- The value of a node is changed and the next node is taken out. -/
lemma Marked.merge (h : Marked ∅ tr t) (ht : t.toList = before ++ x :: y :: after) (z : T) :
    ∃ heap, tr.heap.setValue x.1 z = .ok heap ∧ Delivers T V (RbTree.removeRaw ⟨heap,tr.head⟩ (some y.1)) fun tr1 =>
      ∃ tr2 t2, tr1.run (Rbtree.markDirty (some x.1)) = .ok ((),tr2) ∧ Marked ∅ tr2 t2 ∧
        t2.toList = before ++ (x.1,z) :: after ∧ Grows tr.heap t tr2.heap t2 := by
  obtain ⟨heap,t1,h1,h2,h3,h4,_,h5⟩ := h.setValue ht z
  rw [insert_empty_eq] at h2
  have h3' : t1.toList = (before ++ [(x.1,z)]) ++ y :: after := by simp [h3]
  refine ⟨heap,h1,(h2.removeRaw h3').mono fun tr1 hr => ?_⟩
  obtain ⟨t2,h7,h8,h9⟩ := hr
  have h8' : t2.toList = before ++ (x.1,z) :: after := by simp [h8]
  obtain ⟨tr2,h10,h11,h12⟩ := Marked.markDirty (x := (x.1,z)) h7 (by simp [h8'])
  refine ⟨tr2,t2,h10,h11,h8',?_⟩
  have hg1 : Grows tr.heap t heap t1 := by
    refine ⟨fun b _ hb => h4 b ?_,fun i hi => Or.inl ?_,h5.ge⟩
    · rintro rfl
      exact hb (List.mem_map_of_mem (show x ∈ t.toList by simp [ht]))
    · simpa [CTree.ids, ht, h3] using hi
  have hg2 : Grows heap t1 tr1.heap t2 := Grows.of_keeps h9 fun i hi => by
    simp only [CTree.ids, h8, h3', List.map_append, List.map_cons, List.mem_append, List.mem_cons] at hi ⊢
    tauto
  exact (hg1.trans hg2).trans (Grows.of_keeps h12 fun i hi => hi)

/-- The loop of `pairwise_merge` from a node on. -/
lemma Marked.mergeLoop (hglue : ∀ x y, P x → P y → mergeFn x y = .ok (glue x y))
    (hP : ∀ x y z, P x → P y → glue x y = some z → P z) (fuel : ℕ) (h : Marked ∅ tr t)
    (ht : t.toList = before ++ x :: after) (hall : ∀ z ∈ x :: after, P z.2) (hf : after.length < fuel) :
    Delivers T V (tr.mergeLoop mergeFn fuel x.1) fun tr' => ∃ t', Marked ∅ tr' t' ∧
      values t' = before.map Prod.snd ++ SpanView.glueFrom glue x.2 (after.map Prod.snd) ∧
      Grows tr.heap t tr'.heap t' := by
  induction fuel generalizing tr t before x after with
  | zero => omega
  | succ fuel ih =>
    have hsucc := Focus.successor h.focus ht
    cases after with
    | nil =>
      refine .of_ok (a := tr) ?_ ⟨t,h,by simp [values, ht, SpanView.glueFrom],Grows.refl _ _⟩
      simp only [RbTree.mergeLoop, hsucc, List.head?_nil, Option.map_none, bind, Except.bind]
      rfl
    | cons y after =>
      obtain ⟨n,hn,hnv⟩ := h.node_of_mem (show x ∈ t.toList by simp [ht])
      obtain ⟨m,hm,hmv⟩ := h.node_of_mem (show y ∈ t.toList by simp [ht])
      have hx := hall x List.mem_cons_self
      have hy := hall y (by simp)
      rw [List.length_cons] at hf
      simp only [RbTree.mergeLoop, hsucc, List.head?_cons, Option.map_some, deref_eq hn, deref_eq hm, hnv, hmv,
        hglue x.2 y.2 hx hy, bind, Except.bind]
      cases hz : glue x.2 y.2 with
      | none =>
        refine (ih h (show t.toList = (before ++ [x]) ++ y :: after by simp [ht])
          (fun z hz => hall z (List.mem_cons_of_mem x hz)) (by omega)).mono fun tr' hr => ?_
        obtain ⟨t',h2,h3,h4⟩ := hr
        refine ⟨t',h2,?_,h4⟩
        rw [h3, List.map_cons, SpanView.glueFrom, hz]
        simp
      | some z =>
        obtain ⟨heap,h1,h2⟩ := h.merge ht z
        simp only [h1]
        refine Delivers.bind h2 fun tr1 hr => ?_
        obtain ⟨tr2,t2,h3,h4,h5,h6⟩ := hr
        have hall2 : ∀ w ∈ (x.1,z) :: after, P w.2 := fun w hw => by
          rcases List.mem_cons.mp hw with rfl | hw
          · exact hP x.2 y.2 z hx hy hz
          · exact hall w (by simp [hw])
        simp only [h3]
        refine (ih h4 h5 hall2 (by omega)).mono fun tr' hr' => ?_
        obtain ⟨t',h8,h9,h10⟩ := hr'
        refine ⟨t',h8,?_,h6.trans h10⟩
        rw [h9, List.map_cons, SpanView.glueFrom, hz]

/-- `pairwise_merge` with any augmentation. -/
lemma RbTree.Valid.pairwiseMerge_delivers (hglue : ∀ x y, P x → P y → mergeFn x y = .ok (glue x y))
    (hP : ∀ x y z, P x → P y → glue x y = some z → P z) (h : tr.Valid t) (hall : ∀ x ∈ values t, P x) :
    Delivers T V (tr.pairwiseMerge mergeFn) fun tr' => ∃ t', tr'.Valid t' ∧
      values t' = SpanView.glueAll glue (values t) ∧ Grows tr.heap t tr'.heap t' := by
  have hlow := h.lowestNodeRaw
  cases ht : t.toList with
  | nil =>
    rw [ht] at hlow
    refine .of_ok (a := tr) ?_ ⟨t,h,by simp [values, ht, SpanView.glueAll],Grows.refl _ _⟩
    simp only [RbTree.pairwiseMerge, hlow, List.head?_nil, Option.map_none, bind, Except.bind]
    rfl
  | cons x after =>
    rw [ht] at hlow
    have hfuel : after.length < tr.heap.bound := by
      have := h.lt_bound
      rw [← CTree.toList_length, ht, List.length_cons] at this
      omega
    have ht' : t.toList = [] ++ x :: after := ht
    simp only [RbTree.pairwiseMerge, hlow, List.head?_cons, Option.map_some]
    change Delivers T V (tr.mergeLoop mergeFn tr.heap.bound x.1 >>= fun tr1 =>
      tr1.run Rbtree.updateAugments >>= fun r => pure r.2) _
    refine Delivers.bind (h.marked.mergeLoop hglue hP tr.heap.bound ht'
      (fun z hz => hall z.2 (mem_values (by rw [ht]; exact hz))) hfuel) fun tr1 hr => ?_
    obtain ⟨t1,h2,h3,h4⟩ := hr
    refine Delivers.bind h2.updateAugments fun r hr' => ?_
    obtain ⟨h6,h7⟩ := hr'
    refine .of_ok rfl ⟨t1,h6,?_,h4.trans (Grows.of_keeps h7 fun i hi => hi)⟩
    rw [h3]
    simp [values, ht, SpanView.glueAll]

end Merging

/-- What is asked of `pairwise_merge`: a valid tree whose values are glued from left to right, in order if the gluing
keeps the order. -/
def Merged (glue : T → T → Option T) (t : CTree (ℕ × T)) (tr' : RbTree T V) : Prop :=
  ∃ t', tr'.Valid t' ∧ values t' = SpanView.glueAll glue (values t) ∧
    ∀ R : T → T → Prop, (∀ x y z, glue x y = some z → (∀ a, R a x → R a z) ∧ ∀ b, R y b → R z b) →
      (values t).Pairwise R → (values t').Pairwise R

/-- `pairwise_merge` ends with the merged tree, whatever is computed in the augment values: it fails only if the
augmentation itself does. -/
theorem pairwiseMerge_merges (h : tr.Valid t) (glue : T → T → Option T) :
    Delivers T V (tr.pairwiseMerge fun x y => .ok (glue x y)) (Merged glue t) ∧
    ((∀ (x : T) (left right : Option V), ∃ v, Augment.augment x left right = .ok v) →
      ∃ tr', tr.pairwiseMerge (fun x y => .ok (glue x y)) = .ok tr' ∧ Merged glue t tr') := by
  have hdel : Delivers T V (tr.pairwiseMerge fun x y => .ok (glue x y)) (Merged glue t) := by
    refine (h.pairwiseMerge_delivers (P := fun _ => True) (fun _ _ _ _ => rfl) (fun _ _ _ _ _ _ => trivial)
      fun _ _ => trivial).mono fun tr' hr => ?_
    obtain ⟨t',h1,h2,_⟩ := hr
    refine ⟨t',h1,h2,fun R hR hpair => ?_⟩
    rw [h2]
    cases hv : values t with
    | nil => exact List.Pairwise.nil
    | cons x ys => exact (SpanView.glueFrom_pairwise hR (hv ▸ hpair)).1
  refine ⟨hdel,fun htotal => ?_⟩
  cases hr : tr.pairwiseMerge fun x y => .ok (glue x y) with
  | error f =>
    rw [hr] at hdel
    obtain ⟨x,left,right,hf⟩ := hdel
    obtain ⟨v,hv⟩ := htotal x left right
    simp [hv] at hf
  | ok tr' =>
    rw [hr] at hdel
    exact ⟨tr',rfl,hdel⟩

section Sum

/-- The sum of the values as augment value. -/
local instance sumAugment : Augment ℕ ℕ := ⟨fun x left right => .ok (x + left.getD 0 + right.getD 0)⟩

/-- Two equal neighbours become one, and the sum at the root changes. -/
theorem pairwiseMerge_merges_equal : ∃ (tr tr' : RbTree ℕ ℕ) (t' : CTree (ℕ × ℕ)), tr.heap.aug 0 = some 19 ∧
    tr.pairwiseMerge (fun x y => .ok (if x = y then some x else none)) = .ok tr' ∧ tr'.Valid t' ∧ values t' = [5,9] := by
  let tr : RbTree ℕ ℕ := ⟨⟨[some ⟨.black,none,some 1,some 2,5,some 19⟩,some ⟨.red,some 0,none,none,5,some 5⟩,
    some ⟨.red,some 0,none,none,9,some 9⟩]⟩,some 0⟩
  have hv : tr.Valid (node .black (node .red leaf (1,5) leaf) (0,5) (node .red leaf (2,9) leaf)) :=
    ⟨⟨trivial,⟨rfl,rfl,rfl,rfl,⟨rfl,rfl,rfl,rfl,rfl,rfl⟩,rfl,rfl,rfl,rfl,rfl,rfl⟩,by decide⟩,
      ⟨1,0,rfl,⟨rfl,rfl,rfl,rfl⟩,rfl,rfl,rfl,rfl⟩,⟨trivial,trivial,5,rfl,rfl⟩,⟨trivial,trivial,9,rfl,rfl⟩,19,rfl,rfl⟩
  obtain ⟨tr',h1,t',h2,h3,_⟩ := (pairwiseMerge_merges hv fun x y => if x = y then some x else none).2
    fun x left right => ⟨_,rfl⟩
  exact ⟨tr,tr',t',rfl,h1,h2,h3⟩

end Sum

variable {tr : RbTree T Unit}

lemma augOf_unit (t : CTree (ℕ × T)) : ∃ w : Option Unit, augOf t = .ok w := by
  induction t with
  | leaf => exact ⟨none,rfl⟩
  | node c l x r ihl ihr =>
    obtain ⟨wl,hl⟩ := ihl
    obtain ⟨wr,hr⟩ := ihr
    exact ⟨some (),by simp [augOf, hl, hr, Augment.augment, bind, Except.bind, pure, Except.pure]⟩

/-- A tree without augment values is augmented if none of its nodes is dirty. -/
lemma augmented_unit {h : Heap T Unit} (hc : ∀ i ∈ t.ids, h.aug i = some ()) : Augmented h t := by
  induction t with
  | leaf => trivial
  | node c l x r ihl ihr =>
    exact ⟨ihl fun i hi => hc i (by simp [hi]),ihr fun i hi => hc i (by simp [hi]),(),hc x.1 (by simp),rfl⟩

/-- Assigning to the value of a node, without a change of its span. -/
lemma SpanTree.setValue {A W : Type} [LinearOrder A] {v : SpanView A T W} (hs : SpanTree v tr t)
    (ht : t.toList = before ++ x :: after) {w : T} (hlo : v.lo w = v.lo x.2) (hhi : v.hi w = v.hi x.2) :
    ∃ heap t', tr.heap.setValue x.1 w = .ok heap ∧ SpanTree v ⟨heap,tr.head⟩ t' ∧
      t'.toList = before ++ (x.1,w) :: after ∧ Grows tr.heap t heap t' := by
  obtain ⟨heap,t',h1,h2,h3,h4,h5,h6⟩ := hs.valid.marked.setValue ht w
  have hids : t'.ids = t.ids := by simp [CTree.ids, ht, h3]
  have hclean : ∀ i ∈ t'.ids, heap.aug i = some () := fun i hi => by
    rw [hids] at hi
    obtain ⟨y,hy,rfl⟩ := List.mem_map.mp hi
    obtain ⟨_,_,_,_,_,h⟩ := hs.valid.node_of_mem hy
    rw [h5]
    exact h
  refine ⟨heap,t',h1,⟨⟨h2.focus,h2.balanced,augmented_unit hclean⟩,?_⟩,h3,fun b _ hb => h4 b ?_,
    fun i hi => Or.inl (hids ▸ hi),h6.ge⟩
  · have hw := hs.wf
    rw [values_eq_append ht, List.map_cons] at hw
    rw [values_eq_append h3, List.map_cons]
    exact hw.replace hlo hhi
  · rintro rfl
    exact hb (List.mem_map_of_mem (show x ∈ t.toList by simp [ht]))

section Merging
variable {mergeFn : T → T → Except Fault (Option T)} {glue : T → T → Option T} {P : T → Prop}

/-- `pairwise_merge` -/
theorem RbTree.Valid.pairwiseMerge (hglue : ∀ x y, P x → P y → mergeFn x y = .ok (glue x y))
    (hP : ∀ x y z, P x → P y → glue x y = some z → P z) (h : tr.Valid t) (hall : ∀ x ∈ values t, P x) :
    ∃ tr' t', tr.pairwiseMerge mergeFn = .ok tr' ∧ tr'.Valid t' ∧ values t' = SpanView.glueAll glue (values t) ∧
      Grows tr.heap t tr'.heap t' := by
  obtain ⟨tr',h1,t',h2⟩ := (h.pairwiseMerge_delivers hglue hP hall).unit
  exact ⟨tr',t',h1,h2⟩

/-- Without neighbours that can be merged, `pairwise_merge` changes nothing. -/
lemma mergeLoop_same (hglue : ∀ x y, P x → P y → mergeFn x y = .ok (glue x y)) (fuel : ℕ) (h : tr.Valid t)
    (ht : t.toList = before ++ x :: after) (hall : ∀ z ∈ x :: after, P z.2)
    (hno : (x :: after).IsChain fun a b => glue a.2 b.2 = none) (hf : after.length < fuel) :
    tr.mergeLoop mergeFn fuel x.1 = .ok tr := by
  induction fuel generalizing before x after with
  | zero => omega
  | succ fuel ih =>
    have hsucc := h.successor ht
    cases after with
    | nil =>
      simp only [RbTree.mergeLoop, hsucc, List.head?_nil, Option.map_none, bind, Except.bind]
      rfl
    | cons y after =>
      obtain ⟨n,_,hn,hnv,_⟩ := h.node_of_mem (show x ∈ t.toList by simp [ht])
      obtain ⟨m,_,hm,hmv,_⟩ := h.node_of_mem (show y ∈ t.toList by simp [ht])
      rw [List.length_cons] at hf
      rw [List.isChain_cons_cons] at hno
      simp only [RbTree.mergeLoop, hsucc, List.head?_cons, Option.map_some, deref_eq hn, deref_eq hm, hnv, hmv,
        hglue x.2 y.2 (hall x List.mem_cons_self) (hall y (by simp)), hno.1, bind, Except.bind]
      exact ih (show t.toList = (before ++ [x]) ++ y :: after by simp [ht])
        (fun z hz => hall z (List.mem_cons_of_mem x hz)) hno.2 (by omega)

theorem RbTree.Valid.pairwiseMerge_same (hglue : ∀ x y, P x → P y → mergeFn x y = .ok (glue x y)) (h : tr.Valid t)
    (hall : ∀ x ∈ values t, P x) (hno : (values t).IsChain fun x y => glue x y = none) :
    tr.pairwiseMerge mergeFn = .ok tr := by
  have hlow := h.lowestNodeRaw
  cases ht : t.toList with
  | nil =>
    rw [ht] at hlow
    simp only [RbTree.pairwiseMerge, hlow, List.head?_nil, Option.map_none, bind, Except.bind]
    rfl
  | cons x after =>
    rw [ht] at hlow
    have hfuel : after.length < tr.heap.bound := by
      have := h.lt_bound
      rw [← CTree.toList_length, ht, List.length_cons] at this
      omega
    have ht' : t.toList = [] ++ x :: after := ht
    have hno' : (x :: after).IsChain fun a b => glue a.2 b.2 = none := by
      rw [← ht]
      exact (List.isChain_map Prod.snd).mp hno
    have h1 := mergeLoop_same hglue tr.heap.bound h ht' (fun z hz => hall z.2 (mem_values (by rw [ht]; exact hz)))
      hno' hfuel
    simp only [RbTree.pairwiseMerge, hlow, List.head?_cons, Option.map_some, h1, Marked.updateAugments_valid h, bind,
      Except.bind]
    rfl

end Merging
end Lilith.Rbtree
