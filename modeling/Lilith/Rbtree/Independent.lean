import Lilith.Rbtree.Clone
import Lilith.Rbtree.Merge

/-! Two trees in one memory. A tree and its clone have no node in common, and an operation on one of them writes to its own
nodes and to fresh ones only, so the other one keeps its values through every run of operations on both. -/
namespace Lilith.Rbtree
open Theory PtrGraph CTree

variable {T V : Type} [Augment T V] {tr tr' : RbTree T V} {t u : CTree (ℕ × T)} {U : Set ℕ} {h h' : Heap T V} {p p' q q' : Ptr}

/-- The operations on a tree, where `U` are the nodes of another one: a value or a node that is in no tree is inserted, a
node is taken out, or the value of a node is assigned. -/
inductive Edit (U : Set ℕ) : RbTree T V → RbTree T V → Prop
  | insertNew {tr tr' : RbTree T V} (value : T) (cmp : T → T → Ordering) (hrun : tr.insertNew value cmp = .ok tr') :
      Edit U tr tr'
  | insertRaw {tr tr' : RbTree T V} {a : ℕ} {n : RbNode T V} (cmp : T → T → Ordering) (hn : tr.heap.get? a = some n)
      (hself : a ∉ tr.toTree.ids) (hother : a ∉ U) (hrun : tr.insertRaw (some a) cmp = .ok tr') : Edit U tr tr'
  | removeRaw {tr tr' : RbTree T V} {a : ℕ} (ha : a ∈ tr.toTree.ids) (hrun : tr.removeRaw (some a) = .ok tr') :
      Edit U tr tr'
  | removeValue {tr tr' : RbTree T V} {a : ℕ} {value : T} (ha : a ∈ tr.toTree.ids)
      (hrun : tr.removeValue (some a) = .ok (value,tr')) : Edit U tr tr'
  | setValue {tr : RbTree T V} {a : ℕ} {heap : Heap T V} (value : T) (ha : a ∈ tr.toTree.ids)
      (hrun : tr.heap.setValue a value = .ok heap) : Edit U tr ⟨heap,tr.head⟩

/-- The runs of such operations on two trees. -/
inductive Edited (h : Heap T V) (p q : Ptr) : Heap T V → Ptr → Ptr → Prop
  | start : Edited h p q h p q
  | first {h1 h2 : Heap T V} {p1 p2 q1 : Ptr} (hrun : Edited h p q h1 p1 q1)
      (he : Edit {i | i ∈ (RbTree.toTree ⟨h1,q1⟩).ids} ⟨h1,p1⟩ ⟨h2,p2⟩) : Edited h p q h2 p2 q1
  | second {h1 h2 : Heap T V} {p1 q1 q2 : Ptr} (hrun : Edited h p q h1 p1 q1)
      (he : Edit {i | i ∈ (RbTree.toTree ⟨h1,p1⟩).ids} ⟨h1,q1⟩ ⟨h2,q2⟩) : Edited h p q h2 p1 q2

lemma Delivers.of_run {α : Type} {m : Except Fault α} {P : α → Prop} {a : α} (hd : Delivers T V m P) (hm : m = .ok a) :
    P a := by
  rw [hm] at hd
  exact hd

namespace Marked

/-- The tree that is read from memory. -/
lemma toTree_eq (h : Marked Set.univ tr t) : tr.toTree = t := by
  refine Rbtree.toTree_eq _ (repr_heap.mp h.focus.tree) ?_
  have hsize := Focus.size_le_heap h.focus
  simp only [Heap.bound]
  omega

lemma lt_length (h : Marked Set.univ tr t) : ∀ i ∈ t.ids, i < tr.heap.cells.length :=
  Repr.lt_length (repr_heap.mp h.focus.tree)

/-- The tree does not depend on memory outside of its nodes. -/
lemma congr (h : Marked Set.univ tr t) {heap : Heap T V} (hk : ∀ i ∈ t.ids, heap.get? i = tr.heap.get? i) :
    Marked Set.univ ⟨heap,tr.head⟩ t := by
  have hgraph : ∀ i ∈ t.ids, (⟨heap,tr.head⟩ : RbTree T V).graph.parent i = tr.graph.parent i := fun i hi => by
    simp [RbTree.graph, hk i hi]
  have haug : ∀ i ∈ t.ids, heap.aug i = tr.heap.aug i := fun i hi => by simp [Heap.aug, hk i hi]
  refine ⟨h.focus.congr_away rfl fun i hi => ?_,h.balanced,⟨fun a ha => ?_,fun a ha b hb => ?_,fun a ha b hb hd => ?_,?_⟩,
    fun i _ hi => absurd (Set.mem_univ i) hi⟩
  · have hi' := hk i hi
    exact ⟨by simp [RbTree.graph, hi'],by simp [RbTree.graph, hi'],by simp [RbTree.graph, hi'],by simp [RbTree.graph, hi']⟩
  · obtain ⟨n,hn⟩ := h.good.live a ha
    exact ⟨n,(hk a ha).trans hn⟩
  · exact h.good.parent a ha b ((hgraph a ha).symm.trans hb)
  · have hb' : tr.graph.parent a = some b := (hgraph a ha).symm.trans hb
    rcases h.good.closed a ha b hb' ((haug a ha).symm.trans hd) with hup | hup
    · exact Or.inl ((haug b (h.good.parent a ha b hb')).trans hup)
    · exact Or.inr hup
  · simp

end Marked

/-- What an operation does to its tree and to the nodes of the other one. -/
structure Follows (U : Set ℕ) (tr tr' : RbTree T V) (t' : CTree (ℕ × T)) : Prop where
  tree : Marked Set.univ tr' t'
  apart : ∀ i ∈ t'.ids, i ∉ U
  frame : ∀ i ∈ U, tr'.heap.get? i = tr.heap.get? i

lemma Follows.insertRaw (h : Marked Set.univ tr t) (hU : ∀ i ∈ t.ids, i ∉ U) (cmp : T → T → Ordering) {a : ℕ}
    {n : RbNode T V} (hn : tr.heap.get? a = some n) (ha : a ∉ t.ids) (haU : a ∉ U)
    (hrun : tr.insertRaw (some a) cmp = .ok tr') : ∃ t', Follows U tr tr' t' := by
  obtain ⟨t',h1,h2,h3⟩ := (h.insertRaw cmp hn ha).of_run hrun
  refine ⟨t',h1,fun i hi hiU => ?_,fun i hi => h3.frame i ?_⟩
  · rcases h2 i hi with rfl | hi
    · exact haU hiU
    · exact hU i hi hiU
  · rintro (rfl | hi')
    · exact haU hi
    · exact hU i hi' hi

lemma Follows.removeRaw (h : Marked Set.univ tr t) (hU : ∀ i ∈ t.ids, i ∉ U) {a : ℕ} (ha : a ∈ t.ids)
    (hrun : tr.removeRaw (some a) = .ok tr') : ∃ t', Follows U tr tr' t' ∧ a ∉ t'.ids := by
  obtain ⟨x,hx,rfl⟩ := List.mem_map.mp ha
  obtain ⟨before,after,hlist⟩ := List.append_of_mem hx
  obtain ⟨t',h1,h2,h3⟩ := (h.removeRaw hlist).of_run hrun
  have hnd := h.focus.nodup_tree
  rw [CTree.ids, hlist, List.map_append, List.map_cons] at hnd
  have hids : ∀ i ∈ t'.ids, i ∈ t.ids := fun i hi => by
    simp only [CTree.ids, h2, hlist, List.map_append, List.map_cons, List.mem_append, List.mem_cons] at hi ⊢
    tauto
  refine ⟨t',⟨h1,fun i hi => hU i (hids i hi),fun i hi => h3.frame i fun hi' => hU i hi' hi⟩,?_⟩
  rw [CTree.ids, h2, List.map_append]
  exact (List.nodup_cons.mp (List.nodup_middle.mp hnd)).1

/-- Every operation on a tree leaves the nodes of the other one alone. -/
theorem Edit.follows (he : Edit U tr tr') (h : Marked Set.univ tr t) (hU : ∀ i ∈ t.ids, i ∉ U)
    (hlt : ∀ i ∈ U, i < tr.heap.cells.length) : ∃ t', Follows U tr tr' t' := by
  cases he with
  | insertNew value cmp hrun =>
    have hext := Extends.alloc tr.heap (.new value)
    have h1 : Marked Set.univ ⟨(tr.heap.alloc (.new value)).2,tr.head⟩ t := h.congr fun i hi => hext.frame i (h.lt_length i hi)
    have hn : (tr.heap.alloc (.new value)).2.get? tr.heap.cells.length = some (.new value) := by
      simp [Heap.alloc, Heap.get?]
    obtain ⟨t',h2⟩ := Follows.insertRaw h1 hU cmp hn (fun hi => lt_irrefl _ (h.lt_length _ hi))
      (fun hi => lt_irrefl _ (hlt _ hi)) hrun
    exact ⟨t',h2.tree,h2.apart,fun i hi => (h2.frame i hi).trans (hext.frame i (hlt i hi))⟩
  | insertRaw cmp hn hself hother hrun => exact Follows.insertRaw h hU cmp hn (h.toTree_eq ▸ hself) hother hrun
  | removeRaw ha hrun =>
    obtain ⟨t',h1,_⟩ := Follows.removeRaw h hU (h.toTree_eq ▸ ha) hrun
    exact ⟨t',h1⟩
  | @removeValue _ a value ha hrun =>
    rw [h.toTree_eq] at ha
    unfold RbTree.removeValue at hrun
    cases hr : tr.removeRaw (some a) with
    | error f => simp [hr, bind, Except.bind] at hrun
    | ok tr1 =>
      obtain ⟨t',h1,hout⟩ := Follows.removeRaw h hU ha hr
      cases hd : tr1.heap.deref (some a) with
      | error f => simp [hr, hd, bind, Except.bind] at hrun
      | ok n =>
        simp only [hr, hd, bind, Except.bind, pure, Except.pure, Option.elim_some] at hrun
        obtain ⟨_,rfl⟩ := Prod.mk.inj (Except.ok.inj hrun)
        have hfree : ∀ i, i ≠ a → (tr1.heap.free a).get? i = tr1.heap.get? i := fun i hi => by
          simp [Heap.free, Heap.get?, List.getElem?_set_ne hi.symm]
        refine ⟨t',h1.tree.congr fun i hi => hfree i ?_,h1.apart,fun i hi => (hfree i ?_).trans (h1.frame i hi)⟩
        · rintro rfl
          exact hout hi
        · rintro rfl
          exact hU i ha hi
  | @setValue a heap value ha hrun =>
    rw [h.toTree_eq] at ha
    obtain ⟨x,hx,rfl⟩ := List.mem_map.mp ha
    obtain ⟨before,after,hlist⟩ := List.append_of_mem hx
    obtain ⟨heap',t',h1,h2,h3,h4,_⟩ := h.setValue hlist value
    obtain rfl := Except.ok.inj (h1.symm.trans hrun)
    rw [Set.insert_eq_of_mem (Set.mem_univ x.1)] at h2
    have hids : t'.ids = t.ids := by simp [CTree.ids, hlist, h3]
    refine ⟨t',h2,fun i hi => hU i (hids ▸ hi),fun i hi => h4 i ?_⟩
    rintro rfl
    exact hU x.1 ha hi

/-- Two red-black trees with no node in common. -/
structure TwoTrees (h : Heap T V) (p q : Ptr) (t u : CTree (ℕ × T)) : Prop where
  first : Marked Set.univ (⟨h,p⟩ : RbTree T V) t
  second : Marked Set.univ (⟨h,q⟩ : RbTree T V) u
  apart : ∀ i ∈ t.ids, i ∉ u.ids

lemma TwoTrees.swap (h2 : TwoTrees h p q t u) : TwoTrees h q p u t :=
  ⟨h2.second,h2.first,fun i hu ht => h2.apart i ht hu⟩

/-- An operation on the first tree keeps the second one as it is. -/
lemma TwoTrees.edit (h2 : TwoTrees h p q t u) (he : Edit {i | i ∈ (RbTree.toTree ⟨h,q⟩).ids} ⟨h,p⟩ ⟨h',p'⟩) :
    ∃ t', TwoTrees h' p' q t' u := by
  rw [h2.second.toTree_eq] at he
  obtain ⟨t',h3⟩ := he.follows h2.first h2.apart h2.second.lt_length
  exact ⟨t',h3.tree,h2.second.congr h3.frame,h3.apart⟩

/-- In every run there are two trees with no node in common. -/
lemma Edited.twoTrees (hrun : Edited h p q h' p' q') (h2 : TwoTrees h p q t u) : ∃ t' u', TwoTrees h' p' q' t' u' := by
  induction hrun with
  | start => exact ⟨t,u,h2⟩
  | first _ he ih =>
    obtain ⟨t1,u1,h3⟩ := ih
    obtain ⟨t',h4⟩ := h3.edit he
    exact ⟨t',u1,h4⟩
  | second _ he ih =>
    obtain ⟨t1,u1,h3⟩ := ih
    obtain ⟨u',h4⟩ := h3.swap.edit he
    exact ⟨t1,u',h4.swap⟩

/-- What is asked of `clone`: a valid copy in fresh nodes that is equal to the tree, and whatever is done to one of the two
later, the other one keeps its values. -/
structure Independent [DecidableEq T] (tr tr' : RbTree T V) (t t' : CTree (ℕ × T)) : Prop where
  valid : tr'.Valid t'
  copy : Copy tr.heap tr'.heap t t'
  fresh : ∀ i ∈ t'.ids, tr.heap.cells.length ≤ i
  original : RbTree.Valid (⟨tr'.heap,tr.head⟩ : RbTree T V) t
  equal : tr'.heap.treeEq tr.head tr'.head = .ok true
  second : ∀ h p q h' p', Edited tr'.heap tr.head tr'.head h p q →
    Edit {i | i ∈ (RbTree.toTree ⟨h,q⟩).ids} ⟨h,p⟩ ⟨h',p'⟩ → RbTree.toTree ⟨h',q⟩ = RbTree.toTree ⟨h,q⟩
  first : ∀ h p q h' q', Edited tr'.heap tr.head tr'.head h p q →
    Edit {i | i ∈ (RbTree.toTree ⟨h,p⟩).ids} ⟨h,q⟩ ⟨h',q'⟩ → RbTree.toTree ⟨h',p⟩ = RbTree.toTree ⟨h,p⟩

lemma RbTree.Valid.loose (hv : tr.Valid t) : Marked Set.univ tr t :=
  ⟨hv.focus,hv.balanced,hv.marked.good,fun i _ hi => absurd (Set.mem_univ i) hi⟩

/-- `clone` gives an independent copy. -/
theorem clone_independent [DecidableEq T] (hv : tr.Valid t) : ∃ tr' t', tr.clone = .ok tr' ∧ Independent tr tr' t t' := by
  obtain ⟨tr',t',h1,h2,h3,h4,h5⟩ := hv.clone
  have hlt : ∀ i ∈ t.ids, i < tr.heap.cells.length := Repr.lt_length (repr_heap.mp hv.focus.tree)
  have horig : RbTree.Valid (⟨tr'.heap,tr.head⟩ : RbTree T V) t := hv.congr fun i hi => h5.frame i (hlt i hi)
  have htwo : TwoTrees tr'.heap tr.head tr'.head t t' :=
    ⟨horig.loose,h2.loose,fun i hi hi' => absurd (hlt i hi) (not_lt.mpr (h4 i hi'))⟩
  refine ⟨tr',t',h1,h2,h3,h4,horig,?_,fun h p q h' p' hrun he => ?_,fun h p q h' q' hrun he => ?_⟩
  · rw [treeEq_ok horig (show RbTree.Valid (⟨tr'.heap,tr'.head⟩ : RbTree T V) t' from h2), h3.values_eq, decide_eq_true rfl]
  · obtain ⟨t1,u1,h6⟩ := hrun.twoTrees htwo
    obtain ⟨t2,h7⟩ := h6.edit he
    rw [h7.second.toTree_eq, h6.second.toTree_eq]
  · obtain ⟨t1,u1,h6⟩ := hrun.twoTrees htwo
    obtain ⟨u2,h7⟩ := h6.swap.edit he
    rw [h7.second.toTree_eq, h6.first.toTree_eq]

/-- A value is inserted into a tree of three nodes after it was cloned. -/
theorem clone_independent_three : ∃ tr' t' tr1, threeNodes.clone = .ok tr' ∧
    Independent threeNodes tr' (node .black (node .red leaf (1,5) leaf) (0,5) (node .red leaf (2,9) leaf)) t' ∧
    RbTree.insertNew ⟨tr'.heap,threeNodes.head⟩ 7 compare = .ok tr1 ∧ RbTree.toTree ⟨tr1.heap,tr'.head⟩ = t' := by
  obtain ⟨tr',t',h1,h2⟩ := clone_independent threeNodes_valid
  obtain ⟨tr1,h3⟩ : ∃ tr1, RbTree.insertNew ⟨tr'.heap,threeNodes.head⟩ 7 compare = .ok tr1 := by
    have hext := Extends.alloc tr'.heap (.new 7)
    have hnew : (tr'.heap.alloc (.new 7)).2.get? tr'.heap.cells.length = some (.new 7) := by simp [Heap.alloc, Heap.get?]
    have hm := h2.original.loose
    obtain ⟨tr1,h3,_⟩ := ((hm.congr fun i hi => hext.frame i (hm.lt_length i hi)).insertRaw compare hnew
      fun hi => lt_irrefl _ (hm.lt_length _ hi)).unit
    exact ⟨tr1,h3⟩
  refine ⟨tr',t',tr1,h1,h2,h3,?_⟩
  rw [h2.second _ _ _ tr1.heap tr1.head .start (.insertNew 7 compare h3)]
  exact h2.valid.toTree_eq

end Lilith.Rbtree
