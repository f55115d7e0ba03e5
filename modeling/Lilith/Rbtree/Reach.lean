import Lilith.Rbtree.Order

/-! Every tree that insertions and removals can build. Between two operations the owner of the
tree may do anything to the memory of other nodes. -/
namespace Lilith.Rbtree
open Theory PtrGraph CTree

variable {T V : Type} [Augment T V] {s : State T V} {N : Set ℕ}

/-- The states reachable from an empty tree, with the set of nodes that are in the tree. The
record of the early stops of `markDirty` runs through the whole history. -/
inductive Reach : State T V → Set ℕ → Prop
  | new (heap : Heap T V) : Reach ⟨⟨heap,none⟩,[]⟩ ∅
  | other {s : State T V} {N : Set ℕ} (heap : Heap T V) (h : Reach s N)
      (hkeep : ∀ a ∈ N, heap.get? a = s.heap.get? a) : Reach { s with heap := heap } N
  | insert {s s' : State T V} {N : Set ℕ} {a : ℕ} {n : RbNode T V} (cmp : T → T → Ordering)
      (h : Reach s N) (hfresh : a ∉ N) (hn : s.heap.get? a = some n)
      (hrun : insertRaw (some a) cmp s = .ok ((),s')) : Reach s' (insert a N)
  | remove {s s' : State T V} {N : Set ℕ} {a : ℕ} (h : Reach s N) (hmem : a ∈ N)
      (hrun : removeRaw (some a) s = .ok ((),s')) : Reach s' (N \ {a})

/-- The invariant of all reachable states. -/
structure Inv (s : State T V) (N : Set ℕ) (t : CTree (ℕ × T)) : Prop where
  valid : s.Valid t
  nodes : ∀ i, i ∈ N ↔ i ∈ t.ids
  stops : ∀ e ∈ s.stops, e.1.DirtyUp e.2

/-- A valid tree does not depend on memory outside of its nodes. -/
lemma RbTree.Valid.congr {tr : RbTree T V} {t : CTree (ℕ × T)} (h : tr.Valid t) {heap : Heap T V}
    (hk : ∀ a ∈ t.ids, heap.get? a = tr.heap.get? a) : RbTree.Valid ⟨heap,tr.head⟩ t := by
  refine ⟨h.focus.congr_away rfl fun i hi => ?_,h.balanced,h.augmented.congr fun i hi => ?_⟩
  · have hi' := hk i hi
    exact ⟨by simp [graph, hi'],by simp [graph, hi'],by simp [graph, hi'],by simp [graph, hi']⟩
  · simp [Heap.aug, hk i hi]

/-- The result of an operation that returned. -/
lemma Yields.of_ok {m : M T V Unit} {s' : State T V} {t' : CTree (ℕ × T)} {S : Set ℕ}
    {h : Heap T V} (hy : Yields m s t' S h) (hrun : m s = .ok ((),s')) :
    s'.Valid t' ∧ (∀ e ∈ s'.stops, e.1.DirtyUp e.2) ∧ Keeps S h s'.heap := by
  simp only [Yields] at hy
  cases he : augOf (V := V) t' with
  | error f => rw [he] at hy; rw [hrun] at hy; simp at hy
  | ok w =>
    rw [he] at hy
    obtain ⟨s2,h1,h2⟩ := hy
    rw [hrun] at h1
    obtain rfl : s' = s2 := by simpa using h1
    exact h2

theorem inv_of_reach (h : Reach s N) : ∃ t, Inv s N t := by
  induction h with
  | new heap =>
    exact ⟨leaf,⟨⟨trivial,rfl,by simp⟩,⟨0,rfl⟩,trivial⟩,by simp,by simp⟩
  | other heap h hkeep ih =>
    obtain ⟨t,hv,hN,hs⟩ := ih
    exact ⟨t,hv.congr fun a ha => hkeep a ((hN a).mpr ha),hN,hs⟩
  | @insert s s' N a n cmp h hfresh hn hrun ih =>
    obtain ⟨t,hv,hN,hs⟩ := ih
    obtain ⟨t',k,hk,_,hl,hy⟩ := insertRaw_yields cmp hv hs hn (mt (hN a).mpr hfresh)
    obtain ⟨h1,h2,_⟩ := hy.of_ok hrun
    refine ⟨t',h1,fun i => ?_,h2⟩
    have hids : t'.ids = k.before.map Prod.fst ++ a::k.after.map Prod.fst := by
      rw [CTree.ids, hl]; simp
    rw [Set.mem_insert_iff, hN, ← hk, Ctx.mem_ids_fill, hids]
    simp only [Ctx.ids, List.map_append, List.mem_append, List.mem_cons, ids_leaf, List.not_mem_nil]
    tauto
  | @remove s s' N a h hmem hrun ih =>
    obtain ⟨t,hv,hN,hs⟩ := ih
    obtain ⟨x,hx,rfl⟩ := List.mem_map.mp ((hN a).mp hmem)
    obtain ⟨t',before,after,h1,h2,hy⟩ := removeRaw_yields hv hs hx
    obtain ⟨h3,h4,_⟩ := hy.of_ok hrun
    refine ⟨t',h3,fun i => ?_,h4⟩
    have hnd := hv.focus.nodup_tree
    rw [CTree.ids, h1, List.map_append, List.map_cons] at hnd
    have hout := (List.nodup_cons.mp (List.nodup_middle.mp hnd)).1
    rw [Set.mem_sdiff, Set.mem_singleton_iff, hN, CTree.ids, CTree.ids, h1, h2]
    simp only [List.map_append, List.mem_append, List.map_cons, List.mem_cons] at hout ⊢
    constructor
    · tauto
    · intro hi
      have : i ≠ x.1 := by rintro rfl; exact hout hi
      tauto

/-- Every reachable tree is a red-black tree of its nodes, and every operation on it ends in one:
no null or dangling pointer is followed, no assertion fails and every loop ends. Only a fault of
the augmentation itself can stop an operation, after all links and colours are in place. -/
theorem red_black_of_reach (h : Reach s N) :
    (∃ t m, s.graph.Focus [] t ∧ t.Balanced m ∧ ∀ i, i ∈ N ↔ i ∈ t.ids) ∧
    (∀ a n cmp, a ∉ N → s.heap.get? a = some n → ∃ s1 t' m,
      insertLink (some a) cmp s = .ok ((),s1) ∧ s1.graph.Focus [] t' ∧ t'.Balanced m ∧
      Yields (insertRaw (some a) cmp) s t' (insert a N) s.heap) ∧
    (∀ a ∈ N, ∃ s1 t' m, removeLink (some a) s = .ok ((),s1) ∧ s1.graph.Focus [] t' ∧
      t'.Balanced m ∧ Yields (removeRaw (some a)) s t' N s.heap) := by
  obtain ⟨t,hv,hN,hs⟩ := inv_of_reach h
  have hset : N = {i | i ∈ t.ids} := Set.ext hN
  refine ⟨?_,fun a n cmp ha hn => ?_,fun a ha => ?_⟩
  · obtain ⟨m,hm⟩ := hv.balanced
    exact ⟨t,m,hv.focus,hm,hN⟩
  · obtain ⟨s1,t',k,hrun,hl,_⟩ := insertLink_linked cmp hv hs hn (mt (hN a).mpr ha)
    obtain ⟨m,hm⟩ := hl.balanced
    refine ⟨s1,t',m,hrun,hl.focus,hm,?_⟩
    have hraw : insertRaw (some a) cmp s = updateAugments s1 := bind_run hrun
    rw [Yields, hraw, hset]
    exact hl.update hv
  · obtain ⟨x,hx,rfl⟩ := List.mem_map.mp ((hN a).mp ha)
    obtain ⟨s1,t',_,_,hrun,hl,_⟩ := removeLink_linked hv hs hx
    obtain ⟨m,hm⟩ := hl.balanced
    refine ⟨s1,t',m,hrun,hl.focus,hm,?_⟩
    have hraw : removeRaw (some x.1) s = updateAugments s1 := bind_run hrun
    rw [Yields, hraw, hset]
    exact hl.update hv

/-- Two nodes inserted into an empty tree. -/
lemma reach_two : ∃ s : State ℕ Unit, Reach s (insert 1 (insert 0 ∅)) := by
  have h0 : Reach (⟨⟨⟨[some (.new 7),some (.new 5)]⟩,none⟩,[]⟩ : State ℕ Unit) ∅ := .new _
  have h1 := Reach.insert (a := 0) compare h0 (by simp) rfl rfl
  exact ⟨_,Reach.insert (a := 1) compare h1 (by simp) rfl rfl⟩

theorem red_black_two : ∃ s : State ℕ Unit, Reach s (insert 1 (insert 0 ∅)) ∧
    ∃ t m, s.graph.Focus [] t ∧ t.Balanced m ∧ ∀ i, i = 1 ∨ i = 0 ↔ i ∈ t.ids := by
  obtain ⟨s,h⟩ := reach_two
  obtain ⟨t,m,h1,h2,h3⟩ := (red_black_of_reach h).1
  exact ⟨s,h,t,m,h1,h2,fun i => by simpa using h3 i⟩

/-- What holds when `updateAugments` starts in `s1` on the new tree `t'`, the old tree being `t`:
the dirty nodes are closed under parents and contain every node whose subtree changed, and
`updateAugments` ends with a value at every node. -/
structure Settles (t : CTree (ℕ × T)) (s1 : State T V) (t' : CTree (ℕ × T)) (S : Set ℕ)
    (h : Heap T V) : Prop where
  focus : s1.graph.Focus [] t'
  closed : ∀ i ∈ t'.ids, s1.heap.aug i = none → s1.heap.DirtyUp i
  changed : ∀ (k : Ctx (ℕ × T)) c l x r, k.fill (node c l x r) = t' → s1.heap.aug x.1 ≠ none →
    ∃ (k0 : Ctx (ℕ × T)) (u : CTree (ℕ × T)), k0.fill u = t ∧
      uncolored u = uncolored (node c l x r)
  update : Yields updateAugments s1 t' S h

lemma Linked.settles {S : Set ℕ} {t t' : CTree (ℕ × T)} {s1 : State T V} (h : Linked S t s s1 t')
    (hv : s.Valid t) : Settles t s1 t' S s.heap where
  focus := h.focus
  closed _ hi hd := h.dirtyUp hi hd
  changed _ _ _ _ _ hk hx := h.changed_dirty hv.focus hk hx
  update := h.update hv

/-- In every reachable tree every node has the augment value recomputed over its subtree, so
reading it does not panic; `markDirty` only ever stopped early below nodes that were all dirty;
and every further operation recomputes what it changed. -/
theorem augment_values_of_reach (h : Reach s N) : (∀ e ∈ s.stops, e.1.DirtyUp e.2) ∧
    ∃ t, s.graph.Focus [] t ∧ (∀ i, i ∈ N ↔ i ∈ t.ids) ∧
    (∀ (k : Ctx (ℕ × T)) c l x r, k.fill (node c l x r) = t → ∃ n v, s.heap.get? x.1 = some n ∧
      n.expectAugment = .ok v ∧ augOf (node c l x r) = .ok (some v)) ∧
    (∀ a n cmp, a ∉ N → s.heap.get? a = some n → ∃ s1 t', insertLink (some a) cmp s = .ok ((),s1) ∧
      Settles t s1 t' (insert a N) s.heap ∧ insertRaw (some a) cmp s = updateAugments s1) ∧
    (∀ a ∈ N, ∃ s1 t', removeLink (some a) s = .ok ((),s1) ∧ Settles t s1 t' N s.heap ∧
      removeRaw (some a) s = updateAugments s1) := by
  obtain ⟨t,hv,hN,hs⟩ := inv_of_reach h
  have hset : N = {i | i ∈ t.ids} := Set.ext hN
  refine ⟨hs,t,hv.focus,hN,fun k c l x r hk => ?_,fun a n cmp ha hn => ?_,fun a ha => ?_⟩
  · have hf : s.graph.Focus k (node c l x r) := Focus.of_root (hk ▸ hv.focus)
    have ha : Augmented s.heap (node c l x r) := Augmented.of_fill (hk ▸ hv.augmented)
    obtain ⟨n,hn,_⟩ := graph_value_some hf.tree.2.2.2.1
    obtain ⟨v,hv'⟩ := ha.isSome x.1 (by simp)
    refine ⟨n,v,hn,?_,?_⟩
    · rw [aug_eq hn] at hv'
      simp [RbNode.expectAugment, hv']
    · rw [ha.augOf_eq, ptr_node, Option.bind_some, hv']
  · obtain ⟨s1,t',k,hrun,hl,_⟩ := insertLink_linked cmp hv hs hn (mt (hN a).mpr ha)
    exact ⟨s1,t',hrun,hset ▸ hl.settles hv,bind_run hrun⟩
  · obtain ⟨x,hx,rfl⟩ := List.mem_map.mp ((hN a).mp ha)
    obtain ⟨s1,t',_,_,hrun,hl,_⟩ := removeLink_linked hv hs hx
    exact ⟨s1,t',hrun,hset ▸ hl.settles hv,bind_run hrun⟩

theorem augment_values_two : ∃ s : State ℕ Unit, Reach s (insert 1 (insert 0 ∅)) ∧
    ∃ s1 t t', removeLink (some 0) s = .ok ((),s1) ∧ Settles t s1 t' (insert 1 (insert 0 ∅)) s.heap := by
  obtain ⟨s,h⟩ := reach_two
  obtain ⟨_,t,_,_,_,_,hr⟩ := augment_values_of_reach h
  obtain ⟨s1,t',h1,h2,_⟩ := hr 0 (by simp)
  exact ⟨s,h,s1,t,t',h1,h2⟩

end Lilith.Rbtree
