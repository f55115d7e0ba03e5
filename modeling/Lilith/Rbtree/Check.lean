import Lilith.Rbtree.Clone
import Lilith.Theory.Ancestors

/-! The check of a whole tree, which the tests run after every operation. It accepts a heap exactly when
the nodes under the head pointer form a sorted red-black tree with the right augment values, apart from
one thing that it cannot see: a node that is linked on both sides of its parent. -/
namespace Lilith.Rbtree
open Theory PtrGraph CTree Std

variable {T V : Type}

namespace Heap

def colorOf (h : Heap T V) (node : Ptr) : Except Fault Color := do
  if node.isNone then return .black else return (← h.deref node).color

/-- The assertion on the colours of a node and a child of it, which is read only below a red node -/
def assertBlack (h : Heap T V) (c : Color) (child : Ptr) (message : String) : Except Fault Unit :=
  if c = .black then .ok () else do assert ((← h.colorOf child) = .black) message

/-- The function `tree_check`: the black depth of a subtree and the augment value recomputed over it -/
def treeCheck [Augment T V] [DecidableEq V] (h : Heap T V) (cmp : T → T → Ordering) :
    ℕ → Ptr → Ptr → Option T → Option T → Except Fault (ℕ × Option V)
  | 0, _, _, _, _ => throw .diverge
  | _+1, none, _, _, _ => return (1,none)
  | fuel+1, some a, parent, min, max => do
    let n ← h.deref (some a)
    assert (n.parent = parent) "assertion `left == right` failed"
    h.assertBlack n.color n.left "assertion failed: color(node) == Black || color((*node).left) == Black"
    h.assertBlack n.color n.right "assertion failed: color(node) == Black || color((*node).right) == Black"
    assert (∀ m ∈ min, (cmp n.value m).isGE) "assertion failed: cmp(&(*node).value, min).is_ge()"
    assert (∀ m ∈ max, (cmp n.value m).isLE) "assertion failed: cmp(&(*node).value, max).is_le()"
    let (leftDepth,leftAugment) ← h.treeCheck cmp fuel n.left (some a) min (some n.value)
    let (rightDepth,rightAugment) ← h.treeCheck cmp fuel n.right (some a) (some n.value) max
    assert (leftDepth = rightDepth) "assertion `left == right` failed"
    let augment ← Augment.augment n.value leftAugment rightAugment
    assert (some augment = n.augment) "assertion `left == right` failed"
    return (leftDepth + if n.color = .black then 1 else 0,some augment)

end Heap

/-- The method `check`. -/
def RbTree.check [Augment T V] [DecidableEq V] (self : RbTree T V) (cmp : T → T → Ordering) : Except Fault Unit := do
  let _ ← self.heap.treeCheck cmp self.heap.bound self.head none none none

/-- What the check establishes. The nodes need not be distinct. -/
structure Checked [Augment T V] (cmp : T → T → Ordering) (tr : RbTree T V) (t : CTree (ℕ × T)) : Prop where
  repr : tr.graph.Repr none tr.head t
  balanced : ∃ m, t.Balanced m
  augmented : Augmented tr.heap t
  sorted : SortedBy cmp t.toList

/-- The values of a subtree are between those that are checked on the way to it. -/
def Between (cmp : T → T → Ordering) (min max : Option T) (v : T) : Prop :=
  (∀ m ∈ min, (cmp v m).isGE) ∧ ∀ m ∈ max, (cmp v m).isLE

variable {cmp : T → T → Ordering} {h : Heap T V} {t : CTree (ℕ × T)} {p q : Ptr} {min max : Option T}

lemma sortedBy_node [TransCmp cmp] {xs ys : List (ℕ × T)} {x : ℕ × T} : SortedBy cmp (xs ++ x::ys) ↔
    SortedBy cmp xs ∧ SortedBy cmp ys ∧ (∀ y ∈ xs, (cmp y.2 x.2).isLE) ∧ ∀ z ∈ ys, (cmp x.2 z.2).isLE := by
  rw [SortedBy, List.pairwise_append, List.pairwise_cons]
  constructor
  · rintro ⟨hxs,⟨hz,hys⟩,hxy⟩
    exact ⟨hxs,hys,fun y hy => hxy y hy x (by simp),hz⟩
  · rintro ⟨hxs,hys,hy,hz⟩
    refine ⟨hxs,⟨hz,hys⟩,fun y hyx z hzx => ?_⟩
    rcases List.mem_cons.mp hzx with rfl | hzy
    · exact hy y hyx
    · exact TransCmp.isLE_trans (hy y hyx) (hz z hzy)

/-- The bounds of the two subtrees of a node. -/
lemma between_node [TransCmp cmp] {l r : CTree (ℕ × T)} {x : ℕ × T} {c : Color} :
    (SortedBy cmp (node c l x r).toList ∧ ∀ y ∈ (node c l x r).toList, Between cmp min max y.2) ↔
      Between cmp min max x.2 ∧ (SortedBy cmp l.toList ∧ ∀ y ∈ l.toList, Between cmp min (some x.2) y.2) ∧
      SortedBy cmp r.toList ∧ ∀ z ∈ r.toList, Between cmp (some x.2) max z.2 := by
  rw [toList_node, sortedBy_node]
  constructor
  · rintro ⟨⟨hl,hr,hy,hz⟩,hw⟩
    refine ⟨hw x (by simp),⟨hl,fun y hyl => ⟨(hw y (by simp [hyl])).1,?_⟩⟩,hr,fun z hzr => ⟨?_,(hw z (by simp [hzr])).2⟩⟩
    · rintro m hm
      obtain rfl := Option.mem_some.mp hm
      exact hy y hyl
    · rintro m hm
      obtain rfl := Option.mem_some.mp hm
      exact OrientedCmp.isGE_of_isLE (hz z hzr)
  · rintro ⟨hx,⟨hl,hwl⟩,hr,hwr⟩
    have hy : ∀ y ∈ l.toList, (cmp y.2 x.2).isLE := fun y hy => (hwl y hy).2 x.2 (by simp)
    have hz : ∀ z ∈ r.toList, (cmp z.2 x.2).isGE := fun z hz => (hwr z hz).1 x.2 (by simp)
    refine ⟨⟨hl,hr,hy,fun z hzr => OrientedCmp.isLE_of_isGE (hz z hzr)⟩,fun y hyt => ?_⟩
    rcases List.mem_append.mp hyt with hyl | hyr
    · exact ⟨(hwl y hyl).1,fun m hm => TransCmp.isLE_trans (hy y hyl) (hx.2 m hm)⟩
    · rcases List.mem_cons.mp hyr with rfl | hyr
      · exact hx
      · exact ⟨fun m hm => TransCmp.isGE_trans (hz y hyr) (hx.1 m hm),(hwr y hyr).2⟩

lemma get_of_deref {a : ℕ} {n : RbNode T V} (hn : h.deref (some a) = .ok n) : h.get? a = some n := by
  cases hc : h.get? a with
  | none => simp [Heap.deref, hc] at hn
  | some m => simpa [Heap.deref, hc] using hn

lemma Repr.colorOf (hr : h.graph.Repr q p t) : h.colorOf p = .ok t.color := by
  cases t with
  | leaf =>
    obtain rfl := hr
    rfl
  | node c l x r =>
    obtain ⟨rfl,n,hn,_,rfl,_⟩ := repr_heap_node.mp hr
    simp only [Heap.colorOf, deref_eq hn, bind, Except.bind]
    rfl

lemma assertBlack_ok {c : Color} {m : String} (hc : h.assertBlack c p m = .ok ()) (hr : h.graph.Repr q p t) :
    c = .red → t.color = .black := by
  rintro rfl
  rw [Heap.assertBlack, if_neg (by decide), Repr.colorOf hr] at hc
  exact assert_ok hc

lemma assertBlack_of {c : Color} (hr : h.graph.Repr q p t) (hc : c = .red → t.color = .black) (m : String) :
    h.assertBlack c p m = .ok () := by
  unfold Heap.assertBlack
  split_ifs with hb
  · rfl
  · cases c with
    | red =>
      rw [Repr.colorOf hr]
      exact assert_of (hc rfl) m
    | black => exact absurd rfl hb

/-- The black depth of a node from that of its children. -/
lemma balanced_node {c : Color} {l r : CTree (ℕ × T)} {x : ℕ × T} {m : ℕ} :
    (node c l x r).Balanced m ↔ (c = .red → l.color = .black) ∧ (c = .red → r.color = .black) ∧
      ∃ k, l.Balanced k ∧ r.Balanced k ∧ m = k + if c = .black then 1 else 0 := by
  cases c with
  | red =>
    simp only [balanced_red, true_imp_iff, reduceCtorEq, if_false, Nat.add_zero]
    constructor
    · rintro ⟨hl,hr,hlm,hrm⟩
      exact ⟨hl,hr,m,hlm,hrm,rfl⟩
    · rintro ⟨hl,hr,k,hlk,hrk,rfl⟩
      exact ⟨hl,hr,hlk,hrk⟩
  | black =>
    simp only [balanced_black, reduceCtorEq, false_imp_iff, true_and, if_true]
    constructor
    · rintro ⟨k,hm,hlk,hrk⟩
      exact ⟨k,hlk,hrk,hm⟩
    · rintro ⟨k,hlk,hrk,hm⟩
      exact ⟨k,hm,hlk,hrk⟩

variable [Augment T V]

/-- What `tree_check` establishes of a subtree. -/
structure CheckedBelow (cmp : T → T → Ordering) (h : Heap T V) (q p : Ptr) (min max : Option T) (m : ℕ)
    (t : CTree (ℕ × T)) : Prop where
  repr : h.graph.Repr q p t
  balanced : t.Balanced m
  augmented : Augmented h t
  ordered : SortedBy cmp t.toList ∧ ∀ x ∈ t.toList, Between cmp min max x.2

lemma checkedBelow_leaf : CheckedBelow cmp h q none min max 0 leaf :=
  ⟨rfl,rfl,trivial,by simp⟩

lemma checkedBelow_node [TransCmp cmp] {c : Color} {l r : CTree (ℕ × T)} {x : ℕ × T} {m : ℕ} {a : ℕ} {n : RbNode T V}
    (hn : h.get? a = some n) : CheckedBelow cmp h q (some a) min max m (node c l x r) ↔
      x = (a,n.value) ∧ c = n.color ∧ n.parent = q ∧ (c = .red → l.color = .black) ∧ (c = .red → r.color = .black) ∧
      Between cmp min max n.value ∧ ∃ k, CheckedBelow cmp h (some a) n.left min (some n.value) k l ∧
        CheckedBelow cmp h (some a) n.right (some n.value) max k r ∧ (m = k + if c = .black then 1 else 0) ∧
        ∃ v, n.augment = some v ∧ Augment.augment n.value (l.ptr.bind h.aug) (r.ptr.bind h.aug) = .ok v := by
  constructor
  · rintro ⟨hrepr,hb,⟨hal,har,v,hv,hav⟩,ho⟩
    obtain ⟨hp,n',hn',hpar,rfl,hval,hl,hr⟩ := repr_heap_node.mp hrepr
    obtain rfl : a = x.1 := by simpa using hp
    obtain rfl : n = n' := Option.some.inj (hn.symm.trans hn')
    obtain ⟨hcl,hcr,k,hlk,hrk,hm⟩ := balanced_node.mp hb
    obtain ⟨hx,hol,hor⟩ := between_node.mp ho
    rw [← hval] at hx hol hor hav
    rw [aug_eq (s := ⟨⟨h,none⟩,[]⟩) hn] at hv
    exact ⟨by rw [hval],rfl,hpar,hcl,hcr,hx,k,⟨hl,hlk,hal,hol⟩,⟨hr,hrk,har,hor⟩,hm,v,hv,hav⟩
  · rintro ⟨rfl,rfl,hpar,hcl,hcr,hx,k,⟨hl,hlk,hal,hol⟩,⟨hr,hrk,har,hor⟩,hm,v,hv,hav⟩
    refine ⟨repr_heap_node.mpr ⟨rfl,n,hn,hpar,rfl,rfl,hl,hr⟩,balanced_node.mpr ⟨hcl,hcr,k,hlk,hrk,hm⟩,
      ⟨hal,har,v,?_,hav⟩,between_node.mpr ⟨hx,hol,hor⟩⟩
    exact (aug_eq (s := ⟨⟨h,none⟩,[]⟩) hn).trans hv

variable [DecidableEq V]

theorem treeCheck_sound [TransCmp cmp] {fuel : ℕ} {r : ℕ × Option V} (hr : h.treeCheck cmp fuel p q min max = .ok r) :
    ∃ t m, CheckedBelow cmp h q p min max m t ∧ r = (m+1,t.ptr.bind h.aug) := by
  induction fuel generalizing p q min max r with
  | zero => simp [Heap.treeCheck, throw, throwThe, MonadExceptOf.throw] at hr
  | succ fuel ih =>
    cases p with
    | none =>
      obtain rfl : (1,none) = r := Except.ok.inj hr
      exact ⟨leaf,0,checkedBelow_leaf,rfl⟩
    | some a =>
      unfold Heap.treeCheck at hr
      obtain ⟨n,hn,hr⟩ := bind_ok hr
      obtain ⟨_,hpar,hr⟩ := bind_ok hr
      obtain ⟨_,hcl,hr⟩ := bind_ok hr
      obtain ⟨_,hcr,hr⟩ := bind_ok hr
      obtain ⟨_,hmin,hr⟩ := bind_ok hr
      obtain ⟨_,hmax,hr⟩ := bind_ok hr
      obtain ⟨_,hl,hr⟩ := bind_ok hr
      obtain ⟨_,hrr,hr⟩ := bind_ok hr
      obtain ⟨l,k,hbl,rfl⟩ := ih hl
      obtain ⟨u,k',hbr,rfl⟩ := ih hrr
      obtain ⟨_,hdepth,hr⟩ := bind_ok hr
      obtain ⟨v,hv,hr⟩ := bind_ok hr
      obtain ⟨_,hav,hdone⟩ := bind_ok hr
      obtain rfl : k = k' := Nat.succ.inj (assert_ok hdepth)
      have hget := get_of_deref hn
      refine ⟨node n.color l (a,n.value) u,_,(checkedBelow_node hget).mpr ⟨rfl,rfl,assert_ok hpar,assertBlack_ok hcl hbl.repr,
        assertBlack_ok hcr hbr.repr,⟨assert_ok hmin,assert_ok hmax⟩,k,hbl,hbr,rfl,v,(assert_ok hav).symm,hv⟩,?_⟩
      obtain rfl := Except.ok.inj hdone
      rw [ptr_node, Option.bind_some, aug_eq (s := ⟨⟨h,none⟩,[]⟩) hget, ← assert_ok hav]
      exact Prod.ext (Nat.add_right_comm _ _ _) rfl

/-- The walk is below the nodes `above`, the nearest of which is `q`. -/
structure Down (h : Heap T V) (q : Ptr) (above : List ℕ) : Prop where
  rooted : h.graph.Rooted above
  nearest : q = above.head?
  live : ∀ i ∈ above, i < h.cells.length

omit [Augment T V] [DecidableEq V] in
lemma down_head (h : Heap T V) : Down h none [] := ⟨trivial,rfl,by simp⟩

omit [Augment T V] [DecidableEq V] in
lemma Down.push {above : List ℕ} {a : ℕ} {n : RbNode T V} (hd : Down h q above) (hn : h.get? a = some n)
    (hpar : n.parent = q) : Down h (some a) (a::above) := by
  refine ⟨⟨?_,hd.rooted⟩,rfl,?_⟩
  · rw [← hd.nearest, ← hpar]
    exact graph_parent (s := ⟨⟨h,none⟩,[]⟩) hn
  · rintro i hi
    rcases List.mem_cons.mp hi with rfl | hi
    · exact Heap.lt_of_get? hn
    · exact hd.live i hi

omit [Augment T V] [DecidableEq V] in
/-- There are no more nodes above than there is memory for. -/
lemma Down.length_le {above : List ℕ} (hd : Down h q above) : above.length ≤ h.cells.length := by
  have hsub : above ⊆ List.range h.cells.length := fun i hi => List.mem_range.mpr (hd.live i hi)
  simpa using (hd.rooted.nodup.subperm hsub).length_le

theorem treeCheck_complete [TransCmp cmp] {fuel m : ℕ} {above : List ℕ} (hb : CheckedBelow cmp h q p min max m t)
    (hd : Down h q above) (hf : h.cells.length < fuel + above.length) :
    h.treeCheck cmp fuel p q min max = .ok (m+1,t.ptr.bind h.aug) := by
  induction t generalizing fuel p q min max m above with
  | leaf =>
    obtain rfl := hb.repr
    obtain rfl := hb.balanced
    obtain ⟨fuel,rfl⟩ : ∃ k, fuel = k+1 := Nat.exists_eq_add_one.mpr (by have := hd.length_le; omega)
    rfl
  | node c l x r ihl ihr =>
    obtain ⟨fuel,rfl⟩ : ∃ k, fuel = k+1 := Nat.exists_eq_add_one.mpr (by have := hd.length_le; omega)
    obtain ⟨rfl,n,hn,_⟩ := repr_heap_node.mp hb.repr
    obtain ⟨_,rfl,hpar,hcl,hcr,hx,k,hbl,hbr,rfl,v,hv,hav⟩ := (checkedBelow_node hn).mp hb
    have hdown : Down h (some x.1) (x.1::above) := hd.push hn hpar
    have hfuel : h.cells.length < fuel + (x.1::above).length := by
      rw [List.length_cons]
      omega
    have haug : h.aug x.1 = n.augment := aug_eq (s := ⟨⟨h,none⟩,[]⟩) hn
    unfold Heap.treeCheck
    simp only [deref_eq hn, assert_of hpar, assertBlack_of hbl.repr hcl, assertBlack_of hbr.repr hcr, assert_of hx.1,
      assert_of hx.2, ihl hbl hdown hfuel, ihr hbr hdown hfuel, assert_of, hav, hv, haug, bind, Except.bind, ptr_node,
      Option.bind_some]
    rw [Nat.add_right_comm]
    rfl

omit [Augment T V] [DecidableEq V] in
lemma bind_ne_diverge {α β : Type} {x : Except Fault α} {f : α → Except Fault β} (hx : x ≠ .error .diverge)
    (hf : ∀ a, x = .ok a → f a ≠ .error .diverge) : (x >>= f) ≠ .error .diverge := by
  cases x with
  | error e => simpa [bind, Except.bind] using hx
  | ok a => exact hf a rfl

omit [Augment T V] [DecidableEq V] in
lemma assert_ne_diverge (b : Prop) [Decidable b] (m : String) : assert b m ≠ .error .diverge := by
  unfold assert
  split_ifs <;> simp

omit [Augment T V] [DecidableEq V] in
lemma deref_ne_diverge (h : Heap T V) (p : Ptr) : h.deref p ≠ .error .diverge := by
  unfold Heap.deref
  split
  · simp
  · split <;> simp

omit [Augment T V] [DecidableEq V] in
lemma assertBlack_ne_diverge (h : Heap T V) (c : Color) (p : Ptr) (m : String) : h.assertBlack c p m ≠ .error .diverge := by
  unfold Heap.assertBlack
  split_ifs
  · simp
  · refine bind_ne_diverge ?_ fun _ _ => assert_ne_diverge _ _
    unfold Heap.colorOf
    split_ifs
    · simp [pure, Except.pure]
    · exact bind_ne_diverge (deref_ne_diverge h p) fun _ _ => by simp [pure, Except.pure]

/-- The walk ends in any heap, since it stops at a node that is not linked back to where it came from. -/
theorem treeCheck_ne_diverge (haug : ∀ (x : T) (l r : Option V), Augment.augment x l r ≠ .error .diverge)
    {fuel : ℕ} {above : List ℕ} (hd : Down h q above) (hf : h.cells.length < fuel + above.length) :
    h.treeCheck cmp fuel p q min max ≠ .error .diverge := by
  induction fuel generalizing p q min max above with
  | zero =>
    have := hd.length_le
    omega
  | succ fuel ih =>
    cases p with
    | none => simp [Heap.treeCheck, pure, Except.pure]
    | some a =>
      unfold Heap.treeCheck
      refine bind_ne_diverge (deref_ne_diverge h _) fun n hn => ?_
      refine bind_ne_diverge (assert_ne_diverge _ _) fun _ hpar => ?_
      have hget := get_of_deref hn
      have hdown : Down h (some a) (a::above) := hd.push hget (assert_ok hpar)
      have hfuel : h.cells.length < fuel + (a::above).length := by
        rw [List.length_cons]
        omega
      refine bind_ne_diverge (assertBlack_ne_diverge _ _ _ _) fun _ _ => ?_
      refine bind_ne_diverge (assertBlack_ne_diverge _ _ _ _) fun _ _ => ?_
      refine bind_ne_diverge (assert_ne_diverge _ _) fun _ _ => ?_
      refine bind_ne_diverge (assert_ne_diverge _ _) fun _ _ => ?_
      refine bind_ne_diverge (ih hdown hfuel) fun _ _ => ?_
      refine bind_ne_diverge (ih hdown hfuel) fun _ _ => ?_
      refine bind_ne_diverge (assert_ne_diverge _ _) fun _ _ => ?_
      refine bind_ne_diverge (haug _ _ _) fun _ _ => ?_
      exact bind_ne_diverge (assert_ne_diverge _ _) fun _ _ => by simp [pure, Except.pure]

variable {tr : RbTree T V}

omit [DecidableEq V] in
lemma checked_iff : Checked cmp tr t ↔ ∃ m, CheckedBelow cmp tr.heap none tr.head none none m t := by
  constructor
  · rintro ⟨hr,⟨m,hb⟩,ha,hs⟩
    exact ⟨m,repr_heap.mp hr,hb,ha,hs,fun x _ => ⟨by simp,by simp⟩⟩
  · rintro ⟨m,hr,hb,ha,hs,_⟩
    exact ⟨repr_heap.mpr hr,⟨m,hb⟩,ha,hs⟩

theorem check_ok_iff [TransCmp cmp] : tr.check cmp = .ok () ↔ ∃ t, Checked cmp tr t := by
  constructor
  · intro hc
    obtain ⟨r,hr,_⟩ := bind_ok hc
    obtain ⟨t,m,ht,_⟩ := treeCheck_sound hr
    exact ⟨t,checked_iff.mpr ⟨m,ht⟩⟩
  · rintro ⟨t,ht⟩
    obtain ⟨m,hm⟩ := checked_iff.mp ht
    have hfuel : tr.heap.cells.length < tr.heap.bound + ([] : List ℕ).length := by
      simp only [Heap.bound, List.length_nil]
      omega
    have hrun := treeCheck_complete hm (down_head tr.heap) hfuel
    simp only [RbTree.check, hrun, bind, Except.bind]
    rfl

omit [DecidableEq V] in
/-- An accepted tree is valid unless it has a node with the same child on both sides. -/
lemma Checked.valid_iff (hc : Checked cmp tr t) : tr.Valid t ↔ ∀ i ∈ t.ids, ∀ j, ¬tr.graph.Twins i j := by
  constructor
  · intro hv i hi j ht
    exact hc.repr.not_nodup hi ht hv.focus.nodup_tree
  · intro ht
    have hroot : tr.graph.Repr ([] : List ℕ).head? tr.head t := hc.repr
    have hnd : t.ids.Nodup := hroot.nodup_ids trivial ht
    exact ⟨⟨trivial,hc.repr,hnd⟩,hc.balanced,hc.augmented⟩

omit [Augment T V] [DecidableEq V] in
lemma Repr.root_mem {a : ℕ} (hr : h.graph.Repr q (some a) t) : ∃ n, h.get? a = some n ∧ (a,n.value) ∈ t.toList := by
  cases t with
  | leaf => simp at hr
  | node c l x r =>
    obtain ⟨hp,n,hn,_,_,hv,_⟩ := repr_heap_node.mp hr
    obtain rfl : a = x.1 := by simpa using hp
    exact ⟨n,hn,by simp [hv]⟩

omit [Augment T V] [DecidableEq V] in
/-- A child on both sides compares equal to its parent. -/
lemma twins_eq [TransCmp cmp] {i j : ℕ} (hr : h.graph.Repr q p t) (hs : SortedBy cmp t.toList) (hi : i ∈ t.ids)
    (ht : h.graph.Twins i j) : ∃ n m, h.get? i = some n ∧ h.get? j = some m ∧ cmp n.value m.value = .eq := by
  induction t generalizing p q with
  | leaf => simp at hi
  | node c l x r ihl ihr =>
    obtain ⟨_,_,_,hv,hl,hr⟩ := hr
    obtain ⟨hsl,hsr,hle,hge⟩ := sortedBy_node.mp hs
    simp only [ids_node, List.mem_append, List.mem_cons] at hi
    rcases hi with hi | rfl | hi
    · exact ihl hl hsl hi
    · obtain ⟨n,hn,hnv⟩ := graph_value_some (s := ⟨⟨h,none⟩,[]⟩) hv
      rw [ht .left] at hl
      rw [ht .right] at hr
      obtain ⟨m,hm,hml⟩ := Repr.root_mem hl
      obtain ⟨m',hm',hmr⟩ := Repr.root_mem hr
      obtain rfl : m = m' := Option.some.inj (hm.symm.trans hm')
      refine ⟨n,m,hn,hm,?_⟩
      rw [hnv]
      exact OrientedCmp.isLE_antisymm (hge _ hmr) (hle _ hml)
    · exact ihr hr hsr hi

/-- The trees that are built with one comparator, with the nodes they consist of. -/
inductive Grown (cmp : T → T → Ordering) : RbTree T V → Set ℕ → Prop
  | new (heap : Heap T V) : Grown cmp (.new heap) ∅
  | other {tr : RbTree T V} {N : Set ℕ} (heap : Heap T V) (hg : Grown cmp tr N)
      (hkeep : ∀ a ∈ N, heap.get? a = tr.heap.get? a) : Grown cmp ⟨heap,tr.head⟩ N
  | insert {tr tr' : RbTree T V} {N : Set ℕ} {a : ℕ} {n : RbNode T V} (hg : Grown cmp tr N) (hfresh : a ∉ N)
      (hn : tr.heap.get? a = some n) (hrun : tr.insertRaw (some a) cmp = .ok tr') : Grown cmp tr' (insert a N)
  | remove {tr tr' : RbTree T V} {N : Set ℕ} {a : ℕ} (hg : Grown cmp tr N) (hmem : a ∈ N)
      (hrun : tr.removeRaw (some a) = .ok tr') : Grown cmp tr' (N \ {a})

omit [DecidableEq V] in
lemma RbTree.Yields.of_ok {result : Except Fault (RbTree T V)} {t' : CTree (ℕ × T)} {S : Set ℕ}
    (hy : RbTree.Yields result t' S h) {tr' : RbTree T V} (hrun : result = .ok tr') : tr'.Valid t' := by
  unfold RbTree.Yields at hy
  split at hy
  · simp [hrun] at hy
  · obtain ⟨tr2,h1,h2,_⟩ := hy
    rw [hrun] at h1
    exact Except.ok.inj h1 ▸ h2

omit [DecidableEq V] in
lemma Grown.sorted [TransCmp cmp] {N : Set ℕ} (hg : Grown cmp tr N) :
    ∃ t, tr.Valid t ∧ SortedBy cmp t.toList ∧ ∀ i, i ∈ N ↔ i ∈ t.ids := by
  induction hg with
  | new heap => exact ⟨leaf,⟨⟨trivial,rfl,by simp⟩,⟨0,rfl⟩,trivial⟩,by simp,by simp⟩
  | other heap _ hkeep ih =>
    obtain ⟨t,hv,hs,hN⟩ := ih
    exact ⟨t,hv.congr fun a ha => hkeep a ((hN a).mpr ha),hs,hN⟩
  | @insert tr tr' N a n _ hfresh hn hrun ih =>
    obtain ⟨t,hv,hs,hN⟩ := ih
    obtain ⟨t',k,hk,hd,hl,hy⟩ := RbTree.insertRaw_yields cmp hv hn (mt (hN a).mpr hfresh)
    have hold : t.toList = k.before ++ k.after := by rw [← hk, Ctx.toList_fill]; simp
    obtain ⟨hb,haft⟩ := hd.split (hold ▸ hs)
    refine ⟨t',hy.of_ok hrun,?_,fun i => ?_⟩
    · rw [hl]
      exact SortedBy.insert (hold ▸ hs) hb haft
    · rw [Set.mem_insert_iff, hN, CTree.ids, CTree.ids, hold, hl]
      simp only [List.map_append, List.map_cons, List.mem_append, List.mem_cons]
      tauto
  | @remove tr tr' N a _ hmem hrun ih =>
    obtain ⟨t,hv,hs,hN⟩ := ih
    obtain ⟨x,hx,rfl⟩ := List.mem_map.mp ((hN a).mp hmem)
    obtain ⟨t',before,after,h1,h2,hy⟩ := RbTree.removeRaw_yields hv hx
    refine ⟨t',hy.of_ok hrun,?_,fun i => ?_⟩
    · rw [h2]
      rw [h1] at hs
      exact hs.sublist (by simp)
    · have hnd := hv.focus.nodup_tree
      rw [CTree.ids, h1, List.map_append, List.map_cons] at hnd
      have hout := (List.nodup_cons.mp (List.nodup_middle.mp hnd)).1
      rw [Set.mem_sdiff, Set.mem_singleton_iff, hN, CTree.ids, CTree.ids, h1, h2]
      simp only [List.map_append, List.mem_append, List.map_cons, List.mem_cons] at hout ⊢
      constructor
      · tauto
      · intro hi
        have hne : i ≠ x.1 := by
          rintro rfl
          exact hout hi
        tauto

/-- `check` accepts a heap exactly when the nodes under the head pointer form a sorted red-black tree with
the right augment values. Such a tree is a valid one, unless a node with two equal child pointers is in
it, and that child then compares equal to its parent. All trees that insertions and removals with the
comparator build are accepted, and the check ends on any heap. -/
theorem check_exact [TransCmp cmp] (tr : RbTree T V) : (tr.check cmp = .ok () ↔ ∃ t, Checked cmp tr t) ∧
    (∀ t, Checked cmp tr t → (tr.Valid t ↔ ∀ i ∈ t.ids, ∀ j, ¬tr.graph.Twins i j) ∧
      ∀ i ∈ t.ids, ∀ j, tr.graph.Twins i j → ∃ n m, tr.heap.get? i = some n ∧ tr.heap.get? j = some m ∧
        cmp n.value m.value = .eq) ∧
    (∀ N, Grown cmp tr N → tr.check cmp = .ok ()) ∧
    ((∀ (x : T) (l r : Option V), Augment.augment x l r ≠ .error .diverge) → tr.check cmp ≠ .error .diverge) := by
  refine ⟨check_ok_iff,fun t hc => ⟨hc.valid_iff,fun i hi j ht => ?_⟩,fun N hg => ?_,fun haug => ?_⟩
  · exact twins_eq (repr_heap.mp hc.repr) hc.sorted hi ht
  · obtain ⟨t,hv,hs,_⟩ := hg.sorted
    exact check_ok_iff.mpr ⟨t,hv.focus.tree,hv.balanced,hv.augmented,hs⟩
  · refine bind_ne_diverge (treeCheck_ne_diverge haug (down_head tr.heap) ?_) fun _ _ => by simp [pure, Except.pure]
    simp only [Heap.bound, List.length_nil]
    omega

/-- A black node with the same red child twice. -/
def twinNodes : RbTree ℕ Unit := ⟨⟨[some ⟨.black,none,some 1,some 1,7,some ()⟩,some ⟨.red,some 0,none,none,7,some ()⟩]⟩,some 0⟩

/-- The check does not see it. -/
theorem check_exact_twins : ∃ t, Checked compare twinNodes t ∧ ¬twinNodes.Valid t := by
  obtain ⟨hiff,hvalid,_⟩ := @check_exact ℕ Unit compare _ _ _ twinNodes
  obtain ⟨t,ht⟩ := hiff.mp rfl
  have hroot : 0 ∈ t.ids := mem_ids_of_ptr ht.repr.ptr_eq.symm
  refine ⟨t,ht,fun hv => (hvalid t ht).1.mp hv 0 hroot 1 fun d => ?_⟩
  cases d <;> rfl

end Lilith.Rbtree
