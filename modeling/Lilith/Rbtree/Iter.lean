import Lilith.Rbtree.Merge

/-! Iterating over a tree, and comparing two trees. -/
namespace Lilith.Rbtree
open Theory PtrGraph CTree

variable {T V I α : Type}

/-- The iterator of a tree. -/
structure RbTreeIterator where
  node : Ptr

def RbTree.iter (self : RbTree T V) : Except Fault RbTreeIterator := do return ⟨← self.lowestNodeRaw⟩

/-- `next`, with the address of the node -/
def RbTreeIterator.next (h : Heap T V) (self : RbTreeIterator) : Except Fault (Option ℕ × RbTreeIterator) :=
  match self.node with
  | none => .ok (none,self)
  | some ret => do return (some ret,⟨← h.successor (some ret)⟩)

/-- The iterator gives the items of the list, then ends. -/
inductive Drains (next : I → Except Fault (Option α × I)) : I → List α → Prop
  | nil {it it' : I} (h : next it = .ok (none,it')) : Drains next it []
  | cons {it it' : I} {x : α} {xs : List α} (h : next it = .ok (some x,it')) (hd : Drains next it' xs) :
      Drains next it (x :: xs)

/-- An iterator gives one list only. -/
lemma Drains.unique {next : I → Except Fault (Option α × I)} {it : I} {xs ys : List α} (hx : Drains next it xs)
    (hy : Drains next it ys) : xs = ys := by
  induction hx generalizing ys with
  | nil h =>
    cases hy with
    | nil => rfl
    | cons h' => simp [h] at h'
  | cons h _ ih =>
    cases hy with
    | nil h' => simp [h] at h'
    | cons h' hd =>
      rw [h] at h'
      obtain ⟨hxy,rfl⟩ := Prod.mk.inj (Except.ok.inj h')
      rw [Option.some.inj hxy, ih hd]

variable [Augment T V] {h : Heap T V} {p q : Ptr} {t u : CTree (ℕ × T)}

/-- From a node on, the iterator gives the rest of the nodes in order. -/
lemma drains_from (hv : RbTree.Valid (⟨h,p⟩ : RbTree T V) t) {before after : List (ℕ × T)}
    (ht : t.toList = before ++ after) :
    Drains (RbTreeIterator.next h) ⟨after.head?.map Prod.fst⟩ (after.map Prod.fst) := by
  induction after generalizing before with
  | nil => exact .nil rfl
  | cons x after ih =>
    have hsucc : h.successor (some x.1) = .ok (after.head?.map Prod.fst) := hv.successor ht
    apply Drains.cons
    · simp only [RbTreeIterator.next, List.head?_cons, Option.map_some, hsucc, bind, Except.bind]
      rfl
    · exact ih (show t.toList = (before ++ [x]) ++ after by simp [ht])

/-- Iterating gives every node of a valid tree once, in order, and two valid trees are equal exactly when they have the
same values in the same order. -/
theorem iter_eq_in_order [DecidableEq T] (ht : RbTree.Valid (⟨h,p⟩ : RbTree T V) t)
    (hu : RbTree.Valid (⟨h,q⟩ : RbTree T V) u) :
    (∃ it, RbTree.iter (⟨h,p⟩ : RbTree T V) = .ok it ∧ Drains (RbTreeIterator.next h) it t.ids ∧
      ∀ xs, Drains (RbTreeIterator.next h) it xs → xs = t.ids) ∧
    t.ids.Nodup ∧ ∃ b, h.treeEq p q = .ok b ∧ (b = true ↔ values t = values u) := by
  have hdrains := drains_from ht (List.nil_append t.toList).symm
  refine ⟨⟨⟨t.toList.head?.map Prod.fst⟩,?_,hdrains,fun xs hxs => hxs.unique hdrains⟩,ht.focus.nodup_tree,
    _,treeEq_ok ht hu,decide_eq_true_iff⟩
  simp only [RbTree.iter, ht.lowestNodeRaw, bind, Except.bind]
  rfl

/-- Two trees with the values 5 and 9: one has the smaller value at its root, the other the larger one. -/
theorem iter_eq_shapes : ∃ h : Heap ℕ Unit,
    (∃ it, RbTree.iter ⟨h,some 0⟩ = .ok it ∧ Drains (RbTreeIterator.next h) it [0,1]) ∧
    (∃ it, RbTree.iter ⟨h,some 3⟩ = .ok it ∧ Drains (RbTreeIterator.next h) it [2,3]) ∧
    h.treeEq (some 0) (some 3) = .ok true := by
  let h : Heap ℕ Unit := ⟨[some ⟨.black,none,none,some 1,5,some ()⟩,some ⟨.red,some 0,none,none,9,some ()⟩,
    some ⟨.red,some 3,none,none,5,some ()⟩,some ⟨.black,none,some 2,none,9,some ()⟩]⟩
  have h1 : RbTree.Valid (⟨h,some 0⟩ : RbTree ℕ Unit) (node .black leaf (0,5) (node .red leaf (1,9) leaf)) :=
    ⟨⟨trivial,⟨rfl,rfl,rfl,rfl,rfl,rfl,rfl,rfl,rfl,rfl,rfl⟩,by decide⟩,⟨1,0,rfl,rfl,rfl,rfl,rfl,rfl⟩,
      trivial,⟨trivial,trivial,(),rfl,rfl⟩,(),rfl,rfl⟩
  have h2 : RbTree.Valid (⟨h,some 3⟩ : RbTree ℕ Unit) (node .black (node .red leaf (2,5) leaf) (3,9) leaf) :=
    ⟨⟨trivial,⟨rfl,rfl,rfl,rfl,⟨rfl,rfl,rfl,rfl,rfl,rfl⟩,rfl⟩,by decide⟩,⟨1,0,rfl,⟨rfl,rfl,rfl,rfl⟩,rfl⟩,
      ⟨trivial,trivial,(),rfl,rfl⟩,trivial,(),rfl,rfl⟩
  obtain ⟨⟨it,h3,h4,_⟩,_,b,h5,h6⟩ := iter_eq_in_order h1 h2
  obtain ⟨⟨it',h7,h8,_⟩,_⟩ := iter_eq_in_order h2 h1
  refine ⟨h,⟨it,h3,h4⟩,⟨it',h7,h8⟩,?_⟩
  rw [h5, h6.mpr rfl]

end Lilith.Rbtree
