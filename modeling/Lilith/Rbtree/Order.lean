import Lilith.Rbtree.Correct
import Mathlib.Order.Compare

/-! The order of the nodes. Along the path that `place` takes through a sorted tree, everything
before the hole is smaller than the new value and nothing after it is. -/
namespace Lilith.Rbtree
open Theory PtrGraph CTree Std

variable {T V : Type} {tr : RbTree T V} {cmp : T → T → Ordering}

/-- In order, the values do not decrease. -/
abbrev SortedBy (cmp : T → T → Ordering) (xs : List (ℕ × T)) : Prop :=
  xs.Pairwise fun x y => (cmp x.2 y.2).isLE

/-- The hole where the walk of `place` ends splits a sorted list at the new value. -/
lemma Descends.split [TransCmp cmp] {v : T} {k : Ctx (ℕ × T)} (hd : Descends cmp v k)
    (hs : SortedBy cmp (k.before ++ k.after)) :
    (∀ x ∈ k.before, cmp x.2 v = .lt) ∧ ∀ x ∈ k.after, (cmp v x.2).isLE := by
  induction k with
  | nil => simp [Ctx.before, Ctx.after]
  | cons f k ih =>
    obtain ⟨d,c,y,o⟩ := f
    have hdk : Descends cmp v k := fun g hg => hd g (by simp [hg])
    have hy := hd ⟨d,c,y,o⟩ (by simp)
    cases d with
    | left =>
      simp only [Ctx.before, Ctx.after, List.append_nil] at hs ⊢
      have hvy : (cmp v y.2).isLE := by simpa using hy
      obtain ⟨hb,ha⟩ := ih hdk (hs.sublist (by simp))
      refine ⟨hb,fun x hx => ?_⟩
      have hyo : ∀ z ∈ o.toList, (cmp y.2 z.2).isLE :=
        (List.pairwise_cons.mp (hs.sublist (by simp : (y::o.toList).Sublist _))).1
      simp only [List.cons_append, List.mem_cons, List.mem_append] at hx
      rcases hx with rfl | hx | hx
      · exact hvy
      · exact TransCmp.isLE_trans hvy (hyo x hx)
      · exact ha x hx
    | right =>
      simp only [Ctx.before, Ctx.after, List.nil_append] at hs ⊢
      have hyv : cmp y.2 v = .lt := OrientedCmp.lt_of_not_isLE (by simpa using hy)
      obtain ⟨hb,ha⟩ := ih hdk (hs.sublist (List.Sublist.append (by simp) (by simp)))
      refine ⟨fun x hx => ?_,ha⟩
      have hoy : ∀ z ∈ o.toList, (cmp z.2 y.2).isLE := fun z hz =>
        (List.pairwise_append.mp (hs.sublist (by simp : (o.toList ++ [y]).Sublist _))).2.2 z hz y
          (by simp)
      simp only [List.mem_append, List.mem_singleton] at hx
      rcases hx with hx | hx | rfl
      · exact hb x hx
      · exact TransCmp.lt_of_isLE_of_lt (hoy x hx) hyv
      · exact hyv

lemma SortedBy.insert [TransCmp cmp] {xs ys : List (ℕ × T)} {x : ℕ × T}
    (hs : SortedBy cmp (xs ++ ys)) (hx : ∀ y ∈ xs, cmp y.2 x.2 = .lt)
    (hy : ∀ y ∈ ys, (cmp x.2 y.2).isLE) : SortedBy cmp (xs ++ x::ys) := by
  obtain ⟨h1,h2,h3⟩ := List.pairwise_append.mp hs
  refine List.pairwise_append.mpr ⟨h1,List.pairwise_cons.mpr ⟨hy,h2⟩,fun y hyx z hz => ?_⟩
  rcases List.mem_cons.mp hz with rfl | hz
  · simp [hx y hyx]
  · exact h3 y hyx z hz

variable [Augment T V] {t : CTree (ℕ × T)}

/-- On a sorted tree, `insert_raw` puts the node after exactly the smaller ones, and `remove_raw`
takes out exactly its node; every other node keeps its value and its place in the order. -/
theorem insert_remove_order [TransCmp cmp] (hv : tr.Valid t) (hsort : SortedBy cmp t.toList) :
    (∀ a n, tr.heap.get? a = some n → a ∉ t.ids → ∃ t' before after,
      t.toList = before ++ after ∧ t'.toList = before ++ (a,n.value)::after ∧
      (∀ x ∈ before, cmp x.2 n.value = .lt) ∧ (∀ x ∈ after, cmp x.2 n.value ≠ .lt) ∧
      SortedBy cmp t'.toList ∧ t'.ids.Nodup ∧
      RbTree.Yields (tr.insertRaw (some a) cmp) t' (insert a {i | i ∈ t.ids}) tr.heap) ∧
    (∀ x ∈ t.toList, ∃ t' before after, t.toList = before ++ x::after ∧
      t'.toList = before ++ after ∧ x ∉ before ∧ x ∉ after ∧ SortedBy cmp t'.toList ∧
      t'.ids.Nodup ∧ RbTree.Yields (tr.removeRaw (some x.1)) t' {i | i ∈ t.ids} tr.heap) := by
  have hnd : t.ids.Nodup := hv.focus.nodup_tree
  constructor
  · intro a n hn ha
    obtain ⟨t',k,hk,hd,hl,hy⟩ := RbTree.insertRaw_yields cmp hv hn ha
    have hold : t.toList = k.before ++ k.after := by rw [← hk, Ctx.toList_fill]; simp
    obtain ⟨hb,haft⟩ := hd.split (hold ▸ hsort)
    refine ⟨t',k.before,k.after,hold,hl,hb,fun x hx => OrientedCmp.not_lt_of_isLE (haft x hx),?_,?_,hy⟩
    · rw [hl]
      exact SortedBy.insert (hold ▸ hsort) hb haft
    · rw [CTree.ids, hold, List.map_append] at hnd
      rw [CTree.ids, hold, List.map_append] at ha
      rw [CTree.ids, hl, List.map_append, List.map_cons]
      exact List.nodup_middle.mpr (List.nodup_cons.mpr ⟨ha,hnd⟩)
  · intro x hx
    obtain ⟨t',before,after,h1,h2,hy⟩ := RbTree.removeRaw_yields hv hx
    have hnd' : (x.1::(before ++ after).map Prod.fst).Nodup := by
      rw [CTree.ids, h1, List.map_append, List.map_cons] at hnd
      rw [List.map_append]
      exact List.nodup_middle.mp hnd
    have hout : x ∉ before ++ after := fun h =>
      (List.nodup_cons.mp hnd').1 (List.mem_map_of_mem h)
    refine ⟨t',before,after,h1,h2,fun h => hout (by simp [h]),fun h => hout (by simp [h]),?_,?_,hy⟩
    · rw [h2]
      rw [h1] at hsort
      exact hsort.sublist (by simp)
    · rw [CTree.ids, h2]
      exact (List.nodup_cons.mp hnd').2

/-- A tree of one node with value 7, and a fresh node with the same value. -/
theorem insert_before_equal : ∃ t' : CTree (ℕ × ℕ), t'.toList = [(1,7),(0,7)] ∧
    RbTree.Yields (RbTree.insertRaw (V := Unit) ⟨⟨[some ⟨.red,none,none,none,7,some ()⟩,some (.new 7)]⟩,
      some 0⟩ (some 1) compare) t' {i | i = 1 ∨ i = 0}
      ⟨[some ⟨.red,none,none,none,7,some ()⟩,some (.new 7)]⟩ := by
  have hv : RbTree.Valid (⟨⟨[some ⟨.red,none,none,none,7,some ()⟩,some (.new 7)]⟩,some 0⟩ :
      RbTree ℕ Unit) (node .red leaf (0,7) leaf) :=
    ⟨⟨trivial,⟨rfl,rfl,rfl,rfl,rfl,rfl⟩,by simp⟩,⟨0,by simp⟩,trivial,trivial,(),rfl,rfl⟩
  obtain ⟨t',before,after,h1,h2,h3,h4,_,_,h5⟩ :=
    (insert_remove_order hv (by simp [SortedBy] : SortedBy compare _)).1 1 (.new 7) rfl (by simp)
  have hbefore : before = [] := by
    cases before with
    | nil => rfl
    | cons x xs =>
      obtain rfl : x = (0,7) := by simpa using (List.cons.inj h1).1.symm
      exact absurd (h3 (0,7) (by simp)) (by decide)
  subst hbefore
  obtain rfl : after = [(0,7)] := by simpa using h1.symm
  refine ⟨t',h2,?_⟩
  have hset : (insert 1 {i | i ∈ (node Color.red leaf (0,7) leaf : CTree (ℕ × ℕ)).ids} : Set ℕ) =
      {i | i = 1 ∨ i = 0} := by ext i; simp
  exact hset ▸ h5

end Lilith.Rbtree
