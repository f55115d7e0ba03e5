import Lilith.Theory.ColoredTree

/-! Linked binary trees as graphs of nodes. A graph gives the root pointer and, for every node,
its colour, its parent pointer, its two child pointers and its value. `Repr` says that the nodes
below a pointer form a given tree with consistent parent links; `Focus` says the same of a whole
tree, split at a hole. The pointer edits of a rebalancing step (relinking a child, a rotation,
splicing a node out or in) are verified here once, at the position where they happen. -/
namespace Lilith.Theory
open Color

variable {ι τ : Type*}

/-- What a linked tree stores, as maps from node addresses; `none` is the null pointer. -/
@[ext] structure PtrGraph (ι τ : Type*) where
  head : Option ι
  color : ι → Color
  parent : ι → Option ι
  child : ι → Direction → Option ι
  value : ι → Option τ

/-- The addresses of a tree, in order. -/
def CTree.ids (t : CTree (ι × τ)) : List ι := t.toList.map Prod.fst

/-- The addresses of a context, on either side of the hole. -/
def Ctx.ids (k : Ctx (ι × τ)) : List ι := (k.before ++ k.after).map Prod.fst

/-- The node above the hole. -/
def Ctx.above (k : Ctx (ι × τ)) : Option ι := k.top.map Prod.fst

/-- The address of the root. -/
def CTree.ptr (t : CTree (ι × τ)) : Option ι := t.root.map Prod.fst

namespace CTree

@[simp, grind =] theorem ids_leaf : (leaf : CTree (ι × τ)).ids = [] := rfl
@[simp, grind =] theorem ids_node (c : Color) (l r : CTree (ι × τ)) (x : ι × τ) :
    (node c l x r).ids = l.ids ++ x.1 :: r.ids := by simp [ids]
@[simp, grind =] theorem mem_ids_join (d : Direction) (c : Color) (t o : CTree (ι × τ)) (x : ι × τ) (i : ι) :
    i ∈ (join d c t x o).ids ↔ i ∈ t.ids ∨ i = x.1 ∨ i ∈ o.ids := by
  cases d with
  | left => simp [join]
  | right => simp [join]; tauto

/-- Distinct addresses in a joined node. -/
theorem nodup_ids_join (d : Direction) (c : Color) (t o : CTree (ι × τ)) (x : ι × τ) :
    (join d c t x o).ids.Nodup ↔
      t.ids.Nodup ∧ o.ids.Nodup ∧ x.1 ∉ t.ids ∧ x.1 ∉ o.ids ∧ ∀ i ∈ t.ids, i ∉ o.ids := by
  cases d <;> simp only [join, ids_node, List.nodup_append, List.nodup_cons, List.mem_cons] <;> grind

@[simp, grind =] theorem ptr_leaf : (leaf : CTree (ι × τ)).ptr = none := rfl
@[simp, grind =] theorem ptr_node (c : Color) (l r : CTree (ι × τ)) (x : ι × τ) :
    (node c l x r).ptr = some x.1 := rfl
@[simp, grind =] theorem ptr_join (d : Direction) (c : Color) (t o : CTree (ι × τ)) (x : ι × τ) :
    (join d c t x o).ptr = some x.1 := by cases d <;> rfl

lemma mem_ids_of_ptr {t : CTree (ι × τ)} {i : ι} (h : t.ptr = some i) : i ∈ t.ids := by
  cases t with
  | leaf => simp at h
  | node c l x r => simp only [ptr_node, Option.some.injEq] at h; simp [h]

end CTree

namespace Ctx

@[simp, grind =] theorem above_nil : above ([] : Ctx (ι × τ)) = none := rfl
@[simp, grind =] theorem above_cons (f : Frame (ι × τ)) (k : Ctx (ι × τ)) : above (f::k) = some f.key.1 := rfl
@[simp, grind =] theorem ids_nil : ids ([] : Ctx (ι × τ)) = [] := rfl
@[simp, grind =] theorem mem_ids_cons (f : Frame (ι × τ)) (k : Ctx (ι × τ)) (i : ι) :
    i ∈ ids (f::k) ↔ i = f.key.1 ∨ i ∈ f.other.ids ∨ i ∈ ids k := by
  rcases f with ⟨d,c,x,o⟩
  cases d <;>
    simp only [ids, before, after, CTree.ids, List.map_append, List.mem_append, List.map_cons,
      List.mem_cons, List.map_nil, List.not_mem_nil] <;> tauto

@[simp] theorem mem_ids_append (k k' : Ctx (ι × τ)) (i : ι) :
    i ∈ ids (k ++ k') ↔ i ∈ ids k ∨ i ∈ ids k' := by
  induction k with
  | nil => simp
  | cons f k ih => simp only [List.cons_append, mem_ids_cons, ih]; tauto

lemma mem_ids_fill (k : Ctx (ι × τ)) (t : CTree (ι × τ)) (i : ι) :
    i ∈ (fill k t).ids ↔ i ∈ k.ids ∨ i ∈ t.ids := by
  simp only [CTree.ids, toList_fill, ids, List.map_append, List.mem_append]; tauto

/-- Distinct addresses along a context, frame by frame. -/
theorem nodup_ids_cons (f : Frame (ι × τ)) (k : Ctx (ι × τ)) : (ids (f::k)).Nodup ↔
    k.ids.Nodup ∧ f.other.ids.Nodup ∧ f.key.1 ∉ f.other.ids ∧ f.key.1 ∉ k.ids ∧
      ∀ i ∈ f.other.ids, i ∉ k.ids := by
  rcases f with ⟨d,c,x,o⟩
  cases d <;>
    simp only [ids, before, after, CTree.ids, List.map_append, List.map_cons, List.map_nil,
      List.nodup_append, List.nodup_cons, List.mem_append, List.mem_cons, List.nodup_nil] <;> grind

/-- Distinct addresses in a filled context, split at the hole. -/
theorem nodup_ids_fill (k : Ctx (ι × τ)) (t : CTree (ι × τ)) :
    (fill k t).ids.Nodup ↔ k.ids.Nodup ∧ t.ids.Nodup ∧ ∀ i ∈ t.ids, i ∉ k.ids := by
  simp only [CTree.ids, ids, toList_fill, List.map_append, List.nodup_append, List.mem_append]
  grind

end Ctx

namespace PtrGraph
open CTree

section Defs
variable [DecidableEq ι] (g : PtrGraph ι τ)

/-- Set the parent link of `p`, when `p` is a node. -/
def setParent (p q : Option ι) : PtrGraph ι τ :=
  { g with parent := fun i => if some i = p then q else g.parent i }

def setColor (i : ι) (c : Color) : PtrGraph ι τ :=
  { g with color := fun j => if j = i then c else g.color j }

/-- Make `p` the child of `i` on side `d`, without its parent link. -/
def setLink (i : ι) (d : Direction) (p : Option ι) : PtrGraph ι τ :=
  { g with child := fun j e => if j = i ∧ e = d then p else g.child j e }

/-- Make `p` the child of `i` on side `d`, with its parent link. -/
def setChild (i : ι) (d : Direction) (p : Option ι) : PtrGraph ι τ :=
  (g.setLink i d p).setParent p (some i)

def grandparent (a : ι) : Option ι := (g.parent a).bind g.parent

/-- The sibling of the parent. -/
def uncle (a : ι) : Option ι := (g.grandparent a).bind fun f =>
  if g.child f .left = g.parent a then g.child f .right else g.child f .left

/-- The pointer in the hole of a context. -/
def hole : Ctx (ι × τ) → Option ι
  | [] => g.head
  | f::_ => g.child f.key.1 f.dir

/-- Relink the hole of a context to `p`. -/
def setHole : Ctx (ι × τ) → Option ι → PtrGraph ι τ
  | [], p => setParent { g with head := p } p none
  | f::_, p => g.setChild f.key.1 f.dir p

end Defs

/-- The nodes below pointer `p`, whose parent is `q`, form the tree `t`. -/
def Repr (g : PtrGraph ι τ) : Option ι → Option ι → CTree (ι × τ) → Prop
  | _, p, leaf => p = none
  | q, p, node c l x r => p = some x.1 ∧ g.parent x.1 = q ∧ g.color x.1 = c ∧
      g.value x.1 = some x.2 ∧ g.Repr (some x.1) (g.child x.1 .left) l ∧
      g.Repr (some x.1) (g.child x.1 .right) r

/-- The nodes around a hole form the context `k`. -/
def ReprCtx (g : PtrGraph ι τ) : Ctx (ι × τ) → Prop
  | [] => True
  | f::k => g.hole k = some f.key.1 ∧ g.parent f.key.1 = Ctx.above k ∧ g.color f.key.1 = f.color ∧
      g.value f.key.1 = some f.key.2 ∧ g.Repr (some f.key.1) (g.child f.key.1 f.dir.not) f.other ∧
      g.ReprCtx k

/-- The whole graph is the tree `t` in the context `k`, with distinct nodes. -/
structure Focus (g : PtrGraph ι τ) (k : Ctx (ι × τ)) (t : CTree (ι × τ)) : Prop where
  ctx : g.ReprCtx k
  tree : g.Repr k.above (g.hole k) t
  nodup : (k.fill t).ids.Nodup

section Basic
variable {g g' : PtrGraph ι τ}

@[simp] theorem repr_leaf (q p : Option ι) : g.Repr q p leaf ↔ p = none := Iff.rfl

theorem repr_node (q p : Option ι) (c : Color) (l r : CTree (ι × τ)) (x : ι × τ) :
    g.Repr q p (node c l x r) ↔ p = some x.1 ∧ g.parent x.1 = q ∧ g.color x.1 = c ∧
      g.value x.1 = some x.2 ∧ g.Repr (some x.1) (g.child x.1 .left) l ∧
      g.Repr (some x.1) (g.child x.1 .right) r := Iff.rfl

/-- The same, with the children named by side. -/
theorem repr_join (q p : Option ι) (d : Direction) (c : Color) (t o : CTree (ι × τ)) (x : ι × τ) :
    g.Repr q p (join d c t x o) ↔ p = some x.1 ∧ g.parent x.1 = q ∧ g.color x.1 = c ∧
      g.value x.1 = some x.2 ∧ g.Repr (some x.1) (g.child x.1 d) t ∧
      g.Repr (some x.1) (g.child x.1 d.not) o := by
  cases d with
  | left => exact Iff.rfl
  | right => simp only [join, repr_node, Direction.not]; tauto

lemma Repr.ptr_eq {q p : Option ι} {t : CTree (ι × τ)} (h : g.Repr q p t) : p = t.ptr := by
  cases t with
  | leaf => exact h
  | node c l x r => exact h.1

/-- Editing the graph away from a tree keeps the tree. -/
lemma Repr.congr_all {q p : Option ι} {t : CTree (ι × τ)} (h : g.Repr q p t)
    (hn : ∀ i ∈ t.ids, g'.color i = g.color i ∧ g'.value i = g.value i ∧
      g'.parent i = g.parent i ∧ g'.child i = g.child i) : g'.Repr q p t := by
  induction t generalizing q p with
  | leaf => exact h
  | node c l x r ihl ihr =>
    obtain ⟨rfl,hpar,hc,hv,hl,hr⟩ := h
    obtain ⟨xc,xv,xp,xd⟩ := hn x.1 (by simp)
    refine ⟨rfl,xp.trans hpar,xc.trans hc,xv.trans hv,?_,?_⟩
    · rw [xd]; exact ihl hl (fun i hi => hn i (by simp [hi]))
    · rw [xd]; exact ihr hr (fun i hi => hn i (by simp [hi]))

/-- Editing the graph away from a tree and giving its root another parent. -/
theorem Repr.congr {q q' p : Option ι} {t : CTree (ι × τ)} (h : g.Repr q p t)
    (hn : ∀ i ∈ t.ids, g'.color i = g.color i ∧ g'.value i = g.value i ∧ g'.child i = g.child i)
    (hp : ∀ i ∈ t.ids, some i ≠ p → g'.parent i = g.parent i)
    (hq : ∀ i, p = some i → g'.parent i = q') (hd : t.ids.Nodup) : g'.Repr q' p t := by
  cases t with
  | leaf => exact h
  | node c l x r =>
    obtain ⟨rfl,hpar,hc,hv,hl,hr⟩ := h
    simp only [ids_node, List.nodup_append, List.nodup_cons, List.mem_cons] at hd
    obtain ⟨xc,xv,xd⟩ := hn x.1 (by simp)
    refine ⟨rfl,hq _ rfl,xc.trans hc,xv.trans hv,?_,?_⟩
    · rw [xd]
      refine hl.congr_all fun i hi => ?_
      obtain ⟨h1,h2,h3⟩ := hn i (by simp [hi])
      exact ⟨h1,h2,hp i (by simp [hi]) (by grind),h3⟩
    · rw [xd]
      refine hr.congr_all fun i hi => ?_
      obtain ⟨h1,h2,h3⟩ := hn i (by simp [hi])
      exact ⟨h1,h2,hp i (by simp [hi]) (by grind),h3⟩

end Basic
end PtrGraph
end Lilith.Theory
