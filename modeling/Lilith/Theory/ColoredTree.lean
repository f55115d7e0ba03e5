import Mathlib.Data.List.Nodup
import Mathlib.Tactic

/-! Coloured binary trees and their contexts. A context is the path from a hole to the root,
innermost frame first; filling the hole gives a tree back. Both the in-order list and the
red-black balance of a filled context split into a part of the context and a part of the tree,
so an algorithm that edits a tree near one position is verified at that position only. -/
namespace Lilith.Theory

inductive Color where
  | red
  | black
  deriving DecidableEq, Repr

inductive Direction where
  | left
  | right
  deriving DecidableEq, Repr

namespace Direction

/-- The other side. -/
def not : Direction → Direction
  | left => right
  | right => left

@[simp] theorem not_not (d : Direction) : d.not.not = d := by cases d <;> rfl
@[simp] theorem not_ne (d : Direction) : d.not ≠ d := by cases d <;> decide
@[simp] theorem ne_not (d : Direction) : d ≠ d.not := (not_ne d).symm

lemma eq_or_eq_not (d e : Direction) : e = d ∨ e = d.not := by
  cases d <;> cases e <;> simp [not]

end Direction

open Color

/-- A binary tree with a colour and a key at every node. -/
inductive CTree (α : Type*) where
  | leaf
  | node (c : Color) (l : CTree α) (x : α) (r : CTree α)
  deriving DecidableEq, Repr

variable {α : Type*}

namespace CTree

/-- The colour of the root; an empty tree counts as black. -/
def color : CTree α → Color
  | leaf => black
  | node c _ _ _ => c

def toList : CTree α → List α
  | leaf => []
  | node _ l x r => l.toList ++ x :: r.toList

def size : CTree α → ℕ
  | leaf => 0
  | node _ l _ r => l.size + r.size + 1

def root : CTree α → Option α
  | leaf => none
  | node _ _ x _ => some x

/-- The node whose child on side `d` is `t` and whose other child is `o`. -/
def join (d : Direction) (c : Color) (t : CTree α) (x : α) (o : CTree α) : CTree α :=
  match d with
  | .left => node c t x o
  | .right => node c o x t

@[simp] theorem color_leaf : (leaf : CTree α).color = black := rfl
@[simp] theorem color_node (c : Color) (l r : CTree α) (x : α) : (node c l x r).color = c := rfl
@[simp] theorem toList_leaf : (leaf : CTree α).toList = [] := rfl
@[simp] theorem toList_node (c : Color) (l r : CTree α) (x : α) :
    (node c l x r).toList = l.toList ++ x :: r.toList := rfl
@[simp] theorem root_leaf : (leaf : CTree α).root = none := rfl
@[simp] theorem root_node (c : Color) (l r : CTree α) (x : α) : (node c l x r).root = some x := rfl
@[simp] theorem color_join (d : Direction) (c : Color) (t o : CTree α) (x : α) :
    (join d c t x o).color = c := by cases d <;> rfl
@[simp] theorem root_join (d : Direction) (c : Color) (t o : CTree α) (x : α) :
    (join d c t x o).root = some x := by cases d <;> rfl

lemma join_not (d : Direction) (c : Color) (t o : CTree α) (x : α) :
    join d.not c t x o = join d c o x t := by cases d <;> rfl

@[simp] theorem toList_length (t : CTree α) : t.toList.length = t.size := by
  induction t with
  | leaf => rfl
  | node c l x r ihl ihr => simp [size, ihl, ihr]; omega

/-- Membership in a joined node does not depend on the side. -/
@[simp] theorem mem_toList_join (d : Direction) (c : Color) (t o : CTree α) (x y : α) :
    y ∈ (join d c t x o).toList ↔ y ∈ t.toList ∨ y = x ∨ y ∈ o.toList := by
  cases d with
  | left => simp [join]
  | right => simp [join]; tauto

/-- A nonempty tree, seen from either side. -/
lemma exists_join (d : Direction) {t : CTree α} (h : t ≠ leaf) :
    ∃ c a x b, t = join d c a x b := by
  cases t with
  | leaf => exact absurd rfl h
  | node c l x r =>
    cases d with
    | left => exact ⟨c,l,x,r,rfl⟩
    | right => exact ⟨c,r,x,l,rfl⟩

/-- `Balanced t n`: no red node has a red child, and every path from the root of `t` to an
empty subtree passes `n` black nodes. The root itself may be red. -/
def Balanced : CTree α → ℕ → Prop
  | leaf, n => n = 0
  | node red l _ r, n => l.color = black ∧ r.color = black ∧ l.Balanced n ∧ r.Balanced n
  | node black l _ r, n => ∃ m, n = m+1 ∧ l.Balanced m ∧ r.Balanced m

@[simp] theorem balanced_leaf (n : ℕ) : (leaf : CTree α).Balanced n ↔ n = 0 := Iff.rfl
@[simp] theorem balanced_red (l r : CTree α) (x : α) (n : ℕ) : (node red l x r).Balanced n ↔
    l.color = black ∧ r.color = black ∧ l.Balanced n ∧ r.Balanced n := Iff.rfl
@[simp] theorem balanced_black (l r : CTree α) (x : α) (n : ℕ) :
    (node black l x r).Balanced n ↔ ∃ m, n = m+1 ∧ l.Balanced m ∧ r.Balanced m := Iff.rfl

@[simp] theorem balanced_join_red (d : Direction) (t o : CTree α) (x : α) (n : ℕ) :
    (join d red t x o).Balanced n ↔
      t.color = black ∧ o.color = black ∧ t.Balanced n ∧ o.Balanced n := by
  cases d with
  | left => simp [join]
  | right => simp [join]; tauto

@[simp] theorem balanced_join_black (d : Direction) (t o : CTree α) (x : α) (n : ℕ) :
    (join d black t x o).Balanced n ↔ ∃ m, n = m+1 ∧ t.Balanced m ∧ o.Balanced m := by
  cases d with
  | left => simp [join]
  | right => simp [join]; tauto

/-- Painting a red root black adds one to the black height. -/
lemma Balanced.blacken {l r : CTree α} {x : α} {n : ℕ} (h : (node red l x r).Balanced n) :
    (node black l x r).Balanced (n+1) := ⟨n,rfl,h.2.2.1,h.2.2.2⟩

lemma Balanced.ne_leaf {t : CTree α} {n : ℕ} (h : t.Balanced (n+1)) : t ≠ leaf := by
  rintro rfl
  exact absurd h (by simp)

end CTree

open CTree

/-- One step of a path: the node passed through, the side the path goes down on, and the
subtree on the other side. -/
structure Frame (α : Type*) where
  dir : Direction
  color : Color
  key : α
  other : CTree α

/-- The path from a hole to the root, innermost frame first. -/
abbrev Ctx (α : Type*) := List (Frame α)

namespace Ctx

def fill : Ctx α → CTree α → CTree α
  | [], t => t
  | f::k, t => fill k (join f.dir f.color t f.key f.other)

/-- The keys in order before the hole. -/
def before : Ctx α → List α
  | [] => []
  | f::k => before k ++ (match f.dir with
    | .left => []
    | .right => f.other.toList ++ [f.key])

/-- The keys in order after the hole. -/
def after : Ctx α → List α
  | [] => []
  | f::k => (match f.dir with
    | .left => f.key :: f.other.toList
    | .right => []) ++ after k

/-- The key of the innermost frame. -/
def top : Ctx α → Option α
  | [] => none
  | f::_ => some f.key

@[simp] theorem fill_nil (t : CTree α) : fill [] t = t := rfl
@[simp] theorem fill_cons (f : Frame α) (k : Ctx α) (t : CTree α) :
    fill (f::k) t = fill k (join f.dir f.color t f.key f.other) := rfl

lemma fill_append (k k' : Ctx α) (t : CTree α) : fill (k ++ k') t = fill k' (fill k t) := by
  induction k generalizing t with
  | nil => rfl
  | cons f k ih => simp [ih]

/-- Filling a hole puts the keys of the filling between those of the context. -/
theorem toList_fill (k : Ctx α) (t : CTree α) :
    (fill k t).toList = before k ++ t.toList ++ after k := by
  induction k generalizing t with
  | nil => simp [before, after]
  | cons f k ih =>
    rw [fill_cons, ih]
    rcases f with ⟨d,c,x,o⟩
    cases d <;> simp [join, before, after]

lemma before_append (k k' : Ctx α) : before (k ++ k') = before k' ++ before k := by
  induction k with
  | nil => simp [before]
  | cons f k ih => simp [before, ih]

lemma after_append (k k' : Ctx α) : after (k ++ k') = after k ++ after k' := by
  induction k with
  | nil => simp [after]
  | cons f k ih => simp [after, ih]

/-- A path that only goes left has nothing before its hole. -/
lemma before_of_left {k : Ctx α} (h : ∀ f ∈ k, f.dir = .left) : before k = [] := by
  induction k with
  | nil => rfl
  | cons f k ih => simp [before, h f (by simp), ih fun g hg => h g (by simp [hg])]

lemma length_le_size_fill (k : Ctx α) (t : CTree α) : k.length + t.size ≤ (fill k t).size := by
  induction k generalizing t with
  | nil => simp
  | cons f k ih =>
    have hj : (join f.dir f.color t f.key f.other).size = t.size + f.other.size + 1 := by
      cases f.dir <;> simp [join, CTree.size]; omega
    have := ih (join f.dir f.color t f.key f.other)
    rw [fill_cons, List.length_cons]
    omega

lemma mem_fill (k : Ctx α) (t : CTree α) (x : α) :
    x ∈ (fill k t).toList ↔ (x ∈ before k ∨ x ∈ after k) ∨ x ∈ t.toList := by
  rw [toList_fill]; simp; tauto

/-- Every key of a tree is the root of a subtree. -/
lemma exists_fill_of_mem {t : CTree α} {x : α} (h : x ∈ t.toList) :
    ∃ (k : Ctx α) (c : Color) (l r : CTree α), t = fill k (node c l x r) := by
  induction t with
  | leaf => simp at h
  | node c l y r ihl ihr =>
    rcases List.mem_append.mp h with h | h
    · obtain ⟨k,c',l',r',rfl⟩ := ihl h
      exact ⟨k ++ [⟨.left,c,y,r⟩],c',l',r',by rw [fill_append]; rfl⟩
    · rcases List.mem_cons.mp h with rfl | h
      · exact ⟨[],c,l,r,rfl⟩
      · obtain ⟨k,c',l',r',rfl⟩ := ihr h
        exact ⟨k ++ [⟨.right,c,y,l⟩],c',l',r',by rw [fill_append]; rfl⟩

/-- `k.Balanced c n`: filling the hole with a tree of colour `c` and black height `n` gives a
balanced tree. -/
def Balanced : Ctx α → Color → ℕ → Prop
  | [], _, _ => True
  | ⟨_,red,_,o⟩::k, c, n => c = black ∧ o.color = black ∧ o.Balanced n ∧ Balanced k red n
  | ⟨_,black,_,o⟩::k, _, n => o.Balanced n ∧ Balanced k black (n+1)

@[simp] theorem balanced_nil (c : Color) (n : ℕ) : Balanced ([] : Ctx α) c n ↔ True := Iff.rfl
@[simp] theorem balanced_cons_red (d : Direction) (x : α) (o : CTree α) (k : Ctx α) (c : Color)
    (n : ℕ) : Balanced (⟨d,red,x,o⟩::k) c n ↔
      c = black ∧ o.color = black ∧ o.Balanced n ∧ Balanced k red n := Iff.rfl
@[simp] theorem balanced_cons_black (d : Direction) (x : α) (o : CTree α) (k : Ctx α) (c : Color)
    (n : ℕ) : Balanced (⟨d,black,x,o⟩::k) c n ↔ o.Balanced n ∧ Balanced k black (n+1) := Iff.rfl

/-- A hole that admits a red filling admits a black one. -/
lemma Balanced.to_black {k : Ctx α} {c : Color} {n : ℕ} (h : k.Balanced c n) :
    k.Balanced black n := by
  match k, h with
  | [], _ => trivial
  | ⟨_,red,_,_⟩::_, h => exact ⟨rfl,h.2⟩
  | ⟨_,black,_,_⟩::_, h => exact h

/-- A hole under a black node, or at the top, admits any colour. -/
lemma Balanced.any_of_top {k : Ctx α} {c : Color} {n : ℕ} (h : k.Balanced c n) (c' : Color)
    (ht : ∀ f ∈ k.head?, f.color = black) : k.Balanced c' n := by
  match k, h with
  | [], _ => trivial
  | ⟨_,red,_,_⟩::_, _ => simp at ht
  | ⟨_,black,_,_⟩::_, h => exact h

/-- The balance of a context does not depend on its keys. -/
lemma balanced_rekey (k : Ctx α) (d : Direction) (c : Color) (x y : α) (o : CTree α) (k' : Ctx α)
    {c' : Color} {n : ℕ} (h : Balanced (k ++ ⟨d,c,x,o⟩::k') c' n) :
    Balanced (k ++ ⟨d,c,y,o⟩::k') c' n := by
  induction k generalizing c' n with
  | nil => cases c <;> exact h
  | cons f k ih =>
    obtain ⟨fd,fc,fx,fo⟩ := f
    cases fc with
    | red => exact ⟨h.1,h.2.1,h.2.2.1,ih h.2.2.2⟩
    | black => exact ⟨h.1,ih h.2⟩

/-- The balance of a filled context, split at the hole. -/
theorem balanced_fill (k : Ctx α) (t : CTree α) :
    (∃ m, (fill k t).Balanced m) ↔ ∃ n, t.Balanced n ∧ k.Balanced t.color n := by
  induction k generalizing t with
  | nil => simp
  | cons f k ih =>
    rcases f with ⟨d,c,x,o⟩
    rw [fill_cons, ih]
    cases c with
    | red =>
      constructor
      · rintro ⟨n,hj,hk⟩
        obtain ⟨ht,ho,hbt,hbo⟩ := (balanced_join_red d t o x n).mp hj
        exact ⟨n,hbt,ht,ho,hbo,by simpa using hk⟩
      · rintro ⟨n,hbt,ht,ho,hbo,hk⟩
        exact ⟨n,(balanced_join_red d t o x n).mpr ⟨ht,ho,hbt,hbo⟩,by simpa using hk⟩
    | black =>
      constructor
      · rintro ⟨n,hj,hk⟩
        obtain ⟨m,rfl,hbt,hbo⟩ := (balanced_join_black d t o x n).mp hj
        exact ⟨m,hbt,hbo,by simpa using hk⟩
      · rintro ⟨n,hbt,hbo,hk⟩
        exact ⟨n+1,(balanced_join_black d t o x _).mpr ⟨n,rfl,hbt,hbo⟩,by simpa using hk⟩

end Ctx
end Lilith.Theory
