import Lilith.Theory.TreeEdits
import Lilith.Theory.Exec
import Lilith.Rbtree.Model

/-! The heap of a tree as a graph of nodes, and what every step of a tree operation preserves.
`Step S` relates the states before and after a step on the nodes `S`: other cells are untouched,
values stay, and a node that is still clean afterwards was clean before and kept its children.
`Good S` is the invariant of the dirty marks: along parent links they are closed upwards.
Since child pointers are only written by code that marks the node dirty, both survive any
sequence of edits, whatever shape the links have in between. -/
namespace Lilith.Rbtree
open Theory PtrGraph

variable {T V : Type}

namespace Heap

lemma get?_set {h : Heap T V} {a : ℕ} {m : RbNode T V} (ha : h.get? a = some m) (n : RbNode T V)
    (b : ℕ) : (h.set a n).get? b = if b = a then some n else h.get? b := by
  have hlt : a < h.cells.length := by
    by_contra hge
    simp [get?, List.getElem?_eq_none (not_lt.mp hge)] at ha
  simp only [get?, set, List.getElem?_set]
  by_cases hb : b = a
  · subst hb; simp [hlt]
  · simp [hb, Ne.symm hb]

@[simp] theorem length_set (h : Heap T V) (a : ℕ) (n : RbNode T V) :
    (h.set a n).cells.length = h.cells.length := by simp [set]

/-- The augment field of a cell; a dirty node has none. -/
def aug (h : Heap T V) (a : ℕ) : Option V := (h.get? a).bind (·.augment)

/-- `b` is the parent of the node `a`. -/
def ParentOf (h : Heap T V) (a b : ℕ) : Prop := ∃ n, h.get? a = some n ∧ n.parent = some b

/-- Every ancestor of `a` along parent links, `a` included, is dirty. -/
def DirtyUp (h : Heap T V) (a : ℕ) : Prop := ∀ b, Relation.ReflTransGen h.ParentOf a b → h.aug b = none

end Heap

/-- The links, colours and values stored in a heap. -/
def RbTree.graph (t : RbTree T V) : PtrGraph ℕ T where
  head := t.head
  color a := match t.heap.get? a with
    | some n => n.color
    | none => .black
  parent a := (t.heap.get? a).bind (·.parent)
  child a d := (t.heap.get? a).bind (·.child d)
  value a := (t.heap.get? a).map (·.value)

section Fields
variable {s : State T V} {a : ℕ} {n : RbNode T V}

lemma graph_color (h : s.heap.get? a = some n) : s.graph.color a = n.color := by
  simp [RbTree.graph, h]
lemma graph_parent (h : s.heap.get? a = some n) : s.graph.parent a = n.parent := by
  simp [RbTree.graph, h]
lemma graph_child (h : s.heap.get? a = some n) (d : Direction) : s.graph.child a d = n.child d := by
  simp [RbTree.graph, h]
lemma graph_left (h : s.heap.get? a = some n) : s.graph.child a .left = n.left := graph_child h _
lemma graph_right (h : s.heap.get? a = some n) : s.graph.child a .right = n.right := graph_child h _
lemma graph_value (h : s.heap.get? a = some n) : s.graph.value a = some n.value := by
  simp [RbTree.graph, h]
lemma aug_eq (h : s.heap.get? a = some n) : s.heap.aug a = n.augment := by simp [Heap.aug, h]

@[simp] theorem withChild_child (n : RbNode T V) (d e : Direction) (p : Ptr) :
    (n.withChild d p).child e = if e = d then p else n.child e := by
  cases d <;> cases e <;> rfl
@[simp] theorem withChild_color (n : RbNode T V) (d : Direction) (p : Ptr) :
    (n.withChild d p).color = n.color := by cases d <;> rfl
@[simp] theorem withChild_parent (n : RbNode T V) (d : Direction) (p : Ptr) :
    (n.withChild d p).parent = n.parent := by cases d <;> rfl
@[simp] theorem withChild_value (n : RbNode T V) (d : Direction) (p : Ptr) :
    (n.withChild d p).value = n.value := by cases d <;> rfl
@[simp] theorem withChild_augment (n : RbNode T V) (d : Direction) (p : Ptr) :
    (n.withChild d p).augment = n.augment := by cases d <;> rfl

end Fields

lemma graph_value_some {s : State T V} {a : ℕ} {v : T} (h : s.graph.value a = some v) :
    ∃ n, s.heap.get? a = some n ∧ n.value = v := Option.map_eq_some_iff.mp h

lemma Heap.lt_of_get? {h : Heap T V} {a : ℕ} {n : RbNode T V} (hn : h.get? a = some n) :
    a < h.cells.length := by
  by_contra hge
  simp [get?, List.getElem?_eq_none (not_lt.mp hge)] at hn

/-- The node at every address of a represented tree. -/
lemma Repr.get {s : State T V} {q p : Option ℕ} {t : CTree (ℕ × T)} (h : s.graph.Repr q p t) :
    ∀ x ∈ t.toList, ∃ n, s.heap.get? x.1 = some n ∧ n.value = x.2 := by
  induction t generalizing q p with
  | leaf => simp
  | node c l y r ihl ihr =>
    obtain ⟨_,_,_,hv,hl,hr⟩ := h
    intro x hx
    rcases List.mem_append.mp hx with hx | hx
    · exact ihl hl x hx
    · rcases List.mem_cons.mp hx with rfl | hx
      · exact graph_value_some hv
      · exact ihr hr x hx

/-- A tree has no more nodes than its heap has cells. -/
lemma Focus.size_le {s : State T V} {t : CTree (ℕ × T)} (h : s.graph.Focus [] t) :
    t.size ≤ s.heap.cells.length := by
  have hsub : t.ids.toFinset ⊆ Finset.range s.heap.cells.length := by
    intro i hi
    obtain ⟨x,hx,rfl⟩ := List.mem_map.mp (List.mem_toFinset.mp hi)
    obtain ⟨n,hn,_⟩ := Repr.get h.tree x hx
    exact Finset.mem_range.mpr (Heap.lt_of_get? hn)
  have hcard := Finset.card_le_card hsub
  rw [Finset.card_range, List.toFinset_card_of_nodup h.nodup_tree] at hcard
  simpa [CTree.ids] using hcard

/-- The state after the node at `a` was overwritten. -/
def State.put (s : State T V) (a : ℕ) (m : RbNode T V) : State T V := { s with heap := s.heap.set a m }

section Put
variable {s : State T V} {a : ℕ} {n : RbNode T V} (hn : s.heap.get? a = some n) (m : RbNode T V) (b : ℕ)
include hn

lemma put_get : (s.put a m).heap.get? b = if b = a then some m else s.heap.get? b :=
  Heap.get?_set hn m b
lemma put_color : (s.put a m).graph.color b = if b = a then m.color else s.graph.color b := by
  by_cases hb : b = a <;> simp [RbTree.graph, put_get hn, hb]
lemma put_parent : (s.put a m).graph.parent b = if b = a then m.parent else s.graph.parent b := by
  simp only [RbTree.graph, put_get hn]; split <;> rfl
lemma put_child (d : Direction) :
    (s.put a m).graph.child b d = if b = a then m.child d else s.graph.child b d := by
  simp only [RbTree.graph, put_get hn]; split <;> rfl
lemma put_value : (s.put a m).graph.value b = if b = a then some m.value else s.graph.value b := by
  simp only [RbTree.graph, put_get hn]; split <;> rfl
lemma put_aug : (s.put a m).heap.aug b = if b = a then m.augment else s.heap.aug b := by
  simp only [Heap.aug, put_get hn]; split <;> rfl

end Put

@[simp] theorem put_length (s : State T V) (a : ℕ) (m : RbNode T V) :
    (s.put a m).heap.cells.length = s.heap.cells.length := Heap.length_set _ _ _
@[simp] theorem put_stops (s : State T V) (a : ℕ) (m : RbNode T V) : (s.put a m).stops = s.stops := rfl
@[simp] theorem put_head (s : State T V) (a : ℕ) (m : RbNode T V) :
    (s.put a m).graph.head = s.graph.head := rfl

lemma write_ok {s : State T V} {a : ℕ} {n : RbNode T V} (hn : s.heap.get? a = some n)
    (f : RbNode T V → RbNode T V) : write (some a) f s = .ok ((),s.put a (f n)) := by
  simp [write, hn, State.put]

lemma deref_ok {s : State T V} {a : ℕ} {n : RbNode T V} (hn : s.heap.get? a = some n) :
    deref (some a) s = .ok (n,s) := by simp [deref, Heap.deref, hn, Except.map]

section PutGraph
variable {s : State T V} {a : ℕ} {n : RbNode T V} (hn : s.heap.get? a = some n)
include hn

lemma put_graph (m : RbNode T V) : (s.put a m).graph =
    ⟨s.graph.head,fun b => if b = a then m.color else s.graph.color b,
      fun b => if b = a then m.parent else s.graph.parent b,
      fun b d => if b = a then m.child d else s.graph.child b d,
      fun b => if b = a then some m.value else s.graph.value b⟩ :=
  PtrGraph.ext rfl (funext (put_color hn m)) (funext (put_parent hn m))
    (funext fun b => funext (put_child hn m b)) (funext (put_value hn m))

lemma graph_put_color (c : Color) : (s.put a { n with color := c }).graph = s.graph.setColor a c := by
  rw [put_graph hn]
  refine PtrGraph.ext rfl rfl (funext fun b => ?_) (funext fun b => funext fun d => ?_)
    (funext fun b => ?_)
  all_goals by_cases hb : b = a <;> simp [hb, graph_parent hn, graph_value hn, graph_child hn]
  rfl

lemma graph_put_parent (q : Ptr) :
    (s.put a { n with parent := q }).graph = s.graph.setParent (some a) q := by
  rw [put_graph hn]
  refine PtrGraph.ext rfl (funext fun b => ?_) (funext fun b => ?_)
    (funext fun b => funext fun d => ?_) (funext fun b => ?_)
  all_goals by_cases hb : b = a <;>
    simp [hb, PtrGraph.setParent, graph_color hn, graph_value hn, graph_child hn]
  rfl

lemma graph_put_child (d : Direction) (p : Ptr) :
    (s.put a (n.withChild d p)).graph = s.graph.setLink a d p := by
  rw [put_graph hn]
  refine PtrGraph.ext rfl (funext fun b => ?_) (funext fun b => ?_)
    (funext fun b => funext fun e => ?_) (funext fun b => ?_)
  all_goals by_cases hb : b = a <;>
    simp [hb, PtrGraph.setLink, graph_color hn, graph_parent hn, graph_value hn, graph_child hn]

lemma graph_put_augment (v : Option V) : (s.put a { n with augment := v }).graph = s.graph := by
  rw [put_graph hn]
  refine PtrGraph.ext rfl (funext fun b => ?_) (funext fun b => ?_)
    (funext fun b => funext fun e => ?_) (funext fun b => ?_)
  all_goals by_cases hb : b = a <;>
    simp [hb, graph_color hn, graph_parent hn, graph_value hn, graph_child hn]
  rfl

end PutGraph

/-- The invariant of the nodes `S` during an operation: they are allocated, their parents are
among them, and dirty marks are closed under parents, except that the node at `p` may still be
clean. Every early stop of `markDirty` so far was at a node with no clean ancestor. -/
structure GoodBut (S : Set ℕ) (p : Ptr) (s : State T V) : Prop where
  live : ∀ a ∈ S, ∃ n, s.heap.get? a = some n
  parent : ∀ a ∈ S, ∀ b, s.graph.parent a = some b → b ∈ S
  closed : ∀ a ∈ S, ∀ b, s.graph.parent a = some b → s.heap.aug a = none →
    s.heap.aug b = none ∨ p = some b
  stops : ∀ e ∈ s.stops, e.1.DirtyUp e.2

/-- The invariant with no exception. -/
abbrev Good (S : Set ℕ) (s : State T V) : Prop := GoodBut S none s

/-- What a step on the nodes `S` leaves alone. -/
structure Step (S : Set ℕ) (s s' : State T V) : Prop where
  frame : ∀ a ∉ S, s'.heap.get? a = s.heap.get? a
  value : ∀ a ∈ S, s'.graph.value a = s.graph.value a
  clean : ∀ a ∈ S, ∀ v, s'.heap.aug a = some v → s.heap.aug a = some v ∧
    s'.graph.child a = s.graph.child a
  length : s'.heap.cells.length = s.heap.cells.length

variable {S : Set ℕ} {s s' s'' : State T V} {α β : Type}

lemma GoodBut.good {p : Ptr} (h : GoodBut S p s) (hp : ∀ a, p = some a → s.heap.aug a = none) :
    Good S s where
  live := h.live
  parent := h.parent
  closed a ha b hb hd := Or.inl ((h.closed a ha b hb hd).elim id (hp b))
  stops := h.stops

lemma Good.but (h : Good S s) (p : Ptr) : GoodBut S p s where
  live := h.live
  parent := h.parent
  closed a ha b hb hd := Or.inl ((h.closed a ha b hb hd).elim id (by simp))
  stops := h.stops

/-- Where the marks are closed under parents, a dirty node has no clean ancestor. -/
lemma Good.dirtyUp (h : Good S s) {a : ℕ} (ha : a ∈ S) (hd : s.heap.aug a = none) :
    s.heap.DirtyUp a := by
  intro b hb
  suffices hs : b ∈ S ∧ s.heap.aug b = none from hs.2
  induction hb with
  | refl => exact ⟨ha,hd⟩
  | @tail b c _ hbc ih =>
    obtain ⟨n,hn,hp⟩ := hbc
    have hpar : s.graph.parent b = some c := (graph_parent hn).trans hp
    exact ⟨h.parent b ih.1 c hpar,(h.closed b ih.1 c hpar ih.2).elim id (by simp)⟩

lemma Step.refl (S : Set ℕ) (s : State T V) : Step S s s :=
  ⟨fun _ _ => rfl, fun _ _ => rfl, fun _ _ _ h => ⟨h,rfl⟩, rfl⟩

lemma Step.trans (h : Step S s s') (h' : Step S s' s'') : Step S s s'' where
  frame a ha := (h'.frame a ha).trans (h.frame a ha)
  value a ha := (h'.value a ha).trans (h.value a ha)
  clean a ha v hv := by
    obtain ⟨h1,h2⟩ := h'.clean a ha v hv
    obtain ⟨h3,h4⟩ := h.clean a ha v h1
    exact ⟨h3,h2.trans h4⟩
  length := h'.length.trans h.length

/-- `m`, run on the nodes `S`, ends without a fault, keeps the invariant and gives `Q`. -/
def Spec (S : Set ℕ) (m : M T V α) (s : State T V) (Q : α → State T V → Prop) : Prop :=
  Good S s → Ends m s fun a s' => Step S s s' ∧ Good S s' ∧ Q a s'

namespace Spec
variable {m : M T V α} {f : α → M T V β} {P Q : α → State T V → Prop} {R : β → State T V → Prop}

theorem mono (h : Spec S m s P) (hq : ∀ a s', P a s' → Q a s') : Spec S m s Q :=
  fun hg => (h hg).mono fun a s' ⟨h1,h2,h3⟩ => ⟨h1,h2,hq a s' h3⟩

theorem pure {a : α} (h : Q a s) : Spec S (Pure.pure a : M T V α) s Q :=
  fun hg => Ends.pure ⟨Step.refl S s,hg,h⟩

theorem bind (h : Spec S m s P) (hf : ∀ a s', P a s' → Spec S (f a) s' R) :
    Spec S (m >>= f) s R := by
  intro hg
  refine (h hg).bind fun a s' ⟨h1,h2,h3⟩ => ?_
  exact (hf a s' h3 h2).mono fun b s'' ⟨h4,h5,h6⟩ => ⟨h1.trans h4,h5,h6⟩

theorem bind_get {f : State T V → M T V β} (hf : Spec S (f s) s R) : Spec S (get >>= f) s R :=
  fun hg => Ends.bind_get (hf hg)

/-- Reading a node changes nothing. -/
theorem bind_deref {f : RbNode T V → M T V β} {a : ℕ} (ha : a ∈ S)
    (hf : ∀ n, s.heap.get? a = some n → Spec S (f n) s R) : Spec S (deref (some a) >>= f) s R := by
  intro hg
  obtain ⟨n,hn⟩ := hg.live a ha
  exact Ends.bind_eq (deref_ok hn) (hf n hn hg)

end Spec

/-- The colour of a possibly null pointer. -/
lemma color_ok {p : Ptr} (h : ∀ a, p = some a → ∃ n, s.heap.get? a = some n) :
    color p s = .ok (p.elim .black s.graph.color,s) := by
  cases p with
  | none => rfl
  | some a =>
    obtain ⟨n,hn⟩ := h a rfl
    refine (bind_run (deref_ok hn)).trans ?_
    rw [Option.elim_some, graph_color hn]
    rfl

theorem Spec.bind_color {f : Color → M T V β} {R : β → State T V → Prop} {p : Ptr}
    (hp : ∀ a, p = some a → a ∈ S) (hf : Spec S (f (p.elim .black s.graph.color)) s R) :
    Spec S (color p >>= f) s R := fun hg =>
  Ends.bind_eq (color_ok fun a ha => hg.live a (hp a ha)) (hf hg)

/-- Overwriting the colour or the parent link of a node. -/
lemma Step.put {a : ℕ} {n m : RbNode T V} (hn : s.heap.get? a = some n) (ha : a ∈ S)
    (hv : m.value = n.value) (hd : m.augment = n.augment) (hc : ∀ d, m.child d = n.child d) :
    Step S s (s.put a m) where
  frame b hb := by rw [put_get hn, if_neg (by rintro rfl; exact hb ha)]
  value b _ := by
    rw [put_value hn]; split
    · next h => rw [h, graph_value hn, hv]
    · rfl
  clean b _ v hbv := by
    rw [put_aug hn] at hbv
    constructor
    · split at hbv
      · next h => rw [h, aug_eq hn, ← hd, hbv]
      · exact hbv
    · funext d
      rw [put_child hn]; split
      · next h => rw [h, graph_child hn, hc]
      · rfl
  length := put_length s a m

/-- A node may get a new parent among `S` that is dirty if the node is. -/
lemma GoodBut.put {p : Ptr} {a : ℕ} {n m : RbNode T V} (hg : GoodBut S p s)
    (hn : s.heap.get? a = some n) (hd : m.augment = n.augment)
    (hp : ∀ b, m.parent = some b → b ∈ S ∧ (n.augment = none → s.heap.aug b = none ∨ p = some b)) :
    GoodBut S p (s.put a m) := by
  have haug : ∀ b, (s.put a m).heap.aug b = s.heap.aug b := fun b => by
    rw [put_aug hn]; split
    · next h => rw [h, aug_eq hn, hd]
    · rfl
  refine ⟨fun b hb => ?_,fun b hb e he => ?_,fun b hb e he hbd => ?_,hg.stops⟩
  · rw [put_get hn]; split
    · exact ⟨m,rfl⟩
    · exact hg.live b hb
  · rw [put_parent hn] at he
    split at he
    · exact (hp e he).1
    · exact hg.parent b hb e he
  · rw [put_parent hn] at he
    rw [haug] at hbd ⊢
    split at he
    · next h => exact (hp e he).2 (by rw [← aug_eq hn, ← h, hbd])
    · exact hg.closed b hb e he hbd

/-- Painting a node. -/
theorem Spec.setColor {a : ℕ} (ha : a ∈ S) (c : Color) :
    Spec S (setColor (some a) c : M T V Unit) s fun _ s' => s'.graph = s.graph.setColor a c := by
  intro hg
  obtain ⟨n,hn⟩ := hg.live a ha
  refine ⟨(),_,write_ok hn _,Step.put hn ha rfl rfl fun d => by cases d <;> rfl,
    hg.put hn rfl fun b hb => ?_,?_⟩
  · rw [← aug_eq hn]
    have hab := (graph_parent hn).trans hb
    exact ⟨hg.parent a ha b hab,hg.closed a ha b hab⟩
  · exact graph_put_color hn c

/-- The number of nodes that are not dirty. -/
def Heap.cleanCount (h : Heap T V) : ℕ :=
  h.cells.countP fun c => (c.bind (·.augment)).isSome

lemma Heap.cleanCount_le (h : Heap T V) : h.cleanCount ≤ h.cells.length := List.countP_le_length

/-- Marking a clean node leaves one clean node less. -/
lemma Heap.cleanCount_set {h : Heap T V} {a : ℕ} {n : RbNode T V} (hn : h.get? a = some n)
    (hc : n.augment.isSome) : (h.set a { n with augment := none }).cleanCount+1 = h.cleanCount := by
  have hlt := lt_of_get? hn
  have hcell : h.cells[a] = some n := by simpa [get?, List.getElem?_eq_getElem hlt] using hn
  have hpos : 0 < h.cells.countP fun c => (c.bind (·.augment)).isSome :=
    List.countP_pos_iff.mpr ⟨some n,hcell ▸ List.getElem_mem hlt,by simpa using hc⟩
  simp only [cleanCount, set]
  rw [List.countP_set hlt]
  simp [hcell, hc]
  omega

/-- What `markDirty` leaves alone: everything but augment fields of nodes in `S`. -/
structure Marks (S : Set ℕ) (s s' : State T V) : Prop where
  graph : s'.graph = s.graph
  frame : ∀ a ∉ S, s'.heap.get? a = s.heap.get? a
  clean : ∀ a v, s'.heap.aug a = some v → s.heap.aug a = some v
  length : s'.heap.cells.length = s.heap.cells.length

lemma Marks.trans (h : Marks S s s') (h' : Marks S s' s'') : Marks S s s'' where
  graph := h'.graph.trans h.graph
  frame a ha := (h'.frame a ha).trans (h.frame a ha)
  clean a v hv := h.clean a v (h'.clean a v hv)
  length := h'.length.trans h.length

/-- Clearing the augment field of one node. -/
lemma Marks.put {a : ℕ} {n : RbNode T V} (hn : s.heap.get? a = some n) (ha : a ∈ S) :
    Marks S s (s.put a { n with augment := none }) where
  graph := graph_put_augment hn none
  frame b hb := by rw [put_get hn, if_neg (by rintro rfl; exact hb ha)]
  clean b v hv := by
    rw [put_aug hn] at hv
    split at hv
    · simp at hv
    · exact hv
  length := put_length _ _ _

/-- The walk of `markDirty`. Each round makes one clean node dirty and moves the only possible
clean parent of a dirty node one link up. -/
lemma markDirtyLoop_ends (fuel : ℕ) (p : Ptr) (s : State T V) (hg : GoodBut S p s)
    (hp : ∀ a, p = some a → a ∈ S) (hf : s.heap.cleanCount < fuel) :
    Ends (markDirtyLoop fuel p) s fun _ s' =>
      Marks S s s' ∧ Good S s' ∧ ∀ a, p = some a → s'.heap.aug a = none := by
  induction fuel generalizing p s with
  | zero => omega
  | succ fuel ih =>
    cases p with
    | none => exact ⟨(),s,rfl,⟨rfl,fun _ _ => rfl,fun _ _ h => h,rfl⟩,hg,by simp⟩
    | some a =>
      have ha := hp a rfl
      obtain ⟨n,hn⟩ := hg.live a ha
      refine Ends.bind_eq (deref_ok hn) ?_
      by_cases hd : n.augment.isNone
      · have haug : s.heap.aug a = none := (aug_eq hn).trans (by simpa using hd)
        have hgood : Good S s := hg.good (by rintro b ⟨⟩; exact haug)
        rw [if_pos hd]
        refine ⟨(),_,rfl,⟨rfl,fun _ _ => rfl,fun _ _ h => h,rfl⟩,
          ⟨hgood.live,hgood.parent,hgood.closed,?_⟩,by rintro b ⟨⟩; exact haug⟩
        intro e he
        rcases List.mem_cons.mp he with rfl | he
        · exact hgood.dirtyUp ha haug
        · exact hgood.stops e he
      · rw [if_neg hd]
        refine Ends.bind_eq (write_ok hn _) ?_
        have hm := Marks.put (S := S) hn ha
        have hc := Heap.cleanCount_set hn (by simpa [Option.isNone_iff_eq_none, Option.isSome_iff_ne_none] using hd)
        have hg' : GoodBut S n.parent (s.put a { n with augment := none }) := by
          refine ⟨fun b hb => ?_,fun b hb e he => hg.parent b hb e (hm.graph ▸ he),
            fun b hb e he hbd => ?_,hg.stops⟩
          · rw [put_get hn]; split
            · exact ⟨_,rfl⟩
            · exact hg.live b hb
          · rw [hm.graph] at he
            rw [put_aug hn] at hbd ⊢
            by_cases hea : e = a
            · simp [hea]
            · rw [if_neg hea]
              split at hbd
              · next h => right; rw [← graph_parent hn, ← h, he]
              · have := hg.closed b hb e he hbd
                simp only [Option.some.injEq] at this
                tauto
        refine (ih n.parent _ hg' ?_ ?_).mono ?_
        · intro b hb
          exact hg.parent a ha b ((graph_parent hn).trans hb)
        · change (s.heap.set a _).cleanCount < fuel
          omega
        · rintro _ s' ⟨h1,h2,h3⟩
          refine ⟨hm.trans h1,h2,?_⟩
          rintro b ⟨⟩
          cases hb : s'.heap.aug a with
          | none => rfl
          | some v =>
            have := h1.clean a v hb
            rw [put_aug hn, if_pos rfl] at this
            simp at this

/-- `markDirty` ends with the whole chain of parents dirty. -/
theorem markDirty_ends {p : Ptr} (hg : GoodBut S p s) (hp : ∀ a, p = some a → a ∈ S) :
    Ends (markDirty p) s fun _ s' =>
      Marks S s s' ∧ Good S s' ∧ ∀ a, p = some a → s'.heap.aug a = none := by
  refine Ends.bind_get (markDirtyLoop_ends _ p s hg hp ?_)
  have := s.heap.cleanCount_le
  simp only [Heap.bound]
  omega


/-- Relinking a child: the child pointer, the dirty marks and the parent link. -/
theorem Spec.setChild {a : ℕ} (ha : a ∈ S) (d : Direction) {p : Ptr} (hp : ∀ b, p = some b → b ∈ S) :
    Spec S (setChild (some a) d p : M T V Unit) s fun _ s' => s'.graph = s.graph.setChild a d p := by
  intro hg
  obtain ⟨n,hn⟩ := hg.live a ha
  refine Ends.bind_eq (write_ok hn _) ?_
  have hg1 : Good S (s.put a (n.withChild d p)) := by
    refine hg.put hn (by simp) fun b hb => ?_
    rw [← aug_eq hn]
    have hab : s.graph.parent a = some b := (graph_parent hn).trans (by simpa using hb)
    exact ⟨hg.parent a ha b hab,hg.closed a ha b hab⟩
  refine (markDirty_ends (p := some a) (hg1.but _) (by rintro b ⟨⟩; exact ha)).bind ?_
  rintro _ s2 ⟨hm,hg2,hda⟩
  have hda : s2.heap.aug a = none := hda a rfl
  -- a node that is still clean is not `a`, so its children are the old ones
  have hstep : Step S s s2 := by
    refine ⟨fun b hb => ?_,fun b _ => ?_,fun b _ v hv => ?_,?_⟩
    · rw [hm.frame b hb, put_get hn, if_neg (by rintro rfl; exact hb ha)]
    · rw [hm.graph, put_value hn]; split
      · next h => rw [h, graph_value hn, withChild_value]
      · rfl
    · have hba : b ≠ a := by rintro rfl; simp [hda] at hv
      have := hm.clean b v hv
      rw [put_aug hn, if_neg hba] at this
      refine ⟨this,?_⟩
      funext e
      rw [hm.graph, put_child hn, if_neg hba]
    · rw [hm.length, put_length]
  have hgr : s2.graph = s.graph.setLink a d p := hm.graph.trans (graph_put_child hn d p)
  cases p with
  | none =>
    refine ⟨(),s2,rfl,hstep,hg2,hgr.trans ?_⟩
    simp [PtrGraph.setChild, PtrGraph.setParent]
  | some b =>
    have hb := hp b rfl
    obtain ⟨m,hmb⟩ := hg2.live b hb
    refine ⟨(),_,write_ok hmb _,
      hstep.trans (Step.put hmb hb rfl rfl fun e => by cases e <;> rfl),hg2.put hmb rfl ?_,?_⟩
    · rintro e ⟨⟩
      exact ⟨ha,fun _ => Or.inl hda⟩
    · refine (graph_put_parent hmb (some a)).trans ?_
      rw [hgr]
      rfl

/-- Relinking the head: the head pointer and the parent link of the new root. -/
theorem Spec.setRoot {p : Ptr} (hp : ∀ b, p = some b → b ∈ S) :
    Spec S (do
      setHead p
      if p.isSome then write p ({ · with parent := none }) : M T V Unit) s fun _ s' =>
      s'.graph = s.graph.setHole [] p := by
  intro hg
  have hh : ∀ q : Ptr, Good S { s with head := q } :=
    fun q => ⟨hg.live,hg.parent,hg.closed,hg.stops⟩
  have hstep : ∀ q : Ptr, Step S s { s with head := q } :=
    fun q => ⟨fun _ _ => rfl,fun _ _ => rfl,fun _ _ _ h => ⟨h,rfl⟩,rfl⟩
  refine Ends.bind_eq (show setHead p s = .ok ((),{ s with head := p }) from rfl) ?_
  cases p with
  | none =>
    refine ⟨(),_,rfl,hstep none,hh none,?_⟩
    simp [setHole, PtrGraph.setParent, RbTree.graph]
  | some b =>
    have hb := hp b rfl
    obtain ⟨m,hm⟩ := hg.live b hb
    have hm' : ({ s with head := some b } : State T V).heap.get? b = some m := hm
    refine ⟨(),_,write_ok hm' _,
      (hstep (some b)).trans (Step.put hm' hb rfl rfl fun e => by cases e <;> rfl),
      (hh (some b)).put hm' rfl (by simp),?_⟩
    exact graph_put_parent hm' none

end Lilith.Rbtree
