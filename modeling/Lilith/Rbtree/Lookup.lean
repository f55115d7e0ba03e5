import Lilith.Rbtree.Reach
import Lilith.Theory.Spans

/-! Reading a valid tree: searches, the lowest node, successors. Each walk over pointers gives what
the in-order list of the nodes says. -/
namespace Lilith.Rbtree
open Theory PtrGraph CTree

variable {T V : Type} {tr : RbTree T V}

/-- The values of a tree in order. -/
def values (t : CTree (ℕ × T)) : List T := t.toList.map Prod.snd

/-- The fields of the node in the hole. -/
lemma Focus.node_fields {k : Ctx (ℕ × T)} {c : Color} {l r : CTree (ℕ × T)} {x : ℕ × T}
    (h : tr.graph.Focus k (node c l x r)) : ∃ n, tr.heap.get? x.1 = some n ∧ n.value = x.2 ∧
      n.parent = k.above ∧ n.left = l.ptr ∧ n.right = r.ptr := by
  obtain ⟨_,hp,_,hv,hl,hr⟩ := h.tree
  obtain ⟨n,hn,hnv⟩ := graph_value_some (s := { tr with }) hv
  refine ⟨n,hn,hnv,?_,?_,?_⟩
  · rw [← hp]; exact (graph_parent (s := { tr with }) hn).symm
  · rw [← hl.ptr_eq]; exact (graph_left (s := { tr with }) hn).symm
  · rw [← hr.ptr_eq]; exact (graph_right (s := { tr with }) hn).symm

lemma Focus.size_le_heap {k : Ctx (ℕ × T)} {t : CTree (ℕ × T)} (h : tr.graph.Focus k t) :
    k.length + t.size ≤ tr.heap.cells.length :=
  (Ctx.length_le_size_fill k t).trans (Focus.size_le (s := { tr with }) h.to_root)

lemma deref_eq {h : Heap T V} {a : ℕ} {n : RbNode T V} (hn : h.get? a = some n) :
    h.deref (some a) = .ok n := by simp [Heap.deref, hn]

/-- Walking up from a subtree ends at the first node after it. -/
lemma ascend_ok (fuel : ℕ) (k : Ctx (ℕ × T)) (u : CTree (ℕ × T)) (a : ℕ)
    (h : tr.graph.Focus k u) (ha : u.ptr = some a) (hf : k.length < fuel) :
    tr.heap.ascend fuel (some a) = .ok (k.after.head?.map Prod.fst) := by
  induction fuel generalizing k u a with
  | zero => omega
  | succ fuel ih =>
    obtain ⟨c,l,x,r,rfl⟩ : ∃ c l x r, u = node c l x r := by
      cases u with
      | leaf => simp at ha
      | node c l x r => exact ⟨c,l,x,r,rfl⟩
    obtain rfl : x.1 = a := by simpa using ha
    obtain ⟨n,hn,_,hp,_,_⟩ := Focus.node_fields h
    unfold Heap.ascend
    cases k with
    | nil =>
      simp only [deref_eq hn, hp, bind, Except.bind]
      rfl
    | cons f k =>
      obtain ⟨d,fc,fx,fo⟩ := f
      have hup : tr.graph.Focus k (join d fc (node c l x r) fx fo) := (focus_cons _ _ _ _ _ _).mpr h
      cases d with
      | left =>
        obtain ⟨m,hm,_,_,hml,_⟩ := Focus.node_fields hup
        simp only [deref_eq hn, hp, bind, Except.bind, Ctx.above_cons, Option.isNone_some,
          Bool.false_eq_true, if_false, deref_eq hm, hml, ptr_node, if_true]
        rfl
      | right =>
        obtain ⟨m,hm,_,_,hml,_⟩ := Focus.node_fields hup
        have hne : fo.ptr ≠ some x.1 := fun he =>
          h.not_mem x.1 (by simp) (by simp [mem_ids_of_ptr he])
        simp only [deref_eq hn, hp, bind, Except.bind, Ctx.above_cons, Option.isNone_some,
          Bool.false_eq_true, if_false, deref_eq hm, hml, if_neg hne]
        rw [List.length_cons] at hf
        exact ih k _ fx.1 hup (by simp) (by omega)

/-- In a list of distinct nodes a node has one place. -/
lemma split_unique {xs ys xs' ys' : List (ℕ × T)} {x : ℕ × T}
    (hn : ((xs ++ x::ys).map Prod.fst).Nodup) (he : xs ++ x::ys = xs' ++ x::ys') :
    xs = xs' ∧ ys = ys' := by
  induction xs generalizing xs' with
  | nil =>
    cases xs' with
    | nil => simpa using he
    | cons z zs =>
      obtain ⟨rfl,rfl⟩ := List.cons.inj he
      simp at hn
  | cons z zs ih =>
    cases xs' with
    | nil =>
      obtain ⟨rfl,rfl⟩ := List.cons.inj he
      simp at hn
    | cons w ws =>
      obtain ⟨rfl,he'⟩ := List.cons.inj he
      obtain ⟨rfl,rfl⟩ := ih (List.nodup_cons.mp hn).2 he'
      exact ⟨rfl,rfl⟩

section Search
variable [Augment T V] {t : CTree (ℕ × T)}

/-- A node of a valid tree, with its value and its augment value. -/
lemma RbTree.Valid.node_of_mem (hv : tr.Valid t) {x : ℕ × T} (hx : x ∈ t.toList) :
    ∃ n v, tr.heap.get? x.1 = some n ∧ n.value = x.2 ∧ n.expectAugment = .ok v ∧
      tr.heap.aug x.1 = some v := by
  obtain ⟨k,c,l,r,rfl⟩ := Ctx.exists_fill_of_mem hx
  obtain ⟨n,hn,hnv,_⟩ := Focus.node_fields (Focus.of_root hv.focus)
  obtain ⟨v,hv'⟩ := (Augmented.of_fill hv.augmented).isSome x.1 (by simp)
  have haug : n.augment = some v := by rw [← hv']; simp [Heap.aug, hn]
  exact ⟨n,v,hn,hnv,by simp [RbNode.expectAugment, haug],hv'⟩

lemma RbTree.Valid.lt_bound (hv : tr.Valid t) : t.size < tr.heap.bound := by
  have := Focus.size_le_heap hv.focus
  simp only [List.length_nil, Heap.bound] at this ⊢
  omega

/-- The search of `find_raw` in a subtree. -/
lemma findLoop_ok (eval : T → V → Ordering) (ord : ℕ × T → Ordering) (hv : tr.Valid t)
    (ho : ∀ x ∈ t.toList, ∀ v, tr.heap.aug x.1 = some v → eval x.2 v = ord x) (fuel : ℕ)
    (k : Ctx (ℕ × T)) (u : CTree (ℕ × T)) (hk : k.fill u = t) (hf : u.size < fuel) :
    tr.heap.findLoop eval fuel u.ptr = .ok ((u.search ord).map Prod.fst) := by
  induction fuel generalizing k u with
  | zero => omega
  | succ fuel ih =>
    cases u with
    | leaf => rfl
    | node c l x r =>
      have hfoc : tr.graph.Focus k (node c l x r) := Focus.of_root (hk ▸ hv.focus)
      have hx : x ∈ t.toList := by rw [← hk, Ctx.mem_fill]; simp
      obtain ⟨n,v,hn,hnv,haug,hav⟩ := hv.node_of_mem hx
      obtain ⟨n',hn',_,_,hl,hr⟩ := Focus.node_fields hfoc
      obtain rfl : n' = n := Option.some.inj (hn'.symm.trans hn)
      have heval : eval n'.value v = ord x := by rw [hnv]; exact ho x hx v hav
      simp only [CTree.size] at hf
      rw [ptr_node, CTree.search]
      simp only [Heap.findLoop, deref_eq hn, haug, heval, hl, hr, bind, Except.bind]
      cases ord x with
      | gt => exact ih (⟨.left,c,x,r⟩::k) l hk (by omega)
      | eq => rfl
      | lt => exact ih (⟨.right,c,x,l⟩::k) r hk (by omega)

/-- `find_raw` on a valid tree. -/
theorem RbTree.Valid.findRaw (hv : tr.Valid t) {eval : T → V → Ordering} {ord : ℕ × T → Ordering}
    (ho : ∀ x ∈ t.toList, ∀ v, tr.heap.aug x.1 = some v → eval x.2 v = ord x) :
    tr.findRaw eval = .ok ((t.search ord).map Prod.fst) := by
  have hhead : tr.head = t.ptr := hv.focus.hole_eq
  unfold RbTree.findRaw
  rw [hhead]
  exact findLoop_ok eval ord hv ho _ [] t rfl hv.lt_bound

/-- The search of `lower_bound_raw` in a subtree. -/
lemma lowerBoundLoop_ok (eval : T → V → Bool) (p : ℕ × T → Bool) (hv : tr.Valid t)
    (ho : ∀ x ∈ t.toList, ∀ v, tr.heap.aug x.1 = some v → eval x.2 v = p x) (fuel : ℕ)
    (k : Ctx (ℕ × T)) (u : CTree (ℕ × T)) (candidate : Option (ℕ × T)) (hk : k.fill u = t)
    (hf : u.size < fuel) : tr.heap.lowerBoundLoop eval fuel (candidate.map Prod.fst) u.ptr =
      .ok ((u.lowerBound p candidate).map Prod.fst) := by
  induction fuel generalizing k u candidate with
  | zero => omega
  | succ fuel ih =>
    cases u with
    | leaf => rfl
    | node c l x r =>
      have hfoc : tr.graph.Focus k (node c l x r) := Focus.of_root (hk ▸ hv.focus)
      have hx : x ∈ t.toList := by rw [← hk, Ctx.mem_fill]; simp
      obtain ⟨n,v,hn,hnv,haug,hav⟩ := hv.node_of_mem hx
      obtain ⟨n',hn',_,_,hl,hr⟩ := Focus.node_fields hfoc
      obtain rfl : n' = n := Option.some.inj (hn'.symm.trans hn)
      have heval : eval n'.value v = p x := by rw [hnv]; exact ho x hx v hav
      have hrun : tr.heap.lowerBoundLoop eval (fuel+1) (candidate.map Prod.fst) (some x.1) =
          if p x then tr.heap.lowerBoundLoop eval fuel (some x.1) l.ptr
          else tr.heap.lowerBoundLoop eval fuel (candidate.map Prod.fst) r.ptr := by
        simp only [Heap.lowerBoundLoop, deref_eq hn, haug, heval, hl, hr, bind, Except.bind]
      simp only [CTree.size] at hf
      rw [ptr_node, hrun, CTree.lowerBound]
      split
      · exact ih (⟨.left,c,x,r⟩::k) l (some x) hk (by omega)
      · exact ih (⟨.right,c,x,l⟩::k) r candidate hk (by omega)

/-- `lower_bound_raw` finds the first node in order that satisfies an upward closed predicate. -/
theorem RbTree.Valid.lowerBoundRaw (hv : tr.Valid t) {eval : T → V → Bool} {p : ℕ × T → Bool}
    (ho : ∀ x ∈ t.toList, ∀ v, tr.heap.aug x.1 = some v → eval x.2 v = p x)
    (hu : Upward p t.toList) : tr.lowerBoundRaw eval = .ok ((t.toList.find? p).map Prod.fst) := by
  have hhead : tr.head = t.ptr := hv.focus.hole_eq
  have hloop := lowerBoundLoop_ok eval p hv ho _ [] t none rfl hv.lt_bound
  rw [lowerBound_eq hu, Option.or_none, Option.map_none] at hloop
  unfold RbTree.lowerBoundRaw
  rw [hhead]
  exact hloop

/-- What `lower_bound_raw` finds satisfies the predicate, in any order of the nodes. -/
lemma RbTree.Valid.lowerBoundRaw_sound (hv : tr.Valid t) (eval : T → V → Bool) (p : ℕ × T → Bool)
    (ho : ∀ x ∈ t.toList, ∀ v, tr.heap.aug x.1 = some v → eval x.2 v = p x) :
    tr.lowerBoundRaw eval = .ok none ∨ ∃ x ∈ t.toList, tr.lowerBoundRaw eval = .ok (some x.1) ∧ p x = true := by
  have hhead : tr.head = t.ptr := hv.focus.hole_eq
  have hloop := lowerBoundLoop_ok eval p hv ho _ [] t none rfl hv.lt_bound
  unfold RbTree.lowerBoundRaw
  rw [hhead]
  cases hf : t.lowerBound p none with
  | none =>
    rw [hf] at hloop
    exact Or.inl hloop
  | some x =>
    rw [hf] at hloop
    rcases lowerBound_sound hf with hx | ⟨hx,hp⟩
    · simp at hx
    · exact Or.inr ⟨x,hx,hloop,hp⟩

/-- The lowest node is the first one in order. -/
theorem RbTree.Valid.lowestNodeRaw (hv : tr.Valid t) :
    tr.lowestNodeRaw = .ok (t.toList.head?.map Prod.fst) := by
  have hhead : tr.head = t.ptr := hv.focus.hole_eq
  unfold RbTree.lowestNodeRaw
  cases t with
  | leaf => rw [hhead]; rfl
  | node c l x r =>
    obtain ⟨k,c',y,u,h1,h2,h3⟩ := leftmost_ok (s := { tr with }) tr.heap.bound (node c l x r) none
      tr.head hv.focus.tree (by simp) hv.lt_bound
    rw [if_neg (by rw [hhead]; simp)]
    refine h1.trans ?_
    rw [h2, Ctx.toList_fill, Ctx.before_of_left h3]
    simp [join]

omit [Augment T V] in
/-- The successor of a node is the next one in order. -/
lemma Focus.successor (hv : tr.graph.Focus [] t) {before after : List (ℕ × T)} {x : ℕ × T}
    (ht : t.toList = before ++ x::after) :
    tr.heap.successor (some x.1) = .ok (after.head?.map Prod.fst) := by
  obtain ⟨k,c,l,r,rfl⟩ := Ctx.exists_fill_of_mem (show x ∈ t.toList by simp [ht])
  have hfoc : tr.graph.Focus k (node c l x r) := Focus.of_root hv
  have hlist : (k.before ++ l.toList) ++ x::(r.toList ++ k.after) = before ++ x::after := by
    rw [← ht, Ctx.toList_fill]; simp
  have hnd := hv.nodup_tree
  obtain ⟨_,rfl⟩ := split_unique (by rw [hlist, ← ht]; exact hnd) hlist
  obtain ⟨n,hn,_,_,_,hr⟩ := Focus.node_fields hfoc
  have hsz := Focus.size_le_heap hfoc
  unfold Heap.successor
  simp only [deref_eq hn, hr, bind, Except.bind]
  cases hrc : r with
  | leaf =>
    rw [hrc] at hfoc
    simp only [ptr_leaf, Option.isNone_none, if_true, toList_leaf, List.nil_append]
    exact ascend_ok _ k _ x.1 hfoc rfl (by simp only [Heap.bound]; omega)
  | node rc rl rx rr =>
    rw [hrc] at hfoc
    simp only [ptr_node, Option.isNone_some, Bool.false_eq_true, if_false]
    obtain ⟨k',c',y,u,h1,h2,h3⟩ := successorChild_ok (s := { tr with }) hfoc (by simp)
    have hsucc : tr.heap.successorChild (some x.1) = .ok (some y.1) := by
      unfold Rbtree.successorChild at h1
      cases hs : tr.heap.successorChild (some x.1) with
      | error f => rw [hs] at h1; simp [Except.map] at h1
      | ok p => rw [hs] at h1; simpa [Except.map] using h1
    rw [hsucc, h2, Ctx.toList_fill, Ctx.before_of_left h3]
    simp [join]

theorem RbTree.Valid.successor (hv : tr.Valid t) {before after : List (ℕ × T)} {x : ℕ × T}
    (ht : t.toList = before ++ x::after) :
    tr.heap.successor (some x.1) = .ok (after.head?.map Prod.fst) := Focus.successor hv.focus ht

/-- What a search says about a node, of its value and its augment value. -/
def RbTree.answer {α : Type} (tr : RbTree T V) (eval : T → V → α) (x : ℕ × T) : Option α := (tr.heap.aug x.1).map (eval x.2)

omit [Augment T V] in
lemma answer_eq {α : Type} {eval : T → V → α} {x : ℕ × T} {v : V} (hv : tr.heap.aug x.1 = some v) (d : α) :
    eval x.2 v = (tr.answer eval x).getD d := by
  rw [RbTree.answer, hv]
  rfl

/-- The searches give what the in-order list says: `lower_bound_raw` the first node that satisfies a predicate that is
false at first and true from there on, and `find_raw` one of the nodes that are evaluated as equal, if there is one. -/
theorem searches_in_order (hv : tr.Valid t) :
    (∀ (eval : T → V → Bool) (xs ys : List (ℕ × T)), t.toList = xs ++ ys → (∀ x ∈ xs, tr.answer eval x = some false) →
      (∀ y ∈ ys, tr.answer eval y = some true) → tr.lowerBoundRaw eval = .ok (ys.head?.map Prod.fst)) ∧
    ∀ (eval : T → V → Ordering) (xs ys zs : List (ℕ × T)), t.toList = xs ++ ys ++ zs →
      (∀ x ∈ xs, tr.answer eval x = some .lt) → (∀ y ∈ ys, tr.answer eval y = some .eq) →
      (∀ z ∈ zs, tr.answer eval z = some .gt) →
      (ys = [] → tr.findRaw eval = .ok none) ∧ (ys ≠ [] → ∃ y ∈ ys, tr.findRaw eval = .ok (some y.1)) := by
  constructor
  · intro eval xs ys ht hx hy
    have hxp : ∀ x ∈ xs, (tr.answer eval x).getD false = false := fun x hm => by rw [hx x hm]; rfl
    have hyp : ∀ y ∈ ys, (tr.answer eval y).getD false = true := fun y hm => by rw [hy y hm]; rfl
    have hu : Upward (fun x => (tr.answer eval x).getD false) t.toList := ht ▸ Upward.of_append hxp hyp
    rw [hv.lowerBoundRaw (fun x _ v hav => answer_eq hav false) hu, ht, List.find?_append,
      List.find?_eq_none.mpr fun x hm => by simp [hxp x hm]]
    cases ys with
    | nil => rfl
    | cons y ys =>
      rw [Option.none_or, List.find?_cons, hyp y List.mem_cons_self]
      rfl
  · intro eval xs ys zs ht hx hy hz
    have hxo : ∀ x ∈ xs, (tr.answer eval x).getD .lt = .lt := fun x hm => by rw [hx x hm]; rfl
    have hyo : ∀ y ∈ ys, (tr.answer eval y).getD .lt = .eq := fun y hm => by rw [hy y hm]; rfl
    have hzo : ∀ z ∈ zs, (tr.answer eval z).getD .lt = .gt := fun z hm => by rw [hz z hm]; rfl
    have hb : Banded (fun x => (tr.answer eval x).getD .lt) t.toList := ht ▸ Banded.of_append hxo hyo hzo
    have hfind := hv.findRaw fun x _ v hav => (answer_eq hav .lt : eval x.2 v = _)
    constructor
    · rintro rfl
      rw [hfind, (search_eq_none_iff hb).mpr fun x hm he => ?_]
      · rfl
      · rw [ht, List.append_nil, List.mem_append] at hm
        rcases hm with hm | hm
        · rw [hxo x hm] at he
          simp at he
        · rw [hzo x hm] at he
          simp at he
    · intro hne
      obtain ⟨y,hym⟩ := List.exists_mem_of_ne_nil ys hne
      cases hs : t.search fun x => (tr.answer eval x).getD .lt with
      | none => exact absurd (hyo y hym) ((search_eq_none_iff hb).mp hs y (by simp [ht, hym]))
      | some w =>
        obtain ⟨hw,heq⟩ := search_some hs
        refine ⟨w,?_,by rw [hfind, hs]; rfl⟩
        rw [ht, List.mem_append, List.mem_append] at hw
        rcases hw with (hw | hw) | hw
        · rw [hxo w hw] at heq
          simp at heq
        · exact hw
        · rw [hzo w hw] at heq
          simp at heq

end Search

/-- Three nodes, two of which have the same value. -/
def threeNodes : RbTree ℕ Unit := ⟨⟨[some ⟨.black,none,some 1,some 2,5,some ()⟩,some ⟨.red,some 0,none,none,5,some ()⟩,
  some ⟨.red,some 0,none,none,9,some ()⟩]⟩,some 0⟩

lemma threeNodes_valid : threeNodes.Valid (node .black (node .red leaf (1,5) leaf) (0,5) (node .red leaf (2,9) leaf)) :=
  ⟨⟨trivial,⟨rfl,rfl,rfl,rfl,⟨rfl,rfl,rfl,rfl,rfl,rfl⟩,rfl,rfl,rfl,rfl,rfl,rfl⟩,by decide⟩,
    ⟨1,0,rfl,⟨rfl,rfl,rfl,rfl⟩,rfl,rfl,rfl,rfl⟩,⟨trivial,trivial,(),rfl,rfl⟩,⟨trivial,trivial,(),rfl,rfl⟩,(),rfl,rfl⟩

theorem searches_three : threeNodes.lowerBoundRaw (fun v _ => decide (5 ≤ v)) = .ok (some 1) ∧
    ∃ y ∈ [(1,5),(0,5)], threeNodes.findRaw (fun v _ => compare v 5) = .ok (some y.1) :=
  ⟨(searches_in_order threeNodes_valid).1 (fun v _ => decide (5 ≤ v)) [] [(1,5),(0,5),(2,9)] rfl (by simp) (by decide),
    ((searches_in_order threeNodes_valid).2 (fun v _ => compare v 5) [] [(1,5),(0,5)] [(2,9)] rfl (by simp) (by decide)
      (by decide)).2 (by simp)⟩

end Lilith.Rbtree
