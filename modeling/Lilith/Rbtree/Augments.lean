import Lilith.Rbtree.Remove

/-! The augment values. `augOf` recomputes the value of a tree bottom-up. During an operation the
clean nodes of a tree still have the values of their unchanged subtrees and the dirty ones are
closed upwards (`Pending`); `updateAugments` visits exactly the dirty ones and ends with every
node holding the recomputed value (`Augmented`). -/
namespace Lilith.Rbtree
open Theory PtrGraph CTree

variable {T V : Type} {S : Set ℕ} {s s' : State T V}

section Defs
variable [Augment T V]

/-- The augment value of a tree, recomputed bottom-up. -/
def augOf : CTree (ℕ × T) → Except Fault (Option V)
  | leaf => .ok none
  | node _ l x r => do
    let left ← augOf l
    let right ← augOf r
    let v ← Augment.augment x.2 left right
    return some v

/-- Every node has the augment value computed from its children. -/
def Augmented (h : Heap T V) : CTree (ℕ × T) → Prop
  | leaf => True
  | node _ l x r => Augmented h l ∧ Augmented h r ∧ ∃ v, h.aug x.1 = some v ∧
      Augment.augment x.2 (l.ptr.bind h.aug) (r.ptr.bind h.aug) = .ok v

/-- The dirty nodes form the top of the tree and everything below them has its value. -/
def Pending (h : Heap T V) : CTree (ℕ × T) → Prop
  | leaf => True
  | node c l x r => Augmented h (node c l x r) ∨ (h.aug x.1 = none ∧ Pending h l ∧ Pending h r)

/-- Every node has an augment value, which outside of `E` is the one computed from its children. -/
def AugmentedBut (E : Set ℕ) (h : Heap T V) : CTree (ℕ × T) → Prop
  | leaf => True
  | node _ l x r => AugmentedBut E h l ∧ AugmentedBut E h r ∧ ∃ v, h.aug x.1 = some v ∧
      (x.1 ∉ E → Augment.augment x.2 (l.ptr.bind h.aug) (r.ptr.bind h.aug) = .ok v)

/-- The same for the part of the tree below the dirty nodes. -/
def PendingBut (E : Set ℕ) (h : Heap T V) : CTree (ℕ × T) → Prop
  | leaf => True
  | node c l x r => AugmentedBut E h (node c l x r) ∨
      (h.aug x.1 = none ∧ PendingBut E h l ∧ PendingBut E h r)

/-- The value of a tree when only its dirty nodes are recomputed. -/
def augNow (h : Heap T V) : CTree (ℕ × T) → Except Fault (Option V)
  | leaf => .ok none
  | node _ l x r =>
    match h.aug x.1 with
    | some v => .ok (some v)
    | none => do
      let left ← augNow h l
      let right ← augNow h r
      let v ← Augment.augment x.2 left right
      return some v

end Defs

section Lemmas
variable [Augment T V] {E : Set ℕ} {h h' : Heap T V} {t : CTree (ℕ × T)}

lemma augmentedBut_empty : AugmentedBut ∅ h t ↔ Augmented h t := by
  induction t with
  | leaf => rfl
  | node c l x r ihl ihr => simp [AugmentedBut, Augmented, ihl, ihr]

lemma pendingBut_empty : PendingBut ∅ h t ↔ Pending h t := by
  induction t with
  | leaf => rfl
  | node c l x r ihl ihr => simp only [PendingBut, Pending, augmentedBut_empty, ihl, ihr]

lemma AugmentedBut.congr (ha : AugmentedBut E h t) (hh : ∀ i ∈ t.ids, h'.aug i = h.aug i) :
    AugmentedBut E h' t := by
  induction t with
  | leaf => trivial
  | node c l x r ihl ihr =>
    obtain ⟨hl,hr,v,hv,he⟩ := ha
    have hptr : ∀ u : CTree (ℕ × T), (∀ i ∈ u.ids, h'.aug i = h.aug i) →
        u.ptr.bind h'.aug = u.ptr.bind h.aug := by
      intro u hu
      cases u with
      | leaf => rfl
      | node uc ul y ur => exact hu y.1 (by simp)
    have hl' : ∀ i ∈ l.ids, h'.aug i = h.aug i := fun i hi => hh i (by simp [hi])
    have hr' : ∀ i ∈ r.ids, h'.aug i = h.aug i := fun i hi => hh i (by simp [hi])
    refine ⟨ihl hl hl',ihr hr hr',v,(hh x.1 (by simp)).trans hv,fun hx => ?_⟩
    rw [hptr l hl', hptr r hr', he hx]

lemma Augmented.congr (ha : Augmented h t) (hh : ∀ i ∈ t.ids, h'.aug i = h.aug i) :
    Augmented h' t :=
  augmentedBut_empty.mp ((augmentedBut_empty.mpr ha).congr hh)

lemma PendingBut.congr (hp : PendingBut E h t) (hh : ∀ i ∈ t.ids, h'.aug i = h.aug i) :
    PendingBut E h' t := by
  induction t with
  | leaf => trivial
  | node c l x r ihl ihr =>
    rcases hp with hp | ⟨hx,hl,hr⟩
    · exact Or.inl (hp.congr hh)
    · exact Or.inr ⟨(hh x.1 (by simp)).trans hx,ihl hl fun i hi => hh i (by simp [hi]),
        ihr hr fun i hi => hh i (by simp [hi])⟩

lemma augNow_congr (hh : ∀ i ∈ t.ids, h'.aug i = h.aug i) : augNow h' t = augNow h t := by
  induction t with
  | leaf => rfl
  | node c l x r ihl ihr =>
    simp only [augNow, hh x.1 (by simp), ihl fun i hi => hh i (by simp [hi]),
      ihr fun i hi => hh i (by simp [hi])]

/-- A clean root keeps its value. -/
lemma augNow_clean (hc : ∀ a, t.ptr = some a → h.aug a ≠ none) : augNow h t = .ok (t.ptr.bind h.aug) := by
  cases t with
  | leaf => rfl
  | node c l x r =>
    obtain ⟨v,hv⟩ := Option.ne_none_iff_exists'.mp (hc x.1 rfl)
    simp only [augNow, ptr_node, Option.bind_some, hv]

/-- A fault comes from the augmentation. -/
lemma augNow_error {f : Fault} (he : augNow h t = .error f) : ∃ x left right,
    Augment.augment (V := V) (x : T) left right = .error f := by
  induction t with
  | leaf => simp [augNow] at he
  | node c l x r ihl ihr =>
    simp only [augNow] at he
    split at he
    · simp at he
    · cases hl : augNow h l with
      | error g =>
        simp only [hl, bind, Except.bind] at he
        exact ihl (hl.trans he)
      | ok left =>
        cases hr : augNow h r with
        | error g =>
          simp only [hl, hr, bind, Except.bind] at he
          exact ihr (hr.trans he)
        | ok right =>
          cases hx : Augment.augment x.2 left right with
          | error g =>
            simp only [hl, hr, hx, bind, Except.bind] at he
            obtain rfl := Except.error.inj he
            exact ⟨x.2,left,right,hx⟩
          | ok v => simp [hl, hr, hx, bind, Except.bind, pure, Except.pure] at he

/-- Where every node has its value, the value of the root is the recomputed one. -/
lemma Augmented.augOf_eq (ha : Augmented h t) : augOf t = .ok (t.ptr.bind h.aug) := by
  induction t with
  | leaf => rfl
  | node c l x r ihl ihr =>
    obtain ⟨hl,hr,v,hv,he⟩ := ha
    simp only [augOf, ihl hl, ihr hr, he, ptr_node, Option.bind_some, hv, bind, Except.bind, pure,
      Except.pure]

lemma AugmentedBut.isSome (ha : AugmentedBut E h t) : ∀ i ∈ t.ids, h.aug i ≠ none := by
  induction t with
  | leaf => simp
  | node c l x r ihl ihr =>
    obtain ⟨hl,hr,v,hv,_⟩ := ha
    intro i hi
    simp only [ids_node, List.mem_append, List.mem_cons] at hi
    rcases hi with hi | rfl | hi
    · exact ihl hl i hi
    · simp [hv]
    · exact ihr hr i hi

lemma AugmentedBut.clean (ha : AugmentedBut E h t) : ∀ a, t.ptr = some a → h.aug a ≠ none :=
  fun a hp => ha.isSome a (mem_ids_of_ptr hp)

lemma Augmented.isSome (ha : Augmented h t) : ∀ i ∈ t.ids, ∃ v, h.aug i = some v := fun i hi =>
  Option.ne_none_iff_exists'.mp ((augmentedBut_empty.mpr ha).isSome i hi)

/-- The value of a subtree, wherever it hangs. -/
lemma Augmented.of_fill {k : Ctx (ℕ × T)} (ha : Augmented h (k.fill t)) : Augmented h t := by
  induction k generalizing t with
  | nil => exact ha
  | cons f k ih =>
    have hj := ih ha
    cases hd : f.dir with
    | left => rw [hd] at hj; exact hj.1
    | right => rw [hd] at hj; exact hj.2.1

/-- A clean root has its value, and so has everything below it. -/
lemma PendingBut.augmented (hp : PendingBut E h t) (hc : ∀ a, t.ptr = some a → h.aug a ≠ none) :
    AugmentedBut E h t := by
  cases t with
  | leaf => trivial
  | node c l x r => exact hp.elim id fun hd => absurd hd.1 (hc x.1 rfl)

/-- Where the clean nodes have their values, recomputing the dirty ones gives the value of the tree. -/
lemma Pending.augNow_eq (hp : Pending h t) : augNow h t = augOf t := by
  induction t with
  | leaf => rfl
  | node c l x r ihl ihr =>
    rcases hp with ha | ⟨hx,hl,hr⟩
    · rw [ha.augOf_eq, augNow_clean (augmentedBut_empty.mpr ha).clean]
    · simp only [augNow, augOf, hx, ihl hl, ihr hr]

end Lemmas

/-- What recomputing the augment values of the nodes `S` leaves alone. -/
structure Recomputed (S : Set ℕ) (s s' : State T V) : Prop where
  graph : s'.graph = s.graph
  frame : ∀ a ∉ S, s'.heap.get? a = s.heap.get? a
  length : s'.heap.cells.length = s.heap.cells.length
  stops : s'.stops = s.stops

lemma Recomputed.trans {s'' : State T V} (h : Recomputed S s s') (h' : Recomputed S s' s'') :
    Recomputed S s s'' where
  graph := h'.graph.trans h.graph
  frame a ha := (h'.frame a ha).trans (h.frame a ha)
  length := h'.length.trans h.length
  stops := h'.stops.trans h.stops

lemma Recomputed.mono {S' : Set ℕ} (h : Recomputed S s s') (hs : S ⊆ S') : Recomputed S' s s' :=
  ⟨h.graph,fun a ha => h.frame a fun hi => ha (hs hi),h.length,h.stops⟩

lemma Recomputed.aug (h : Recomputed S s s') {a : ℕ} (ha : a ∉ S) : s'.heap.aug a = s.heap.aug a := by
  simp [Heap.aug, h.frame a ha]

lemma isDirty_ok {p : Ptr} (h : ∀ a, p = some a → ∃ n, s.heap.get? a = some n) :
    isDirty p s = .ok (p.elim false fun a => (s.heap.aug a).isNone,s) := by
  cases p with
  | none => rfl
  | some a =>
    obtain ⟨n,hn⟩ := h a rfl
    refine (bind_run (deref_ok hn)).trans ?_
    rw [Option.elim_some, aug_eq hn]
    rfl

lemma childAugment_ok {p : Ptr} (h : ∀ a, p = some a → ∃ n, s.heap.get? a = some n) :
    childAugment p s = .ok (p.bind s.heap.aug,s) := by
  cases p with
  | none => rfl
  | some a =>
    obtain ⟨n,hn⟩ := h a rfl
    refine (bind_run (deref_ok hn)).trans ?_
    rw [Option.bind_some, aug_eq hn]
    rfl

lemma Repr.live {q p : Option ℕ} {t : CTree (ℕ × T)} (h : s.graph.Repr q p t) :
    ∀ a, t.ptr = some a → ∃ n, s.heap.get? a = some n := by
  intro a ha
  obtain ⟨x,hx,rfl⟩ := List.mem_map.mp (mem_ids_of_ptr ha)
  obtain ⟨n,hn,_⟩ := Repr.get h x hx
  exact ⟨n,hn⟩

/-- Continue the walk of `updateAugments` at the parent. -/
def climb [Augment T V] (fuel : ℕ) (p : Ptr) : M T V Unit :=
  if p.isNone then return () else updateAugmentsLoop fuel p

/-- From the root of `t`, the walk recomputes `t` in the given number of steps and goes on at the
parent, or ends in the fault of the augmentation. -/
def Recomputes [Augment T V] (E : Set ℕ) (k : Ctx (ℕ × T)) (t : CTree (ℕ × T)) (steps : ℕ) (s : State T V) :
    Prop :=
  match augNow s.heap t with
  | .error f => ∀ fuel, updateAugmentsLoop (fuel+steps) t.ptr s = .error f
  | .ok w => ∃ s', (∀ fuel, updateAugmentsLoop (fuel+steps) t.ptr s = climb fuel k.above s') ∧
      Recomputed {i | i ∈ t.ids} s s' ∧ AugmentedBut E s'.heap t ∧ t.ptr.bind s'.heap.aug = w

/-- The augment field of the root is missing. -/
def rootDirty (h : Heap T V) (t : CTree (ℕ × T)) : Bool := t.ptr.elim false fun a => (h.aug a).isNone

section Walk
variable [Augment T V] {E : Set ℕ} {k : Ctx (ℕ × T)} {c : Color} {l r : CTree (ℕ × T)} {x : ℕ × T}

lemma AugmentedBut.not_rootDirty {h : Heap T V} {t : CTree (ℕ × T)} (ha : AugmentedBut E h t) :
    rootDirty h t = false := by
  cases t with
  | leaf => rfl
  | node c l x r =>
    obtain ⟨_,_,v,hv,_⟩ := ha
    simp [rootDirty, hv]

lemma Augmented.not_rootDirty {h : Heap T V} {t : CTree (ℕ × T)} (ha : Augmented h t) :
    rootDirty h t = false :=
  (augmentedBut_empty.mpr ha).not_rootDirty

/-- One round of the walk at a node. -/
lemma updateAugmentsLoop_visit (h : s.graph.Focus k (node c l x r)) (fuel : ℕ) :
    updateAugmentsLoop (fuel+1) (some x.1) s =
      if rootDirty s.heap l then updateAugmentsLoop fuel l.ptr s
      else if rootDirty s.heap r then updateAugmentsLoop fuel r.ptr s
      else (calculateAugment (some x.1) >>= fun _ => deref (some x.1) >>= fun n =>
        climb fuel n.parent) s := by
  obtain ⟨_,_,_,hv,hl,hr⟩ := h.tree
  obtain ⟨n,hn,_⟩ := graph_value_some hv
  have hnl : n.left = l.ptr := (graph_left hn).symm.trans hl.ptr_eq
  have hnr : n.right = r.ptr := (graph_right hn).symm.trans hr.ptr_eq
  refine (bind_run (deref_ok hn)).trans ?_
  rw [hnl, hnr]
  refine (bind_run (isDirty_ok (Repr.live hl))).trans ?_
  change (if rootDirty s.heap l then _ else _ : M T V Unit) s = _
  split
  · rfl
  · refine (bind_run (isDirty_ok (Repr.live hr))).trans ?_
    change (if rootDirty s.heap r then _ else _ : M T V Unit) s = _
    split
    · rfl
    · rfl

/-- Computing the value of a node whose children have theirs. -/
lemma calculateAugment_run (h : s.graph.Focus k (node c l x r)) {n : RbNode T V}
    (hn : s.heap.get? x.1 = some n) : calculateAugment (some x.1) s =
      match Augment.augment x.2 (l.ptr.bind s.heap.aug) (r.ptr.bind s.heap.aug) with
      | .error f => .error f
      | .ok v => .ok ((),s.put x.1 { n with augment := some v }) := by
  obtain ⟨_,_,_,hv,hrl,hrr⟩ := h.tree
  have hnl : n.left = l.ptr := (graph_left hn).symm.trans hrl.ptr_eq
  have hnr : n.right = r.ptr := (graph_right hn).symm.trans hrr.ptr_eq
  have hnv : n.value = x.2 := Option.some.inj ((graph_value hn).symm.trans hv)
  rw [← hnl, ← hnr, ← hnv]
  refine (bind_run (deref_ok hn)).trans ?_
  refine (bind_run (childAugment_ok (hnl ▸ Repr.live hrl))).trans
    ((bind_run (childAugment_ok (hnr ▸ Repr.live hrr))).trans ?_)
  cases Augment.augment n.value (n.left.bind s.heap.aug) (n.right.bind s.heap.aug) with
  | error f => rfl
  | ok v => exact write_ok hn _

/-- The last round at a node: both children have their values. -/
lemma recomputes_finish (h : s.graph.Focus k (node c l x r)) (hx : s.heap.aug x.1 = none)
    (hl : AugmentedBut E s.heap l) (hr : AugmentedBut E s.heap r) : Recomputes E k (node c l x r) 1 s := by
  obtain ⟨_,hpar,_,hv,_,_⟩ := h.tree
  obtain ⟨n,hn,_⟩ := graph_value_some hv
  have hnd : x.1 ∉ l.ids ∧ x.1 ∉ r.ids := by
    have := h.nodup_tree
    simp only [ids_node, List.nodup_append, List.nodup_cons, List.mem_cons] at this
    grind
  have hvisit : ∀ fuel, updateAugmentsLoop (fuel+1) (some x.1) s = (calculateAugment (some x.1) >>=
      fun _ => deref (some x.1) >>= fun n => climb fuel n.parent) s := by
    intro fuel
    rw [updateAugmentsLoop_visit h fuel, hl.not_rootDirty, hr.not_rootDirty]
    rfl
  have hcalc := calculateAugment_run h hn
  simp only [Recomputes, augNow, hx, augNow_clean hl.clean, augNow_clean hr.clean, bind, Except.bind, pure, Except.pure]
  cases he : Augment.augment x.2 (l.ptr.bind s.heap.aug) (r.ptr.bind s.heap.aug) with
  | error f =>
    rw [he] at hcalc
    intro fuel
    rw [ptr_node, hvisit]
    change (calculateAugment (some x.1) s >>= _) = _
    rw [hcalc]
    rfl
  | ok v =>
    rw [he] at hcalc
    set s1 := s.put x.1 { n with augment := some v }
    have hn1 : s1.heap.get? x.1 = some { n with augment := some v } := by
      rw [put_get hn, if_pos rfl]
    have hkeep : ∀ i, i ≠ x.1 → s1.heap.aug i = s.heap.aug i := fun i hi => by
      rw [put_aug hn, if_neg hi]
    have hl1 : AugmentedBut E s1.heap l := hl.congr fun i hi => hkeep i (by rintro rfl; exact hnd.1 hi)
    have hr1 : AugmentedBut E s1.heap r := hr.congr fun i hi => hkeep i (by rintro rfl; exact hnd.2 hi)
    have hrec : ∀ u : CTree (ℕ × T), x.1 ∉ u.ids → u.ptr.bind s1.heap.aug = u.ptr.bind s.heap.aug := by
      intro u hu
      cases u with
      | leaf => rfl
      | node uc ul y ur => exact hkeep y.1 (by rintro he; simp [he] at hu)
    have hv1 : s1.heap.aug x.1 = some v := by rw [put_aug hn, if_pos rfl]
    refine ⟨s1,fun fuel => ?_,⟨graph_put_augment hn _,fun i hi => ?_,put_length _ _ _,rfl⟩,⟨hl1,hr1,v,hv1,fun _ => ?_⟩,hv1⟩
    · rw [ptr_node, hvisit]
      refine (bind_run hcalc).trans ((bind_run (deref_ok hn1)).trans ?_)
      rw [← graph_parent hn, hpar]
    · rw [put_get hn, if_neg (by rintro rfl; simp at hi)]
    · rw [hrec l hnd.1, hrec r hnd.2, he]

/-- Continuing a walk that has already recomputed a part of the tree. -/
lemma Recomputes.after {t : CTree (ℕ × T)} {m n : ℕ} {U : Set ℕ} (h : Recomputes E k t m s')
    (haug : augNow s.heap t = augNow s'.heap t) (hrun : ∀ fuel, updateAugmentsLoop (fuel+n) t.ptr s = updateAugmentsLoop fuel t.ptr s')
    (hrec : Recomputed U s s') (hU : U ⊆ {i | i ∈ t.ids}) : Recomputes E k t (m+n) s := by
  simp only [Recomputes, haug] at h ⊢
  split at h
  · intro fuel
    rw [← Nat.add_assoc, hrun, h]
  · obtain ⟨s2,h2,hrec2,ha2⟩ := h
    refine ⟨s2,fun fuel => ?_,(hrec.mono hU).trans hrec2,ha2⟩
    rw [← Nat.add_assoc, hrun, h2]

/-- The rounds at a node whose left child has its value. -/
lemma recomputes_right (h : s.graph.Focus k (node c l x r)) (hx : s.heap.aug x.1 = none)
    (hl : AugmentedBut E s.heap l) (hr : PendingBut E s.heap r)
    (ih : r ≠ leaf → rootDirty s.heap r → ∃ steps, steps+1 ≤ 2*r.size ∧
      Recomputes E (⟨.right,c,x,l⟩::k) r steps s) :
    ∃ steps, steps ≤ 2*r.size+1 ∧ Recomputes E k (node c l x r) steps s := by
  cases hd : rootDirty s.heap r with
  | false =>
    refine ⟨1,by omega,recomputes_finish h hx hl (hr.augmented fun a ha hn => ?_)⟩
    simp [rootDirty, ha, hn] at hd
  | true =>
    have hne : r ≠ leaf := by rintro rfl; simp [rootDirty] at hd
    obtain ⟨steps,hs,hrun⟩ := ih hne hd
    have hdisj : (∀ i ∈ r.ids, i ∉ l.ids) ∧ x.1 ∉ r.ids := by
      have := h.nodup_tree
      simp only [ids_node, List.nodup_append, List.nodup_cons, List.mem_cons] at this
      grind
    have hvisit : ∀ fuel, updateAugmentsLoop (fuel+(steps+1)) (some x.1) s =
        updateAugmentsLoop (fuel+steps) r.ptr s := by
      intro fuel
      rw [← Nat.add_assoc, updateAugmentsLoop_visit h, hl.not_rootDirty, hd]
      rfl
    simp only [Recomputes] at hrun
    split at hrun
    · next f hf =>
      refine ⟨steps+1,by omega,?_⟩
      simp only [Recomputes, augNow, hx, augNow_clean hl.clean, hf, bind, Except.bind]
      intro fuel
      rw [ptr_node, hvisit, hrun]
    · next w hw =>
      obtain ⟨s1,h1,hrec,har,hval⟩ := hrun
      have hkeep : ∀ i ∈ l.ids, s1.heap.aug i = s.heap.aug i := fun i hi => hrec.aug fun hir => hdisj.1 i hir hi
      have hl1 : AugmentedBut E s1.heap l := hl.congr hkeep
      have hx1 : s1.heap.aug x.1 = none := (hrec.aug hdisj.2).trans hx
      have hnow : augNow s.heap (node c l x r) = augNow s1.heap (node c l x r) := by
        simp only [augNow, hx, hx1, augNow_congr hkeep, hw, augNow_clean har.clean, hval]
      refine ⟨1+(steps+1),by omega,(recomputes_finish (hrec.graph ▸ h) hx1 hl1 har).after hnow
        (fun fuel => ?_) hrec fun i hi => ?_⟩
      · rw [ptr_node, hvisit, h1]
        rfl
      · simp only [Set.mem_ofPred_eq] at hi ⊢
        simp [hi]

/-- The walk recomputes a tree with a dirty root. -/
theorem exists_recomputes (t : CTree (ℕ × T)) (k : Ctx (ℕ × T)) (s : State T V)
    (h : s.graph.Focus k t) (hp : PendingBut E s.heap t) (ht : t ≠ leaf) (hd : rootDirty s.heap t) :
    ∃ steps, steps+1 ≤ 2*t.size ∧ Recomputes E k t steps s := by
  induction t generalizing k s with
  | leaf => exact absurd rfl ht
  | node c l x r ihl ihr =>
    have hxd : s.heap.aug x.1 = none := by simpa [rootDirty] using hd
    obtain ⟨_,hpl,hpr⟩ := hp.resolve_left fun ⟨_,_,v,hv,_⟩ => by simp [hxd] at hv
    have hdisj : (∀ i ∈ r.ids, i ∉ l.ids) ∧ x.1 ∉ l.ids := by
      have := h.nodup_tree
      simp only [ids_node, List.nodup_append, List.nodup_cons, List.mem_cons] at this
      grind
    have hright : ∀ s1 : State T V, s1.graph = s.graph → s1.heap.aug x.1 = none → AugmentedBut E s1.heap l →
        PendingBut E s1.heap r → ∃ steps, steps ≤ 2*r.size+1 ∧ Recomputes E k (node c l x r) steps s1 := by
      intro s1 hgr hx1 hal hpr1
      have hf1 : s1.graph.Focus k (node c l x r) := hgr ▸ h
      exact recomputes_right hf1 hx1 hal hpr1 fun hne hdr =>
        ihr (⟨.right,c,x,l⟩::k) s1 ((focus_cons k .right c r l x).mp hf1) hpr1 hne hdr
    cases hdl : rootDirty s.heap l with
    | false =>
      have hal : AugmentedBut E s.heap l := hpl.augmented fun a ha hn => by simp [rootDirty, ha, hn] at hdl
      obtain ⟨steps,h1,h2⟩ := hright s rfl hxd hal hpr
      exact ⟨steps,by simp only [CTree.size]; omega,h2⟩
    | true =>
      have hne : l ≠ leaf := by rintro rfl; simp [rootDirty] at hdl
      obtain ⟨steps,hs,hrun⟩ :=
        ihl (⟨.left,c,x,r⟩::k) s ((focus_cons k .left c l r x).mp h) hpl hne hdl
      have hvisit : ∀ fuel, updateAugmentsLoop (fuel+(steps+1)) (some x.1) s =
          updateAugmentsLoop (fuel+steps) l.ptr s := by
        intro fuel
        rw [← Nat.add_assoc, updateAugmentsLoop_visit h, hdl]
        rfl
      simp only [Recomputes] at hrun
      split at hrun
      · next f hf =>
        refine ⟨steps+1,by simp only [CTree.size]; omega,?_⟩
        simp only [Recomputes, augNow, hxd, hf, bind, Except.bind]
        intro fuel
        rw [ptr_node, hvisit, hrun]
      · next w hw =>
        obtain ⟨s1,h1,hrec,hal,hval⟩ := hrun
        have hkeep : ∀ i ∈ r.ids, s1.heap.aug i = s.heap.aug i := fun i hi => hrec.aug (hdisj.1 i hi)
        have hx1 : s1.heap.aug x.1 = none := (hrec.aug hdisj.2).trans hxd
        have hnow : augNow s.heap (node c l x r) = augNow s1.heap (node c l x r) := by
          simp only [augNow, hxd, hx1, augNow_congr hkeep, hw, augNow_clean hal.clean, hval]
        obtain ⟨steps2,hs2,hrun2⟩ := hright s1 hrec.graph hx1 hal (hpr.congr hkeep)
        refine ⟨steps2+(steps+1),by simp only [CTree.size]; omega,
          hrun2.after hnow (fun fuel => ?_) hrec fun i hi => ?_⟩
        · rw [ptr_node, hvisit, h1]
          rfl
        · simp only [Set.mem_ofPred_eq] at hi ⊢
          simp [hi]

/-- `updateAugments` ends with a value at every node, which outside of `E` is the right one, or in the
fault of the augmentation. -/
theorem updateAugments_but {t : CTree (ℕ × T)} (h : s.graph.Focus [] t) (hp : PendingBut E s.heap t) :
    match augNow s.heap t with
    | .error f => updateAugments s = .error f
    | .ok _ => ∃ s', updateAugments s = .ok ((),s') ∧ Recomputed {i | i ∈ t.ids} s s' ∧
        AugmentedBut E s'.heap t := by
  have hhead : s.head = t.ptr := h.hole_eq
  have hrun : updateAugments s = if rootDirty s.heap t then
      updateAugmentsLoop s.heap.bound t.ptr s else .ok ((),s) := by
    have hdef : updateAugments s = (isDirty s.head >>= fun b =>
        if b then updateAugmentsLoop s.heap.bound s.head else pure ()) s := rfl
    rw [hdef, hhead, bind_run (isDirty_ok (Repr.live h.tree))]
    change (if rootDirty s.heap t then _ else _ : M T V Unit) s = _
    split <;> rfl
  rw [hrun]
  cases hd : rootDirty s.heap t with
  | false =>
    have hc : ∀ a, t.ptr = some a → s.heap.aug a ≠ none := fun a ha hn => by simp [rootDirty, ha, hn] at hd
    rw [augNow_clean hc]
    exact ⟨s,rfl,⟨rfl,fun _ _ => rfl,rfl,rfl⟩,hp.augmented hc⟩
  | true =>
    have hne : t ≠ leaf := by rintro rfl; simp [rootDirty] at hd
    obtain ⟨steps,hs,hrec⟩ := exists_recomputes t [] s h hp hne hd
    have hsz := Focus.size_le h
    obtain ⟨fuel,hfuel⟩ : ∃ fuel, s.heap.bound = fuel+steps :=
      ⟨s.heap.bound-steps,by simp only [Heap.bound]; omega⟩
    simp only [if_true, hfuel]
    simp only [Recomputes] at hrec
    cases he : augNow s.heap t with
    | error f => rw [he] at hrec; exact hrec fuel
    | ok w =>
      rw [he] at hrec
      obtain ⟨s1,h1,h2,h3,_⟩ := hrec
      exact ⟨s1,(h1 fuel).trans rfl,h2,h3⟩

/-- `updateAugments` ends with the recomputed value at every node, or in the fault of the
augmentation. -/
theorem updateAugments_run {t : CTree (ℕ × T)} (h : s.graph.Focus [] t) (hp : Pending s.heap t) :
    match augOf (V := V) t with
    | .error f => updateAugments s = .error f
    | .ok _ => ∃ s', updateAugments s = .ok ((),s') ∧ Recomputed {i | i ∈ t.ids} s s' ∧
        Augmented s'.heap t := by
  have hrun := updateAugments_but h (pendingBut_empty.mpr hp)
  rw [hp.augNow_eq] at hrun
  cases he : augOf (V := V) t with
  | error f =>
    rw [he] at hrun
    exact hrun
  | ok w =>
    rw [he] at hrun
    obtain ⟨s',h1,h2,h3⟩ := hrun
    exact ⟨s',h1,h2,augmentedBut_empty.mp h3⟩

end Walk

end Lilith.Rbtree
