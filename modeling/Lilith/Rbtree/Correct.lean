import Lilith.Rbtree.Augments

/-! Insertion and removal on whole trees, and every tree they can build. `RbTree.Valid` is the
invariant between operations; `Linked` describes the moment inside an operation when the links
and colours are final and the augment values are about to be recomputed. -/
namespace Lilith.Rbtree
open Theory PtrGraph CTree

variable {T V : Type} {S : Set ℕ} {s s' : State T V}

/-- The tree without its colours. -/
def uncolored {α : Type} : CTree α → CTree α
  | leaf => leaf
  | node _ l x r => node .black (uncolored l) x (uncolored r)

/-- The invariant of a tree between operations: its nodes form the tree `t`, which is a
red-black tree, and every node has its augment value. -/
structure RbTree.Valid [Augment T V] (tr : RbTree T V) (t : CTree (ℕ × T)) : Prop where
  focus : tr.graph.Focus [] t
  balanced : ∃ m, t.Balanced m
  augmented : Augmented tr.heap t

/-- What an operation on the nodes `S` leaves alone. -/
structure Keeps (S : Set ℕ) (h h' : Heap T V) : Prop where
  frame : ∀ a ∉ S, h'.get? a = h.get? a
  value : ∀ a ∈ S, (h'.get? a).map (·.value) = (h.get? a).map (·.value)
  length : h'.cells.length = h.cells.length

/-- The state `s1` after the links of the valid tree `t` in `s` were changed to those of `t'`:
marks are closed upwards and only nodes of `t` can still be clean. -/
structure Linked (S : Set ℕ) (t : CTree (ℕ × T)) (s s1 : State T V) (t' : CTree (ℕ × T)) : Prop where
  step : Step S s s1
  good : Good S s1
  focus : s1.graph.Focus [] t'
  balanced : ∃ m, t'.Balanced m
  within : ∀ i ∈ t'.ids, i ∈ S
  clean : ∀ i ∈ S, s1.heap.aug i ≠ none → i ∈ t.ids

/-- The parent of a child in a represented tree. -/
lemma Repr.child_parent {g : PtrGraph ℕ T} {q p : Option ℕ} {c : Color} {l r : CTree (ℕ × T)}
    {x : ℕ × T} (h : g.Repr q p (node c l x r)) (a : ℕ) (ha : l.ptr = some a ∨ r.ptr = some a) :
    g.parent a = some x.1 := by
  obtain ⟨_,_,_,_,hl,hr⟩ := h
  rcases ha with ha | ha
  · cases l with
    | leaf => simp at ha
    | node lc ll y lr => obtain rfl : y.1 = a := by simpa using ha
                         exact hl.2.1
  · cases r with
    | leaf => simp at ha
    | node rc rl y rr => obtain rfl : y.1 = a := by simpa using ha
                         exact hr.2.1

/-- The invariant of the dirty marks holds where there are none. -/
lemma Focus.good {t : CTree (ℕ × T)} (h : s.graph.Focus [] t) (hc : ∀ a ∈ t.ids, s.heap.aug a ≠ none)
    (hs : ∀ e ∈ s.stops, e.1.DirtyUp e.2) : Good {i | i ∈ t.ids} s := by
  have hlive : ∀ a ∈ t.ids, ∃ n, s.heap.get? a = some n := by
    intro a ha
    obtain ⟨x,hx,rfl⟩ := List.mem_map.mp ha
    obtain ⟨n,hn,_⟩ := Repr.get h.tree x hx
    exact ⟨n,hn⟩
  refine ⟨hlive,?_,fun a ha b _ hd => ?_,hs⟩
  · have hpar : ∀ (u : CTree (ℕ × T)) (q p : Option ℕ), s.graph.Repr q p u → ∀ a ∈ u.ids, ∀ b,
        s.graph.parent a = some b → b ∈ u.ids ∨ q = some b := by
      intro u
      induction u with
      | leaf => simp
      | node c l x r ihl ihr =>
        rintro q p ⟨_,hp,_,_,hl,hr⟩ a ha b hb
        simp only [ids_node, List.mem_append, List.mem_cons] at ha ⊢
        rcases ha with ha | rfl | ha
        · rcases ihl _ _ hl a ha b hb with h1 | h1
          · exact Or.inl (Or.inl h1)
          · simp only [Option.some.injEq] at h1; exact Or.inl (Or.inr (Or.inl h1.symm))
        · exact Or.inr (hp.symm.trans hb)
        · rcases ihr _ _ hr a ha b hb with h1 | h1
          · exact Or.inl (Or.inr (Or.inr h1))
          · simp only [Option.some.injEq] at h1; exact Or.inl (Or.inr (Or.inl h1.symm))
    intro a ha b hb
    exact (hpar t none s.head h.tree a ha b hb).resolve_right (by simp)
  · exact absurd hd (hc a ha)

section Valid
variable [Augment T V] {t : CTree (ℕ × T)}

/-- Between operations there are none. -/
lemma RbTree.Valid.good (h : s.Valid t) (hs : ∀ e ∈ s.stops, e.1.DirtyUp e.2) :
    Good {i | i ∈ t.ids} s := by
  refine Focus.good h.focus (fun a ha hd => ?_) hs
  obtain ⟨v,hv⟩ := h.augmented.isSome a ha
  simp [hv] at hd

end Valid

/-- The augment value of a node is the one computed from its children, in terms of the links. -/
def LocalAug [Augment T V] (s : State T V) (a : ℕ) : Prop := ∃ w v, s.graph.value a = some w ∧
  s.heap.aug a = some v ∧ Augment.augment w ((s.graph.child a .left).bind s.heap.aug)
    ((s.graph.child a .right).bind s.heap.aug) = .ok v

lemma AugmentedBut.localAug [Augment T V] {E : Set ℕ} {t : CTree (ℕ × T)} {q p : Option ℕ}
    (ha : AugmentedBut E s.heap t) (h : s.graph.Repr q p t) : ∀ a ∈ t.ids, a ∉ E → LocalAug s a := by
  induction t generalizing q p with
  | leaf => simp
  | node c l x r ihl ihr =>
    obtain ⟨hl,hr,v,hv,he⟩ := ha
    obtain ⟨_,_,_,hx,hrl,hrr⟩ := h
    intro a hmem hE
    simp only [ids_node, List.mem_append, List.mem_cons] at hmem
    rcases hmem with hmem | rfl | hmem
    · exact ihl hl hrl a hmem hE
    · exact ⟨x.2,v,hx,hv,by rw [hrl.ptr_eq, hrr.ptr_eq]; exact he hE⟩
    · exact ihr hr hrr a hmem hE

lemma Augmented.localAug [Augment T V] {t : CTree (ℕ × T)} {q p : Option ℕ}
    (ha : Augmented s.heap t) (h : s.graph.Repr q p t) : ∀ a ∈ t.ids, LocalAug s a := fun a hmem =>
  (augmentedBut_empty.mpr ha).localAug h a hmem (Set.notMem_empty a)

/-- Where the marks are closed upwards, the children of a clean node are clean. -/
lemma GoodBut.child_clean (hg : Good S s) {q p : Option ℕ} {c : Color} {l r : CTree (ℕ × T)} {x : ℕ × T}
    (hr : s.graph.Repr q p (node c l x r)) (hS : ∀ i ∈ (node c l x r).ids, i ∈ S) (hx : s.heap.aug x.1 ≠ none)
    (a : ℕ) (ha : l.ptr = some a ∨ r.ptr = some a) : s.heap.aug a ≠ none := by
  intro hd
  have haS : a ∈ S := by
    rcases ha with ha | ha
    · exact hS a (by simp [mem_ids_of_ptr ha])
    · exact hS a (by simp [mem_ids_of_ptr ha])
  exact hx ((hg.closed a haS x.1 (Repr.child_parent hr a ha) hd).elim id (by simp))

/-- Where the marks are closed upwards and the clean nodes have the value computed from their children, the dirty
nodes form the top of the tree. -/
lemma GoodBut.pendingBut [Augment T V] {E : Set ℕ} (hg : Good S s) {q p : Option ℕ} {t : CTree (ℕ × T)}
    (hr : s.graph.Repr q p t) (hS : ∀ i ∈ t.ids, i ∈ S)
    (hloc : ∀ i ∈ t.ids, i ∉ E → s.heap.aug i ≠ none → LocalAug s i) : PendingBut E s.heap t := by
  induction t generalizing q p with
  | leaf => trivial
  | node c l x r ihl ihr =>
    have hpl := ihl hr.2.2.2.2.1 (fun i hi => hS i (by simp [hi])) fun i hi => hloc i (by simp [hi])
    have hpr := ihr hr.2.2.2.2.2 (fun i hi => hS i (by simp [hi])) fun i hi => hloc i (by simp [hi])
    by_cases hx : s.heap.aug x.1 = none
    · exact Or.inr ⟨hx,hpl,hpr⟩
    · have hcl := hg.child_clean hr hS hx
      obtain ⟨v,hv⟩ := Option.ne_none_iff_exists'.mp hx
      refine Or.inl ⟨hpl.augmented fun a ha => hcl a (Or.inl ha),hpr.augmented fun a ha => hcl a (Or.inr ha),v,hv,
        fun hE => ?_⟩
      obtain ⟨w,v',hw,hv',he⟩ := hloc x.1 (by simp) hE hx
      have hvv : v' = v := Option.some.inj (hv'.symm.trans hv)
      have hwx : w = x.2 := Option.some.inj (hw.symm.trans hr.2.2.2.1)
      rw [hr.2.2.2.2.1.ptr_eq, hr.2.2.2.2.2.ptr_eq, hwx, hvv] at he
      exact he

/-- Clean nodes keep the right values while the links change. -/
lemma Step.localAug [Augment T V] {s1 : State T V} (hstep : Step S s s1) (hg : Good S s1) {q p : Option ℕ}
    {t : CTree (ℕ × T)} (hr : s1.graph.Repr q p t) (hS : ∀ i ∈ t.ids, i ∈ S) :
    ∀ i ∈ t.ids, s1.heap.aug i ≠ none → LocalAug s i → LocalAug s1 i := by
  induction t generalizing q p with
  | leaf => simp
  | node c l x r ihl ihr =>
    intro i hi hc hloc
    simp only [ids_node, List.mem_append, List.mem_cons] at hi
    rcases hi with hi | rfl | hi
    · exact ihl hr.2.2.2.2.1 (fun j hj => hS j (by simp [hj])) i hi hc hloc
    · have hxS : x.1 ∈ S := hS _ (by simp)
      obtain ⟨v,hv⟩ := Option.ne_none_iff_exists'.mp hc
      obtain ⟨hold,hchild⟩ := hstep.clean x.1 hxS v hv
      obtain ⟨w,v',hw,hv',he⟩ := hloc
      have hvv : v' = v := Option.some.inj (hv'.symm.trans hold)
      -- a clean child has the value it had before
      have haug : ∀ u : CTree (ℕ × T), (∀ a, u.ptr = some a → a ∈ S ∧ s1.heap.aug a ≠ none) →
          u.ptr.bind s.heap.aug = u.ptr.bind s1.heap.aug := by
        intro u hu
        cases hp : u.ptr with
        | none => rfl
        | some a =>
          obtain ⟨haS,hac⟩ := hu a hp
          obtain ⟨b,hb⟩ := Option.ne_none_iff_exists'.mp hac
          rw [Option.bind_some, Option.bind_some, hb, (hstep.clean a haS b hb).1]
      have hcl := hg.child_clean hr hS hc
      refine ⟨w,v,(hstep.value x.1 hxS).trans hw,hv,?_⟩
      rw [← hvv, ← he, ← hchild, hr.2.2.2.2.1.ptr_eq, hr.2.2.2.2.2.ptr_eq,
        haug l fun a ha => ⟨hS a (by simp [mem_ids_of_ptr ha]),hcl a (Or.inl ha)⟩,
        haug r fun a ha => ⟨hS a (by simp [mem_ids_of_ptr ha]),hcl a (Or.inr ha)⟩]
    · exact ihr hr.2.2.2.2.2 (fun j hj => hS j (by simp [hj])) i hi hc hloc

namespace Linked
variable {t t' : CTree (ℕ × T)} {s1 : State T V}

/-- The children of a clean node are clean and are its old children. -/
lemma child_clean (h : Linked S t s s1 t') {q p : Option ℕ} {c : Color} {l r : CTree (ℕ × T)}
    {x : ℕ × T} (hr : s1.graph.Repr q p (node c l x r)) (hS : ∀ i ∈ (node c l x r).ids, i ∈ S)
    (hx : s1.heap.aug x.1 ≠ none) :
    (∀ a, l.ptr = some a ∨ r.ptr = some a → s1.heap.aug a ≠ none) ∧
      s.graph.child x.1 .left = l.ptr ∧ s.graph.child x.1 .right = r.ptr := by
  have hxS : x.1 ∈ S := hS _ (by simp)
  obtain ⟨v,hv⟩ := Option.ne_none_iff_exists'.mp hx
  have hch := (h.step.clean x.1 hxS v hv).2
  refine ⟨h.good.child_clean hr hS hx,?_,?_⟩
  · rw [← hch]; exact hr.2.2.2.2.1.ptr_eq
  · rw [← hch]; exact hr.2.2.2.2.2.ptr_eq

/-- Clean nodes keep the right values while the links change. -/
theorem pending [Augment T V] (h : Linked S t s s1 t') (hv : s.Valid t) : Pending s1.heap t' := by
  have hloc := hv.augmented.localAug hv.focus.tree
  refine pendingBut_empty.mp (h.good.pendingBut h.focus.tree h.within fun i hi _ hc => ?_)
  exact h.step.localAug h.good h.focus.tree h.within i hi hc (hloc i (h.clean i (h.within i hi) hc))

/-- A tree below a clean node has the shape it had before. -/
lemma uncolored_eq (h : Linked S t s s1 t') (u u0 : CTree (ℕ × T)) (q q0 p : Option ℕ)
    (hr : s1.graph.Repr q p u) (hr0 : s.graph.Repr q0 p u0) (hS : ∀ i ∈ u.ids, i ∈ S)
    (hc : ∀ a, u.ptr = some a → s1.heap.aug a ≠ none) : uncolored u = uncolored u0 := by
  induction u generalizing u0 q q0 p with
  | leaf =>
    cases u0 with
    | leaf => rfl
    | node => rw [repr_leaf] at hr; simp [hr, repr_node] at hr0
  | node c l x r ihl ihr =>
    obtain ⟨hcl,hleft,hright⟩ := h.child_clean hr hS (hc x.1 rfl)
    cases u0 with
    | leaf => rw [repr_leaf] at hr0; simp [hr0, repr_node] at hr
    | node c0 l0 x0 r0 =>
      obtain ⟨hp,_,_,hv,hl,hr'⟩ := hr
      obtain ⟨hp0,_,_,hv0,hl0,hr0'⟩ := hr0
      have hx : x0.1 = x.1 := Option.some.inj (hp0.symm.trans hp)
      rw [hx] at hv0 hl0 hr0'
      have hval := h.step.value x.1 (hS _ (by simp))
      rw [hv, hv0] at hval
      have hxx : x0 = x := Prod.ext hx (Option.some.inj hval.symm)
      rw [hl.ptr_eq] at hl
      rw [hr'.ptr_eq] at hr'
      rw [hleft] at hl0
      rw [hright] at hr0'
      simp only [uncolored]
      rw [ihl l0 _ _ _ hl hl0 (fun i hi => hS i (by simp [hi])) fun a ha => hcl a (Or.inl ha),
        ihr r0 _ _ _ hr' hr0' (fun i hi => hS i (by simp [hi])) fun a ha => hcl a (Or.inr ha), hxx]

/-- The marks are closed under parents. -/
lemma dirtyUp (h : Linked S t s s1 t') {i : ℕ} (hi : i ∈ t'.ids) (hd : s1.heap.aug i = none) :
    s1.heap.DirtyUp i := h.good.dirtyUp (h.within i hi) hd

/-- A node whose subtree changed, other than in colour, is dirty. -/
theorem changed_dirty (h : Linked S t s s1 t') (h0 : s.graph.Focus [] t) {k : Ctx (ℕ × T)}
    {c : Color} {l r : CTree (ℕ × T)} {x : ℕ × T} (hk : k.fill (node c l x r) = t')
    (hx : s1.heap.aug x.1 ≠ none) :
    ∃ (k0 : Ctx (ℕ × T)) (u : CTree (ℕ × T)), k0.fill u = t ∧ uncolored u = uncolored (node c l x r) := by
  have hf : s1.graph.Focus k (node c l x r) := Focus.of_root (hk ▸ h.focus)
  have hS : ∀ i ∈ (node c l x r).ids, i ∈ S := fun i hi =>
    h.within i (by rw [← hk, Ctx.mem_ids_fill]; exact Or.inr hi)
  obtain ⟨y,hy,hyx⟩ := List.mem_map.mp (h.clean x.1 (hS _ (by simp)) hx)
  obtain ⟨k0,c0,l0,r0,rfl⟩ := Ctx.exists_fill_of_mem hy
  have hf0 : s.graph.Focus k0 (node c0 l0 y r0) := Focus.of_root h0
  have hr : s1.graph.Repr k.above (some x.1) (node c l x r) := hf.repr
  have hr0 : s.graph.Repr k0.above (some x.1) (node c0 l0 y r0) := by
    rw [← hyx]
    exact hf0.repr
  refine ⟨k0,_,rfl,(h.uncolored_eq _ _ _ _ _ hr hr0 hS fun a ha => ?_).symm⟩
  obtain rfl : x.1 = a := by simpa using ha
  exact hx

end Linked

/-- The operation ends in a state where the tree is `t'` and only the nodes `S` of the heap `h`
changed, unless the augmentation itself faults on that tree. -/
def Yields [Augment T V] (m : M T V Unit) (s : State T V) (t' : CTree (ℕ × T))
    (S : Set ℕ) (h : Heap T V) : Prop :=
  match augOf (V := V) t' with
  | .error f => m s = .error f
  | .ok _ => ∃ s', m s = .ok ((),s') ∧ s'.Valid t' ∧ (∀ e ∈ s'.stops, e.1.DirtyUp e.2) ∧
      Keeps S h s'.heap

section Operations
variable [Augment T V] {t t' : CTree (ℕ × T)} {s1 : State T V}

/-- Recomputing the augment values after the links are done. -/
lemma Linked.update (h : Linked S t s s1 t') (hv : s.Valid t) :
    Yields updateAugments s1 t' S s.heap := by
  have hu := updateAugments_run h.focus (h.pending hv)
  simp only [Yields]
  cases he : augOf (V := V) t' with
  | error f => rw [he] at hu; exact hu
  | ok w =>
    rw [he] at hu
    obtain ⟨s2,h2,hrec,ha⟩ := hu
    refine ⟨s2,h2,⟨hrec.graph ▸ h.focus,h.balanced,ha⟩,hrec.stops ▸ h.good.stops,?_,?_,?_⟩
    · intro a haS
      rw [hrec.frame a fun hi => haS (h.within a hi), h.step.frame a haS]
    · intro a haS
      exact (congrFun (congrArg PtrGraph.value hrec.graph) a).trans (h.step.value a haS)
    · rw [hrec.length, h.step.length]

/-- Linking a fresh node into a valid tree. -/
theorem insertLink_linked (cmp : T → T → Ordering) (hv : s.Valid t)
    (hs : ∀ e ∈ s.stops, e.1.DirtyUp e.2) {a : ℕ} {n : RbNode T V} (hn : s.heap.get? a = some n)
    (ha : a ∉ t.ids) : ∃ s1 t' k, insertLink (some a) cmp s = .ok ((),s1) ∧
      Linked (insert a {i | i ∈ t.ids}) t s s1 t' ∧ k.fill leaf = t ∧ Descends cmp n.value k ∧
      t'.toList = k.before ++ (a,n.value)::k.after := by
  obtain ⟨m,hm⟩ := hv.balanced
  obtain ⟨⟨⟩,s1,hrun,hstep,hgood,hda,k,t',m',hk,hd,hf,hb,hl⟩ :=
    insertLink_ends cmp hv.focus hm (hv.good hs) hn ha
  refine ⟨s1,t',k,hrun,⟨hstep,hgood,hf,⟨m',hb⟩,fun i hi => ?_,fun i hi hc => ?_⟩,hk,hd,hl⟩
  · rw [CTree.ids, hl] at hi
    have hkids : ∀ j ∈ k.ids, j ∈ t.ids := fun j hj => by
      rw [← hk, Ctx.mem_ids_fill]; exact Or.inl hj
    simp only [Ctx.ids, List.map_append, List.mem_append, List.map_cons, List.mem_cons] at hi hkids
    rcases hi with hi | rfl | hi
    · exact Or.inr (hkids i (Or.inl hi))
    · exact Or.inl rfl
    · exact Or.inr (hkids i (Or.inr hi))
  · rcases hi with rfl | hi
    · exact absurd hda hc
    · exact hi

/-- Unlinking a node of a valid tree. -/
theorem removeLink_linked (hv : s.Valid t) (hs : ∀ e ∈ s.stops, e.1.DirtyUp e.2) {x : ℕ × T}
    (hx : x ∈ t.toList) : ∃ s1 t' before after, removeLink (some x.1) s = .ok ((),s1) ∧
      Linked {i | i ∈ t.ids} t s s1 t' ∧ t.toList = before ++ x::after ∧
      t'.toList = before ++ after := by
  obtain ⟨k,c,l,r,rfl⟩ := Ctx.exists_fill_of_mem hx
  obtain ⟨n,hn,hk⟩ := (Ctx.balanced_fill k (node c l x r)).mp hv.balanced
  obtain ⟨⟨⟩,s1,hrun,hstep,hgood,t',m',hf,hb,hl⟩ :=
    removeLink_spec (Focus.of_root hv.focus) hn hk (fun i hi => hi) (hv.good hs)
  have hold : (k.fill (node c l x r)).toList =
      (k.before ++ l.toList) ++ x::(r.toList ++ k.after) := by
    rw [Ctx.toList_fill]; simp
  refine ⟨s1,t',k.before ++ l.toList,r.toList ++ k.after,hrun,
    ⟨hstep,hgood,hf,⟨m',hb⟩,fun i hi => ?_,fun i hi _ => hi⟩,hold,by rw [hl]; simp⟩
  rw [CTree.ids, hl] at hi
  simp only [Set.mem_ofPred_eq, CTree.ids, hold]
  simp only [List.map_append, List.mem_append, List.map_cons, List.mem_cons] at hi ⊢
  tauto

/-- Insertion of a fresh node into a valid tree. -/
theorem insertRaw_yields (cmp : T → T → Ordering) (hv : s.Valid t)
    (hs : ∀ e ∈ s.stops, e.1.DirtyUp e.2) {a : ℕ} {n : RbNode T V} (hn : s.heap.get? a = some n)
    (ha : a ∉ t.ids) : ∃ t' k, k.fill leaf = t ∧ Descends cmp n.value k ∧
      t'.toList = k.before ++ (a,n.value)::k.after ∧
      Yields (insertRaw (some a) cmp) s t' (insert a {i | i ∈ t.ids}) s.heap := by
  obtain ⟨s1,t',k,hrun,hl,hk,hd,hlist⟩ := insertLink_linked cmp hv hs hn ha
  refine ⟨t',k,hk,hd,hlist,?_⟩
  have hraw : insertRaw (some a) cmp s = updateAugments s1 := bind_run hrun
  rw [Yields, hraw]
  exact hl.update hv

/-- Removal of a node of a valid tree. -/
theorem removeRaw_yields (hv : s.Valid t) (hs : ∀ e ∈ s.stops, e.1.DirtyUp e.2) {x : ℕ × T}
    (hx : x ∈ t.toList) : ∃ t' before after, t.toList = before ++ x::after ∧
      t'.toList = before ++ after ∧ Yields (removeRaw (some x.1)) s t' {i | i ∈ t.ids} s.heap := by
  obtain ⟨s1,t',before,after,hrun,hl,h1,h2⟩ := removeLink_linked hv hs hx
  refine ⟨t',before,after,h1,h2,?_⟩
  have hraw : removeRaw (some x.1) s = updateAugments s1 := bind_run hrun
  rw [Yields, hraw]
  exact hl.update hv

end Operations

/-- The result of an operation on a tree is the tree `t'` and only the nodes `S` of the heap `h`
changed, unless the augmentation itself faults on that tree. -/
def RbTree.Yields [Augment T V] (result : Except Fault (RbTree T V)) (t' : CTree (ℕ × T))
    (S : Set ℕ) (h : Heap T V) : Prop :=
  match augOf (V := V) t' with
  | .error f => result = .error f
  | .ok _ => ∃ tr, result = .ok tr ∧ tr.Valid t' ∧ Keeps S h tr.heap

namespace RbTree
variable [Augment T V] {tr : RbTree T V} {t t' : CTree (ℕ × T)}

lemma yields_run {m : M T V Unit} {h : Heap T V} (hy : Rbtree.Yields m { tr with } t' S h) :
    Yields ((tr.run m).map (·.2)) t' S h := by
  simp only [Rbtree.Yields, Yields, run] at hy ⊢
  cases he : augOf (V := V) t' with
  | error f => rw [he] at hy; rw [hy]; rfl
  | ok w =>
    rw [he] at hy
    obtain ⟨s',h1,h2,_,h3⟩ := hy
    exact ⟨s'.toRbTree,by rw [h1]; rfl,h2,h3⟩

/-- Insertion of a fresh node into a valid tree. -/
theorem insertRaw_yields (cmp : T → T → Ordering) (hv : tr.Valid t) {a : ℕ} {n : RbNode T V}
    (hn : tr.heap.get? a = some n) (ha : a ∉ t.ids) : ∃ t' k, k.fill leaf = t ∧
      Descends cmp n.value k ∧ t'.toList = k.before ++ (a,n.value)::k.after ∧
      Yields (tr.insertRaw (some a) cmp) t' (insert a {i | i ∈ t.ids}) tr.heap := by
  obtain ⟨t',k,h1,h2,h3,h4⟩ :=
    Rbtree.insertRaw_yields (s := { tr with }) cmp hv (by simp) hn ha
  exact ⟨t',k,h1,h2,h3,yields_run h4⟩

/-- Removal of a node of a valid tree. -/
theorem removeRaw_yields (hv : tr.Valid t) {x : ℕ × T} (hx : x ∈ t.toList) :
    ∃ t' before after, t.toList = before ++ x::after ∧ t'.toList = before ++ after ∧
      Yields (tr.removeRaw (some x.1)) t' {i | i ∈ t.ids} tr.heap := by
  obtain ⟨t',before,after,h1,h2,h3⟩ :=
    Rbtree.removeRaw_yields (s := { tr with }) hv (by simp) hx
  exact ⟨t',before,after,h1,h2,yields_run h3⟩

end RbTree
end Lilith.Rbtree
