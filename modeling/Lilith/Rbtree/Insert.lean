import Lilith.Rbtree.Spec

/-! Insertion keeps a tree a red-black tree. The new node is red; recolouring moves the only
possible red-red pair up by two levels, and one or two rotations end it. At each point the tree
is described around the node in question: the subtree under it is balanced, and so is the
context for a black subtree of the same height. -/
namespace Lilith.Rbtree
open Theory PtrGraph CTree

variable {T V : Type} {S : Set ℕ} {s s' : State T V} {α β : Type}

/-- All nodes of the tree are among `S`. -/
abbrev Within (S : Set ℕ) (k : Ctx (ℕ × T)) (t : CTree (ℕ × T)) : Prop := ∀ i ∈ (k.fill t).ids, i ∈ S

section Reads
variable {R : β → State T V → Prop}

lemma grandparent_ok (hg : Good S s) {a : ℕ} (ha : a ∈ S) :
    grandparent (some a) s = .ok (s.graph.grandparent a,s) := by
  obtain ⟨n,hn⟩ := hg.live a ha
  have hpar := graph_parent hn
  refine (bind_run (deref_ok hn)).trans ?_
  rw [PtrGraph.grandparent, hpar]
  cases hp : n.parent with
  | none => rfl
  | some b =>
    obtain ⟨m,hm⟩ := hg.live b (hg.parent a ha b (hpar.trans hp))
    refine (bind_run (deref_ok hm)).trans ?_
    rw [Option.bind_some, graph_parent hm]
    rfl

lemma uncle_ok (hg : Good S s) {a : ℕ} (ha : a ∈ S) :
    uncle (some a) s = .ok (s.graph.uncle a,s) := by
  obtain ⟨n,hn⟩ := hg.live a ha
  have hpar := graph_parent hn
  refine (bind_run (grandparent_ok hg ha)).trans ?_
  rw [PtrGraph.uncle]
  cases hgp : s.graph.grandparent a with
  | none => rfl
  | some g =>
    obtain ⟨b,hb,hbg⟩ := Option.bind_eq_some_iff.mp hgp
    have hbS := hg.parent a ha b hb
    obtain ⟨m,hm⟩ := hg.live g (hg.parent b hbS g hbg)
    refine (bind_run (deref_ok hm)).trans ((bind_run (deref_ok hn)).trans ?_)
    rw [Option.bind_some, graph_left hm, graph_right hm, hpar]
    split <;> rfl

theorem Spec.bind_grandparent {f : Ptr → M T V β} {a : ℕ} (ha : a ∈ S)
    (hf : Spec S (f (s.graph.grandparent a)) s R) : Spec S (grandparent (some a) >>= f) s R :=
  fun hg => Ends.bind_eq (grandparent_ok hg ha) (hf hg)

theorem Spec.bind_uncle {f : Ptr → M T V β} {a : ℕ} (ha : a ∈ S)
    (hf : Spec S (f (s.graph.uncle a)) s R) : Spec S (uncle (some a) >>= f) s R :=
  fun hg => Ends.bind_eq (uncle_ok hg ha) (hf hg)

/-- `child_dir` finds the side the hole is on, and its assertion holds. -/
lemma childDir_ok {f : Frame (ℕ × T)} {k : Ctx (ℕ × T)} {t : CTree (ℕ × T)} {a : ℕ}
    (hg : Good S s) (h : s.graph.Focus (f::k) t) (hp : t.ptr = some a) (hS : f.key.1 ∈ S) :
    childDir (some f.key.1) (some a) s = .ok (f.dir,s) := by
  have hhole : s.graph.child f.key.1 f.dir = some a := h.hole_eq.trans hp
  have hother := h.ctx.2.2.2.2.1.ptr_eq
  have hne : f.other.ptr ≠ some a := by
    intro he
    exact h.not_mem a (mem_ids_of_ptr hp) (by simp [mem_ids_of_ptr he])
  obtain ⟨n,hn⟩ := hg.live _ hS
  rw [graph_child hn] at hhole hother
  rw [← hother] at hne
  refine (bind_run (deref_ok hn)).trans ?_
  cases hd : f.dir with
  | left =>
    rw [hd] at hhole
    rw [if_pos (show n.left = some a from hhole)]
    rfl
  | right =>
    rw [hd] at hhole hne
    rw [if_neg (show n.left ≠ some a from hne), if_pos (show n.right = some a from hhole)]
    rfl

theorem Spec.bind_childDir {g : Direction → M T V β} {f : Frame (ℕ × T)} {k : Ctx (ℕ × T)}
    {t : CTree (ℕ × T)} {a : ℕ} (h : s.graph.Focus (f::k) t) (hp : t.ptr = some a)
    (hS : f.key.1 ∈ S) (hf : Spec S (g f.dir) s R) :
    Spec S (childDir (some f.key.1) (some a) >>= g) s R := fun hg =>
  Ends.bind_eq (childDir_ok hg h hp hS) (hf hg)

end Reads

/-- Replacing a node by another one, or by nothing, relinks the hole the node is in. -/
theorem replaceNode_spec {k : Ctx (ℕ × T)} {t : CTree (ℕ × T)} {a : ℕ} {p : Ptr}
    (h : s.graph.Focus k t) (hp : t.ptr = some a) (hS : Within S k t) (hr : ∀ b, p = some b → b ∈ S) :
    Spec S (replaceNode (some a) p) s fun _ s' => s'.graph = s.graph.setHole k p := by
  have hat : a ∈ t.ids := mem_ids_of_ptr hp
  refine Spec.bind_deref (hS a ((Ctx.mem_ids_fill k t a).mpr (Or.inr hat))) fun n hn => ?_
  have hpar : n.parent = k.above := by
    rw [← graph_parent hn]
    cases t with
    | leaf => simp at hat
    | node c l x r =>
      simp only [ptr_node, Option.some.injEq] at hp
      rw [← hp]
      exact h.tree.2.1
  cases k with
  | nil => simpa [hpar] using Spec.setRoot hr
  | cons f k =>
    have hf : f.key.1 ∈ S := hS _ ((Ctx.mem_ids_fill _ _ _).mpr (Or.inl (by simp)))
    simp only [hpar, Ctx.above_cons, Option.isNone_some, Bool.false_eq_true, if_false]
    exact Spec.bind_childDir h hp hf (Spec.setChild hf f.dir hr)


/-- The situation during an insertion: a red node in the hole, everything balanced but that its
parent may be red too. -/
structure RedHole (g : PtrGraph ℕ T) (k : Ctx (ℕ × T)) (t : CTree (ℕ × T)) (n : ℕ) : Prop where
  focus : g.Focus k t
  red : t.color = .red
  tree : t.Balanced n
  ctx : k.Balanced .black n

/-- Flipping the colours of a red parent, a red uncle and the grandparent moves the red node in
question up to the grandparent. -/
lemma RedHole.flip {g : PtrGraph ℕ T} {p f : Frame (ℕ × T)} {k : Ctx (ℕ × T)} {t : CTree (ℕ × T)}
    {n u : ℕ} (h : RedHole g (p::f::k) t n) (hp : p.color = .red) (hf : f.other.color = .red)
    (hu : f.other.ptr = some u) : ∃ t', RedHole (((g.setColor f.key.1 .red).setColor p.key.1
      .black).setColor u .black) k t' (n+1) ∧ t'.ptr = some f.key.1 ∧
      (k.fill t').toList = (Ctx.fill (p::f::k) t).toList := by
  obtain ⟨pd,pc,px,po⟩ := p
  obtain ⟨fd,fc,fx,fo⟩ := f
  rcases fo with _ | ⟨oc,ol,ox,ow⟩
  · simp at hu
  simp only [ptr_node, Option.some.injEq, color_node] at hu hf hp
  subst hu hf hp
  obtain ⟨_,hpo,hbpo,hk⟩ := h.ctx
  -- a red parent has a black parent
  cases fc with
  | red => exact absurd hk.1 (by simp)
  | black =>
    have h0 : g.Focus k (Ctx.fill [] (join fd .black (join pd .red t px po) fx (node .red ol ox ow))) :=
      (focus_append [⟨pd,.red,px,po⟩,⟨fd,.black,fx,node .red ol ox ow⟩] k t).mpr h.focus
    have h1 : (g.setColor fx.1 .red).Focus k (Ctx.fill [⟨fd,.red,fx,node .red ol ox ow⟩]
        (join pd .red t px po)) := Focus.setColor_fill h0 .red
    have h2 := Focus.setColor_fill h1 .black
    rw [Ctx.fill_cons, Ctx.fill_nil, ← join_not] at h2
    have h3 : ((g.setColor fx.1 .red).setColor px.1 .black).Focus k
        (Ctx.fill [⟨fd.not,.red,fx,join pd .black t px po⟩] (join .left .red ol ox ow)) := h2
    have h4 := Focus.setColor_fill h3 .black
    rw [Ctx.fill_cons, Ctx.fill_nil, join_not] at h4
    refine ⟨_,⟨h4,by simp,?_,hk.2⟩,by simp,?_⟩
    · have ho : (node Color.red ol ox ow).Balanced n := hk.1
      simp only [balanced_join_red, color_join, balanced_join_black, Nat.add_right_cancel_iff,
        exists_eq_left', true_and]
      exact ⟨⟨h.tree,hbpo⟩,ho.2.2⟩
    · simp only [Ctx.toList_fill, Ctx.fill_cons]
      cases fd <;> cases pd <;> simp [join]

/-- Recolouring ends at a red node whose parent or uncle is black. -/
lemma recolorLoop_spec (fuel : ℕ) (k : Ctx (ℕ × T)) (t : CTree (ℕ × T)) (n a : ℕ) (s : State T V)
    (h : RedHole s.graph k t n) (ha : t.ptr = some a) (hS : Within S k t) (hf : k.length < fuel) :
    Spec S (recolorLoop fuel (some a)) s fun w s' => ∃ k' t' n',
      RedHole s'.graph k' t' n' ∧ w = t'.ptr ∧ (k'.fill t').toList = (k.fill t).toList ∧
      ∀ p g k'', k' = p::g::k'' → p.color = .red → g.other.color = .black := by
  induction fuel generalizing k t n a s with
  | zero => omega
  | succ fuel ih =>
    obtain ⟨c,l,x,r,rfl⟩ : ∃ c l x r, t = node c l x r := by
      cases t with
      | leaf => simp at ha
      | node c l x r => exact ⟨c,l,x,r,rfl⟩
    simp only [ptr_node, Option.some.injEq] at ha
    subst ha
    have hx : x.1 ∈ S := hS _ ((Ctx.mem_ids_fill _ _ _).mpr (by simp))
    have hpar := Focus.parent_eq h.focus
    refine Spec.bind_deref hx fun m hm => ?_
    rw [graph_parent hm] at hpar
    refine Spec.bind_grandparent hx (Spec.bind_uncle hx ?_)
    match k, h, hS, hf with
    | [], h, hS, hf =>
      have hgp : s.graph.grandparent x.1 = none := by simp [PtrGraph.grandparent, graph_parent hm, hpar]
      rw [PtrGraph.uncle, hgp, hpar]
      refine Spec.bind_color (by simp) (Spec.bind_color (by simp) ?_)
      exact Spec.pure ⟨[],_,n,h,rfl,rfl,by simp⟩
    | [p], h, hS, hf =>
      have hp : p.key.1 ∈ S := hS _ ((Ctx.mem_ids_fill _ _ _).mpr (by simp))
      have hpp : s.graph.parent p.key.1 = none := h.focus.ctx.2.1
      have hgp : s.graph.grandparent x.1 = none := by
        simp [PtrGraph.grandparent, graph_parent hm, hpar, hpp]
      rw [PtrGraph.uncle, hgp, hpar]
      refine Spec.bind_color (by simpa using hp) (Spec.bind_color (by simp) ?_)
      simp only [Option.bind_none, Option.elim_none, reduceCtorEq, and_false, if_false]
      exact Spec.pure ⟨[p],_,n,h,rfl,rfl,by simp⟩
    | p::f::k, h, hS, hf =>
      have hin : ∀ i, i ∈ Ctx.ids (p::f::k) → i ∈ S := fun i hi =>
        hS _ ((Ctx.mem_ids_fill _ _ _).mpr (Or.inl hi))
      have hp : p.key.1 ∈ S := hin _ (by simp)
      have hf' : f.key.1 ∈ S := hin _ (by simp)
      have hpp : s.graph.parent p.key.1 = some f.key.1 := h.focus.ctx.2.1
      have hgp : s.graph.grandparent x.1 = some f.key.1 := by
        simp [PtrGraph.grandparent, graph_parent hm, hpar, hpp]
      have hcp : s.graph.color p.key.1 = p.color := h.focus.ctx.2.2.1
      have hcu : f.other.ptr.elim .black s.graph.color = f.other.color := by
        have hr := h.focus.ctx.2.2.2.2.2.2.2.2.2.1
        rw [← hr.ptr_eq]
        exact hr.color_eq
      rw [h.focus.uncle_eq, hgp, hpar, Ctx.above_cons]
      refine Spec.bind_color (by simpa using hp) (Spec.bind_color ?_ ?_)
      · intro b hb
        exact hin b (by simp [mem_ids_of_ptr hb])
      rw [hcu, Option.elim_some, hcp]
      by_cases hcond : p.color = .red ∧ f.other.color = .red
      · rw [if_pos hcond]
        obtain ⟨u,hu⟩ : ∃ u, f.other.ptr = some u := by
          cases ho : f.other with
          | leaf => simp [ho] at hcond
          | node => exact ⟨_,rfl⟩
        rw [hu]
        obtain ⟨t',ht',hpt,hl⟩ := h.flip hcond.1 hcond.2 hu
        refine Spec.bind (Spec.setColor hf' _) fun _ s1 h1 => Spec.bind (Spec.setColor hp _)
          fun _ s2 h2 => Spec.bind (Spec.setColor (hin u (by simp [mem_ids_of_ptr hu])) _)
          fun _ s3 h3 => ?_
        rw [h1] at h2
        rw [h2] at h3
        have hw : Within S k t' := by
          intro i hi
          have : i ∈ (Ctx.fill (p::f::k) (node c l x r)).ids := by
            rw [CTree.ids, ← hl]; exact hi
          exact hS i this
        refine (ih k t' (n+1) f.key.1 s3 (h3 ▸ ht') hpt hw (by simp at hf; omega)).mono ?_
        rintro w s' ⟨k',t'',n',hr,hw',hl',hstop⟩
        exact ⟨k',t'',n',hr,hw',hl'.trans hl,hstop⟩
      · rw [if_neg hcond]
        refine Spec.pure ⟨p::f::k,_,n,h,rfl,rfl,?_⟩
        rintro p' g' k'' ⟨⟩ hpr
        cases hc : f.other.color with
        | red => exact absurd ⟨hpr,hc⟩ hcond
        | black => rfl


/-- The two relinkings that finish a rotation, after the child `y` took the place of `x`. -/
theorem rotateLinks_spec {g : PtrGraph ℕ T} {k : Ctx (ℕ × T)} {d e : Direction} {cx cy : Color}
    {a b u : CTree (ℕ × T)} {x y : ℕ × T} {p : Ptr} {f : Unit → M T V β} {R : β → State T V → Prop}
    (h : g.Focus k (join d cx a x (join d cy b y u))) (hs : s.graph = g.setHole k (some y.1))
    (hS : Within S k (join d cx a x (join d cy b y u))) (he : e = d.not) (hp : p = b.ptr)
    (hf : ∀ s', s'.graph.Focus k (join d cy (join d cx a x b) y u) → Spec S (f ()) s' R) :
    Spec S (setChild (some y.1) d (some x.1) >>= fun _ => setChild (some x.1) e p >>= f) s R := by
  subst he hp
  have hin : ∀ i ∈ (join d cx a x (join d cy b y u)).ids, i ∈ S := fun i hi =>
    hS i ((Ctx.mem_ids_fill _ _ _).mpr (Or.inr hi))
  have hx : x.1 ∈ S := hin _ (by simp)
  refine Spec.bind (Spec.setChild (hin _ (by simp)) d (by rintro i ⟨⟩; exact hx)) fun _ s1 h1 => ?_
  refine Spec.bind (Spec.setChild hx d.not fun i hi => hin i ?_) fun _ s2 h2 => ?_
  · simp [mem_ids_of_ptr hi]
  · rw [h1, hs] at h2
    exact hf s2 (h2 ▸ h.rotate)

/-- A black grandparent `x` above a red node `y` that has a red child on the outer side. -/
structure RedPair (g : PtrGraph ℕ T) (k : Ctx (ℕ × T)) (side : Direction) (x y : ℕ × T)
    (a b o : CTree (ℕ × T)) (n : ℕ) : Prop where
  focus : g.Focus k (join side .black (join side .red a y b) x o)
  outer : a.Balanced n
  inner : b.Balanced n
  innerColor : b.color = .black
  other : o.Balanced n
  otherColor : o.color = .black
  ctx : k.Balanced .black (n+1)

/-- Rotating the pair away restores the balance. -/
lemma rotateOuter_spec {k : Ctx (ℕ × T)} {side : Direction} {x y : ℕ × T} {a b o : CTree (ℕ × T)}
    {n : ℕ} (h : RedPair s.graph k side x y a b o n)
    (hS : Within S k (join side .black (join side .red a y b) x o)) :
    Spec S (rotateOuter (some y.1) (some x.1) side) s fun _ s' => ∃ t m, s'.graph.Focus [] t ∧
      t.Balanced m ∧ t.toList = (k.fill (join side .black (join side .red a y b) x o)).toList := by
  have hin : ∀ i ∈ (join side .black (join side .red a y b) x o).ids, i ∈ S := fun i hi =>
    hS i ((Ctx.mem_ids_fill _ _ _).mpr (Or.inr hi))
  have hx : x.1 ∈ S := hin _ (by simp)
  have hy : y.1 ∈ S := hin _ (by simp)
  obtain ⟨_,_,_,_,hry,_⟩ := (repr_join _ _ _ _ _ _ _).mp h.focus.tree
  obtain ⟨_,_,_,_,_,hrb⟩ := (repr_join _ _ _ _ _ _ _).mp hry
  have hf' : s.graph.Focus k (join side.not .black o x (join side.not .red b y a)) := by
    rw [join_not, join_not]; exact h.focus
  have hS' : Within S k (join side.not .black o x (join side.not .red b y a)) := by
    rw [join_not, join_not]; exact hS
  refine Spec.bind_deref hy fun m hm => ?_
  refine Spec.bind (replaceNode_spec h.focus (by simp) hS (by rintro i ⟨⟩; exact hy)) fun _ s1 h1 => ?_
  refine rotateLinks_spec hf' h1 hS' (by simp) ((graph_child hm _).symm.trans hrb.ptr_eq) fun s2 h2 => ?_
  refine Spec.bind (Spec.setColor hy _) fun _ s3 h3 => (Spec.setColor hx _).mono fun _ s4 h4 => ?_
  have h5 : s3.graph.Focus k (Ctx.fill [⟨side.not,.black,y,a⟩] (join side.not .black o x b)) :=
    h3 ▸ h2.setColor .black
  have h6 := Focus.setColor_fill h5 .red
  rw [← h4, Ctx.fill_cons, Ctx.fill_nil] at h6
  have hbal : (join side.not .black (join side.not .red o x b) y a).Balanced (n+1) := by
    simp [h.outer, h.inner, h.innerColor, h.other, h.otherColor]
  obtain ⟨m',hm'⟩ := (Ctx.balanced_fill k _).mpr ⟨n+1,hbal,by simpa using h.ctx⟩
  refine ⟨_,m',h6.to_root,hm',?_⟩
  simp only [Ctx.toList_fill]
  cases side <;> simp [join, Direction.not]

/-- The inner rotation gives a red pair with its red child on the outer side. -/
lemma rotateInner_spec {k : Ctx (ℕ × T)} {side pd : Direction} {x p : ℕ × T}
    {t po o : CTree (ℕ × T)} {n q : ℕ}
    (h : RedHole s.graph (⟨pd,.red,p,po⟩::⟨side,.black,x,o⟩::k) t n) (hq : t.ptr = some q)
    (ho : o.color = .black)
    (hS : Within S (⟨pd,.red,p,po⟩::⟨side,.black,x,o⟩::k) t) :
    Spec S (rotateInner (some q) (some p.1) (some x.1) side) s fun w s' => ∃ y a b,
      w = some y.1 ∧ RedPair s'.graph k side x y a b o n ∧
      (k.fill (join side .black (join side .red a y b) x o)).toList =
        (Ctx.fill (⟨pd,.red,p,po⟩::⟨side,.black,x,o⟩::k) t).toList := by
  have hin : ∀ i ∈ (join side .black (join pd .red t p po) x o).ids, i ∈ S := fun i hi =>
    hS i ((Ctx.mem_ids_fill k _ _).mpr (Or.inr hi))
  have hpS : p.1 ∈ S := hin _ (by simp)
  have hxS : x.1 ∈ S := hin _ (by simp)
  have hqS : q ∈ S := hin _ (by simp [mem_ids_of_ptr hq])
  obtain ⟨_,hpo,hbpo,hbo,hk⟩ := h.ctx
  refine Spec.bind_childDir h.focus hq hpS ?_
  by_cases hd : side = pd
  · -- already on the outer side
    subst hd
    rw [if_neg (by simp)]
    refine Spec.pure ⟨p,t,po,rfl,⟨(focus_append [_,_] k t).mpr h.focus,h.tree,hbpo,hpo,hbo,ho,hk⟩,rfl⟩
  · have hpd : pd = side.not := (Direction.eq_or_eq_not side pd).resolve_left (Ne.symm hd)
    subst hpd
    rw [if_pos (by simp)]
    obtain ⟨c,ta,y,tb,rfl⟩ := exists_join side (t := t) (by rintro rfl; simp at hq)
    obtain rfl : c = .red := by simpa using h.red
    obtain rfl : q = y.1 := by simpa using hq.symm
    obtain ⟨hta,htb,hbta,hbtb⟩ := (balanced_join_red _ _ _ _ _).mp h.tree
    have hfoc : s.graph.Focus (⟨side,.black,x,o⟩::k) (join side .red po p (join side .red ta y tb)) := by
      rw [← join_not, focus_cons]; exact h.focus
    have hS' : Within S (⟨side,.black,x,o⟩::k) (join side .red po p (join side .red ta y tb)) := by
      have hS2 := hS
      rw [Within, Ctx.fill_cons, join_not] at hS2
      exact hS2
    have hrt := (repr_join _ _ _ _ _ _ _).mp h.focus.tree
    refine Spec.bind_deref hqS fun m hm => ?_
    refine Spec.bind (Spec.setChild hxS side (by rintro i ⟨⟩; exact hqS)) fun _ s1 h1 => ?_
    refine rotateLinks_spec hfoc h1 hS' rfl ((graph_child hm _).symm.trans hrt.2.2.2.2.1.ptr_eq)
      fun s2 h2 => ?_
    refine Spec.pure ⟨y,join side .red po p ta,tb,rfl,
      ⟨(focus_cons _ _ _ _ _ _).mpr h2,by simp [hpo, hta, hbpo, hbta],hbtb,htb,hbo,ho,hk⟩,?_⟩
    simp only [Ctx.toList_fill, Ctx.fill_cons]
    cases side <;> simp [join, Direction.not]

/-- With a red parent and a black uncle, `rotate` ends in a red-black tree. -/
theorem rotate_spec {f : Frame (ℕ × T)} {k : Ctx (ℕ × T)} {t : CTree (ℕ × T)} {n q : ℕ}
    (h : RedHole s.graph (f::k) t n) (hq : t.ptr = some q) (hS : Within S (f::k) t)
    (hf : f.color = .red) (hstop : ∀ g k', k = g::k' → g.other.color = .black) :
    Spec S (rotate (some q)) s fun _ s' => ∃ t' m, s'.graph.Focus [] t' ∧ t'.Balanced m ∧
      t'.toList = (Ctx.fill (f::k) t).toList := by
  obtain ⟨pd,pc,p,po⟩ := f
  simp only at hf
  subst hf
  obtain ⟨_,hpo,hbpo,hk⟩ := h.ctx
  have hpS : p.1 ∈ S := hS _ ((Ctx.mem_ids_fill _ _ _).mpr (by simp))
  have hqS : q ∈ S := hS _ ((Ctx.mem_ids_fill _ _ _).mpr (Or.inr (mem_ids_of_ptr hq)))
  have hpar : s.graph.parent q = some p.1 := by
    cases t with
    | leaf => simp at hq
    | node c l x r =>
      obtain rfl : x.1 = q := by simpa using hq
      exact h.focus.parent_eq
  have hpp : s.graph.parent p.1 = k.above := h.focus.ctx.2.1
  refine Spec.bind_deref hqS fun m hm => Spec.bind_grandparent hqS ?_
  have hmp : m.parent = some p.1 := (graph_parent hm).symm.trans hpar
  rw [PtrGraph.grandparent, hpar, Option.bind_some, hpp, hmp]
  have hfp : s.graph.Focus k (join pd .red t p po) := (focus_cons _ _ _ _ _ _).mpr h.focus
  cases k with
  | nil =>
    refine (Spec.setColor hpS _).mono fun _ s' h' => ⟨join pd .black t p po,n+1,?_,?_,?_⟩
    · rw [h']; exact hfp.setColor .black
    · simp [h.tree, hbpo]
    · cases pd <;> simp [join]
  | cons g k =>
    obtain ⟨side,gc,x,o⟩ := g
    have ho : o.color = .black := hstop _ _ rfl
    cases gc with
    | red => exact absurd hk.1 (by simp)
    | black =>
      have hxS : x.1 ∈ S := hS _ ((Ctx.mem_ids_fill _ _ _).mpr (by simp))
      simp only [Ctx.above_cons, Option.isNone_some, Bool.false_eq_true, if_false]
      refine Spec.bind_childDir hfp (by simp) hxS ?_
      refine Spec.bind (rotateInner_spec h hq ho hS) ?_
      rintro w s1 ⟨y,a,b,rfl,hpair,hl⟩
      have hS' : Within S k (join side .black (join side .red a y b) x o) := by
        intro i hi
        refine hS i ?_
        rw [CTree.ids, ← hl]
        exact hi
      refine (rotateOuter_spec hpair hS').mono ?_
      rintro _ s2 ⟨t',m',h1,h2,h3⟩
      exact ⟨t',m',h1,h2,h3.trans hl⟩


/-- The pointer `place` writes to: the hole of a context. -/
def Link.ofCtx : Ctx (ℕ × T) → Link
  | [] => .head
  | f::_ => .child (some f.key.1) f.dir

/-- The path `place` takes for a value: left at keys that are not smaller. -/
def Descends (cmp : T → T → Ordering) (v : T) (k : Ctx (ℕ × T)) : Prop :=
  ∀ f ∈ k, f.dir = .left ↔ (cmp v f.key.2).isLE

lemma Link.read_ok {k : Ctx (ℕ × T)} {t : CTree (ℕ × T)} (h : s.graph.Focus k t) :
    (Link.ofCtx k).read s = .ok (t.ptr,s) := by
  have hh := h.hole_eq
  cases k with
  | nil => rw [← hh]; rfl
  | cons f k =>
    obtain ⟨n,hn,_⟩ := graph_value_some h.ctx.2.2.2.1
    refine (bind_run (deref_ok hn)).trans ?_
    rw [← hh, hole, graph_child hn]
    rfl

/-- The walk of `place` ends at an empty place of the tree. -/
lemma placeLoop_ok (cmp : T → T → Ordering) {a : ℕ} {n : RbNode T V} (hn : s.heap.get? a = some n)
    (fuel : ℕ) (k : Ctx (ℕ × T)) (t : CTree (ℕ × T)) (h : s.graph.Focus k t)
    (hd : Descends cmp n.value k) (hf : t.size < fuel) :
    ∃ k', placeLoop (some a) cmp fuel k.above (Link.ofCtx k) s = .ok ((k'.above,Link.ofCtx k'),s) ∧
      k'.fill leaf = k.fill t ∧ Descends cmp n.value k' := by
  induction fuel generalizing k t with
  | zero => omega
  | succ fuel ih =>
    have hread := Link.read_ok h
    cases t with
    | leaf =>
      refine ⟨k,?_,rfl,hd⟩
      exact bind_run hread
    | node c l y r =>
      obtain ⟨m,hm,hmv⟩ := graph_value_some h.tree.2.2.2.1
      have hsz : l.size < fuel ∧ r.size < fuel := by simp only [CTree.size] at hf; omega
      have hrun : placeLoop (some a) cmp (fuel+1) k.above (Link.ofCtx k) s =
          if (cmp n.value y.2).isLE then placeLoop (some a) cmp fuel (some y.1) (.child (some y.1) .left) s
          else placeLoop (some a) cmp fuel (some y.1) (.child (some y.1) .right) s := by
        change ((Link.ofCtx k).read >>= fun next => _) s = _
        rw [bind_run hread]
        change (deref (some a) >>= fun m => deref (some y.1) >>= fun p => _) s = _
        rw [bind_run (deref_ok hn), bind_run (deref_ok hm), hmv]
        split <;> rfl
      by_cases hle : (cmp n.value y.2).isLE
      · obtain ⟨k',h1,h2,h3⟩ := ih (⟨.left,c,y,r⟩::k) l
          ((focus_cons k .left c l r y).mp h)
          (by intro f hf'; rcases List.mem_cons.mp hf' with rfl | hf'
              · simp [hle]
              · exact hd f hf') hsz.1
        exact ⟨k',by rw [hrun, if_pos hle]; exact h1,h2,h3⟩
      · obtain ⟨k',h1,h2,h3⟩ := ih (⟨.right,c,y,l⟩::k) r
          ((focus_cons k .right c r l y).mp h)
          (by intro f hf'; rcases List.mem_cons.mp hf' with rfl | hf'
              · simp [hle]
              · exact hd f hf') hsz.2
        exact ⟨k',by rw [hrun, if_neg hle]; exact h1,h2,h3⟩


/-- The state after `place` put the node `a` into the hole of `k`: nothing is marked yet. -/
structure Placed (s s' : State T V) (k : Ctx (ℕ × T)) (a : ℕ) (v : T) : Prop where
  focus : s'.graph.Focus k (node .red leaf (a,v) leaf)
  get : ∀ b, b ≠ a → k.above ≠ some b → s'.heap.get? b = s.heap.get? b
  aug : ∀ b, b ≠ a → s'.heap.aug b = s.heap.aug b
  augSelf : s'.heap.aug a = none
  parent : ∀ b, b ≠ a → s'.graph.parent b = s.graph.parent b
  value : s'.graph.value = s.graph.value
  length : s'.heap.cells.length = s.heap.cells.length
  stops : s'.stops = s.stops

lemma Link.write_ok {k : Ctx (ℕ × T)} {a : ℕ} (h : s.graph.Focus k leaf) (hp : s.graph.parent a = k.above)
    (ha : a ∉ k.ids) : ∃ s', (Link.ofCtx k).write (some a) s = .ok ((),s') ∧
      s'.graph = s.graph.setHole k (some a) ∧
      (∀ b, k.above ≠ some b → s'.heap.get? b = s.heap.get? b) ∧
      (∀ b, s'.heap.aug b = s.heap.aug b) ∧ s'.heap.cells.length = s.heap.cells.length ∧
      s'.stops = s.stops := by
  cases k with
  | nil =>
    refine ⟨{ s with head := some a },rfl,?_,fun _ _ => rfl,fun _ => rfl,rfl,rfl⟩
    exact (setParent_eq_self (g := { s.graph with head := some a }) hp).symm
  | cons f k =>
    obtain ⟨n,hn,_⟩ := graph_value_some h.ctx.2.2.2.1
    refine ⟨_,Rbtree.write_ok hn _,?_,fun b hb => ?_,fun b => ?_,by simp,rfl⟩
    · rw [graph_put_child hn]
      exact (setParent_eq_self (g := s.graph.setLink f.key.1 f.dir (some a)) hp).symm
    · rw [put_get hn, if_neg (by rintro rfl; exact hb rfl)]
    · rw [put_aug hn]
      split
      · next hb => rw [hb, aug_eq hn, withChild_augment]
      · rfl

theorem place_ends (cmp : T → T → Ordering) {t : CTree (ℕ × T)} {a : ℕ} {n : RbNode T V}
    (h : s.graph.Focus [] t) (hn : s.heap.get? a = some n) (ha : a ∉ t.ids) :
    Ends (place (some a) cmp) s fun _ s' => ∃ k, k.fill leaf = t ∧ Descends cmp n.value k ∧
      Placed s s' k a n.value := by
  set n1 : RbNode T V := { n with color := .red, left := none, right := none, augment := none } with hn1
  set s1 := s.put a n1
  have hg1 : s1.heap.get? a = some n1 := by rw [put_get hn, if_pos rfl]
  have hf1 : s1.graph.Focus [] t := by
    refine h.congr_away rfl fun i hi => ?_
    have hia : i ≠ a := by rintro rfl; exact ha hi
    exact ⟨by rw [put_color hn, if_neg hia],by rw [put_value hn, if_neg hia],
      by rw [put_parent hn, if_neg hia],by funext d; rw [put_child hn, if_neg hia]⟩
  have hsz : t.size < s1.heap.bound := by
    have := Focus.size_le hf1
    simp only [Heap.bound]
    omega
  obtain ⟨k,hk,hfill,hd⟩ := placeLoop_ok cmp hg1 s1.heap.bound [] t hf1 (by simp [Descends]) hsz
  set s2 := s1.put a { n1 with parent := k.above }
  have hf2 : s2.graph.Focus k leaf := by
    refine Focus.of_root (hfill ▸ hf1.congr_away rfl fun i hi => ?_)
    have hia : i ≠ a := by rintro rfl; exact ha hi
    exact ⟨by rw [put_color hg1, if_neg hia],by rw [put_value hg1, if_neg hia],
      by rw [put_parent hg1, if_neg hia],by funext d; rw [put_child hg1, if_neg hia]⟩
  have hpar : s2.graph.parent a = k.above := by rw [put_parent hg1, if_pos rfl]
  have hak : a ∉ k.ids := by
    intro hi
    refine ha ?_
    rw [← show k.fill leaf = t from hfill]
    exact (Ctx.mem_ids_fill _ _ _).mpr (Or.inl hi)
  obtain ⟨s3,hw,hgr,hget,haug,hlen,hst⟩ := Link.write_ok hf2 hpar hak
  have hval : s3.graph.value = s.graph.value := by
    rw [hgr, setHole_value]
    funext b
    rw [put_value hg1, put_value hn]
    split
    · next hb => rw [hb, graph_value hn]
    · rfl
  refine Ends.bind_eq (write_ok hn _) (Ends.bind_get (Ends.bind_eq hk
    (Ends.bind_eq (write_ok hg1 _) ⟨(),s3,hw,k,hfill,hd,?_⟩)))
  refine ⟨?_,fun b hb hb' => ?_,fun b hb => ?_,?_,fun b hb => ?_,hval,?_,hst⟩
  · rw [hgr]
    refine hf2.setHole (q := k.above) ?_ (by simp) (by simpa using hak)
    refine ⟨rfl,hpar,by rw [put_color hg1, if_pos rfl],?_,?_,?_⟩
    · rw [put_value hg1, if_pos rfl]
    · rw [put_child hg1, if_pos rfl]; rfl
    · rw [put_child hg1, if_pos rfl]; rfl
  · rw [hget b hb', put_get hg1, if_neg hb, put_get hn, if_neg hb]
  · rw [haug, put_aug hg1, if_neg hb, put_aug hn, if_neg hb]
  · rw [haug, put_aug hg1, if_pos rfl]
  · rw [hgr, setHole_parent, if_neg (by simpa using hb), put_parent hg1, if_neg hb, put_parent hn,
      if_neg hb]
  · rw [hlen, put_length, put_length]

/-- After the parent of the placed node is marked too, the operation is a step like any other. -/
lemma Placed.mark {s' s'' : State T V} {k : Ctx (ℕ × T)} {t : CTree (ℕ × T)} {a : ℕ} {v : T}
    (hp : Placed s s' k a v) (hk : k.fill leaf = t) (ha : a ∉ t.ids)
    (hm : Marks (insert a {i | i ∈ t.ids}) s' s'') (hd : ∀ b, k.above = some b → s''.heap.aug b = none) :
    Step (insert a {i | i ∈ t.ids}) s s'' := by
  have hab : ∀ b, k.above = some b → b ∈ t.ids := by
    intro b hb
    rw [← hk, Ctx.mem_ids_fill]
    cases k with
    | nil => simp at hb
    | cons f k => left; simp at hb; simp [hb]
  refine ⟨fun b hb => ?_,fun b _ => ?_,fun b hb w hw => ?_,hm.length.trans hp.length⟩
  · simp only [Set.mem_insert_iff, Set.mem_ofPred_eq, not_or] at hb
    rw [hm.frame b (by simpa using hb), hp.get b hb.1 fun h => hb.2 (hab b h)]
  · rw [hm.graph, hp.value]
  · have h1 := hm.clean b w hw
    have hba : b ≠ a := by rintro rfl; rw [hp.augSelf] at h1; simp at h1
    refine ⟨hp.aug b hba ▸ h1,?_⟩
    have hbk : k.above ≠ some b := fun h => by rw [hd b h] at hw; simp at hw
    have hget := hp.get b hba hbk
    rw [hm.graph]
    funext d
    simp [RbTree.graph, hget]


lemma recolor_spec {k : Ctx (ℕ × T)} {t : CTree (ℕ × T)} {n a : ℕ} (h : RedHole s.graph k t n)
    (ha : t.ptr = some a) (hS : Within S k t) :
    Spec S (recolor (some a)) s fun w s' => ∃ k' t' n',
      RedHole s'.graph k' t' n' ∧ w = t'.ptr ∧ (k'.fill t').toList = (k.fill t).toList ∧
      ∀ p g k'', k' = p::g::k'' → p.color = .red → g.other.color = .black := by
  refine Spec.bind_get (recolorLoop_spec _ k t n a s h ha hS ?_)
  have h1 := Focus.size_le h.focus.to_root
  have h2 := Ctx.length_le_size_fill k t
  simp only [Heap.bound]
  omega

/-- The part of an insertion after the node is placed and marked. -/
lemma rebalance_spec {k : Ctx (ℕ × T)} {t : CTree (ℕ × T)} {n a : ℕ} (h : RedHole s.graph k t n)
    (ha : t.ptr = some a) (hS : Within S k t) :
    Spec S (do
      let wNode ← recolor (some a)
      if (← color (← deref wNode).parent) = .red then rotate wNode : M T V Unit) s fun _ s' =>
      ∃ t' m, s'.graph.Focus [] t' ∧ t'.Balanced m ∧ t'.toList = (k.fill t).toList := by
  refine Spec.bind (recolor_spec h ha hS) ?_
  rintro w s1 ⟨k1,t1,n1,h1,rfl,hl,hstop⟩
  have hS1 : Within S k1 t1 := fun i hi => hS i (by rw [CTree.ids, ← hl]; exact hi)
  obtain ⟨c,l,x,r,rfl⟩ : ∃ c l x r, t1 = node c l x r := by
    cases t1 with
    | leaf => exact absurd h1.red (by simp)
    | node c l x r => exact ⟨c,l,x,r,rfl⟩
  have hx : x.1 ∈ S := hS1 _ ((Ctx.mem_ids_fill _ _ _).mpr (by simp))
  refine Spec.bind_deref hx fun m hm => ?_
  rw [← graph_parent hm, h1.focus.parent_eq]
  cases k1 with
  | nil =>
    refine Spec.bind_color (by simp) (Spec.pure ?_)
    exact ⟨_,n1,h1.focus,h1.tree,hl⟩
  | cons f k1 =>
    have hf : f.key.1 ∈ S := hS1 _ ((Ctx.mem_ids_fill _ _ _).mpr (by simp))
    have hcol : s1.graph.color f.key.1 = f.color := h1.focus.ctx.2.2.1
    refine Spec.bind_color (by simpa using hf) ?_
    rw [Ctx.above_cons, Option.elim_some, hcol]
    cases hfc : f.color with
    | red =>
      rw [if_pos rfl]
      refine (rotate_spec h1 rfl hS1 hfc fun g k' hk => hstop f g k' (by rw [hk]) hfc).mono ?_
      rintro _ s2 ⟨t',m',h2,h3,h4⟩
      exact ⟨t',m',h2,h3,h4.trans hl⟩
    | black =>
      rw [if_neg (by simp)]
      obtain ⟨m',hm'⟩ := (Ctx.balanced_fill (f::k1) (node c l x r)).mpr
        ⟨n1,h1.tree,h1.ctx.any_of_top _ (by simpa using hfc)⟩
      exact Spec.pure ⟨_,m',h1.focus.to_root,hm',hl⟩

/-- Linking a node into a red-black tree gives a red-black tree: in order, the new node is put
where the walk of `place` ended. -/
theorem insertLink_ends (cmp : T → T → Ordering) {t : CTree (ℕ × T)} {a m : ℕ} {n : RbNode T V}
    (h : s.graph.Focus [] t) (hb : t.Balanced m) (hg : Good {i | i ∈ t.ids} s)
    (hn : s.heap.get? a = some n) (ha : a ∉ t.ids) :
    Ends (insertLink (some a) cmp) s fun _ s' =>
      Step (insert a {i | i ∈ t.ids}) s s' ∧ Good (insert a {i | i ∈ t.ids}) s' ∧
      s'.heap.aug a = none ∧ ∃ k t' m', k.fill leaf = t ∧ Descends cmp n.value k ∧ s'.graph.Focus [] t' ∧
        t'.Balanced m' ∧ t'.toList = k.before ++ (a,n.value)::k.after := by
  refine (place_ends cmp h hn ha).bind ?_
  rintro _ s3 ⟨k,hk,hd,hp⟩
  have hkin : ∀ i ∈ k.ids, i ∈ t.ids := fun i hi => by
    rw [← hk, Ctx.mem_ids_fill]; exact Or.inl hi
  have habove : ∀ b, k.above = some b → b ∈ t.ids := fun b hb => by
    refine hkin b ?_
    cases k with
    | nil => simp at hb
    | cons f k => simp at hb; simp [hb]
  obtain ⟨n3,hn3,_⟩ := graph_value_some hp.focus.tree.2.2.2.1
  have hpar : n3.parent = k.above := (graph_parent hn3).symm.trans hp.focus.parent_eq
  refine Ends.bind_eq (deref_ok hn3) ?_
  have hgb : GoodBut (insert a {i | i ∈ t.ids}) n3.parent s3 := by
    rw [hpar]
    refine ⟨?_,?_,?_,hp.stops ▸ hg.stops⟩
    · rintro b (rfl | hb')
      · exact ⟨n3,hn3⟩
      · obtain ⟨nb,hnb⟩ := hg.live b hb'
        have hv : s3.graph.value b = some nb.value := by rw [hp.value, graph_value hnb]
        obtain ⟨w,hw,_⟩ := graph_value_some hv
        exact ⟨w,hw⟩
    · rintro b (rfl | hb') e he
      · rw [hp.focus.parent_eq] at he
        exact Or.inr (habove e he)
      · have hba : b ≠ a := by rintro rfl; exact ha hb'
        rw [hp.parent b hba] at he
        exact Or.inr (hg.parent b hb' e he)
    · rintro b (rfl | hb') e he hbd
      · rw [hp.focus.parent_eq] at he
        exact Or.inr he
      · have hba : b ≠ a := by rintro rfl; exact ha hb'
        rw [hp.parent b hba] at he
        have hea : e ≠ a := by rintro rfl; exact ha (hg.parent b hb' _ he)
        rw [hp.aug b hba] at hbd
        rw [hp.aug e hea]
        exact Or.inl ((hg.closed b hb' e he hbd).elim id (by simp))
  refine (markDirty_ends hgb fun b hb' => Or.inr (habove b (hpar ▸ hb'))).bind ?_
  rintro _ s4 ⟨hm4,hg4,hd4⟩
  have hstep := hp.mark hk ha hm4 fun b hb' => hd4 b (hpar.trans hb')
  obtain ⟨n0,hn0,hctx⟩ := (Ctx.balanced_fill k leaf).mp ⟨m,hk ▸ hb⟩
  obtain rfl : n0 = 0 := hn0
  have hred : RedHole s4.graph k (node .red leaf (a,n.value) leaf) 0 :=
    ⟨hm4.graph ▸ hp.focus,rfl,by simp,hctx⟩
  have hw : Within (insert a {i | i ∈ t.ids}) k (node .red leaf (a,n.value) leaf) := by
    intro i hi
    rcases (Ctx.mem_ids_fill _ _ _).mp hi with hi | hi
    · exact Or.inr (hkin i hi)
    · simp at hi; exact Or.inl hi
  refine (rebalance_spec hred rfl hw hg4).mono ?_
  rintro _ s5 ⟨h1,h2,t',m',h3,h4,h5⟩
  have hdirty : s5.heap.aug a = none := by
    cases hv : s5.heap.aug a with
    | none => rfl
    | some v =>
      have h4 := (h1.clean a (Or.inl rfl) v hv).1
      have h3 := hm4.clean a v h4
      rw [hp.augSelf] at h3
      exact h3.symm
  refine ⟨hstep.trans h1,h2,hdirty,k,t',m',hk,hd,h3,h4,?_⟩
  rw [h5, Ctx.toList_fill]
  simp

end Lilith.Rbtree
