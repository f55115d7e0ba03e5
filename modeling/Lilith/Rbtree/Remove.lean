import Lilith.Rbtree.Insert

/-! Removal keeps a tree a red-black tree. `unplace` takes a node with at most one child out of
its place; a node with two children changes places with its successor first. When the removed
colour is black and no red child can take it over, the place is one black node short, and the
fix-up loop moves that deficit up until a rotation or a red parent makes up for it. -/
namespace Lilith.Rbtree
open Theory PtrGraph CTree

variable {T V : Type} {S : Set ℕ} {s s' : State T V} {α β : Type}

/-- Exchanging the colours of two nodes. -/
theorem swapColors_spec {a b : ℕ} (ha : a ∈ S) (hb : b ∈ S) :
    Spec S (swapColors (some a) (some b) : M T V Unit) s fun _ s' =>
      s'.graph = (s.graph.setColor a (s.graph.color b)).setColor b (s.graph.color a) := by
  refine Spec.bind_deref ha fun n hn => Spec.bind_deref hb fun m hm => ?_
  refine Spec.bind (Spec.setColor ha _) fun _ s1 h1 => (Spec.setColor hb _).mono fun _ s2 h2 => ?_
  rw [h2, h1, graph_color hn, graph_color hm]

/-- The situation in the fix-up loop: the black subtree in the hole has one black node less on
each path than the context asks for. -/
structure Deficit (g : PtrGraph ℕ T) (k : Ctx (ℕ × T)) (t : CTree (ℕ × T)) (n : ℕ) : Prop where
  focus : g.Focus k t
  black : t.color = .black
  tree : t.Balanced n
  ctx : k.Balanced .black (n+1)

namespace Deficit
variable {g : PtrGraph ℕ T} {d : Direction} {c : Color} {x : ℕ × T} {o t : CTree (ℕ × T)}
  {k : Ctx (ℕ × T)} {n : ℕ}

/-- The sibling of the hole has a black node on each path, so it is not empty. -/
lemma sibling_balanced (h : Deficit g (⟨d,c,x,o⟩::k) t n) : o.Balanced (n+1) := by
  cases c with
  | red => exact h.ctx.2.2.1
  | black => exact h.ctx.1

lemma join_focus (h : Deficit g (⟨d,c,x,o⟩::k) t n) : g.Focus k (join d c t x o) :=
  (focus_cons _ _ _ _ _ _).mpr h.focus

lemma sibling_ptr (h : Deficit g (⟨d,c,x,o⟩::k) t n) : g.child x.1 d.not = o.ptr :=
  h.focus.ctx.2.2.2.2.1.ptr_eq

end Deficit

/-- The nodes of a rotated subtree are the same. -/
lemma toList_rotate (d : Direction) (cx cy cx' cy' : Color) (a b e : CTree (ℕ × T)) (x y : ℕ × T) :
    (join d cy' (join d cx' a x b) y e).toList = (join d cx a x (join d cy b y e)).toList := by
  cases d <;> simp [join]

/-- After the first case the sibling is black. The hole moves down below a red parent when the
sibling was red. -/
lemma fixupRedSibling_spec {d : Direction} {c : Color} {x : ℕ × T} {o t : CTree (ℕ × T)}
    {k : Ctx (ℕ × T)} {n : ℕ} (h : Deficit s.graph (⟨d,c,x,o⟩::k) t n)
    (hS : Within S (⟨d,c,x,o⟩::k) t) :
    Spec S (fixupRedSibling (some x.1) o.ptr d) s fun w s' => ∃ (c' : Color) (o' : CTree (ℕ × T))
      (k' : Ctx (ℕ × T)), Deficit s'.graph (⟨d,c',x,o'⟩::k') t n ∧ w = o'.ptr ∧ o'.color = .black ∧
      (Ctx.fill (⟨d,c',x,o'⟩::k') t).toList = (Ctx.fill (⟨d,c,x,o⟩::k) t).toList ∧
      (c' = .black → k' = k) := by
  have hin : ∀ i ∈ (join d c t x o).ids, i ∈ S := fun i hi =>
    hS i ((Ctx.mem_ids_fill k _ _).mpr (Or.inr hi))
  have hcol : o.ptr.elim .black s.graph.color = o.color := by
    rw [← h.sibling_ptr]; exact h.focus.ctx.2.2.2.2.1.color_eq
  refine Spec.bind_color (fun i hi => hin i (by simp [mem_ids_of_ptr hi])) ?_
  rw [hcol]
  cases hoc : o.color with
  | black =>
    rw [if_neg (by simp)]
    exact Spec.pure ⟨c,o,k,h,rfl,hoc,rfl,fun _ => rfl⟩
  | red =>
    rw [if_pos rfl]
    obtain ⟨oc,i,y,u,rfl⟩ := exists_join d h.sibling_balanced.ne_leaf
    obtain rfl : oc = .red := by simpa using hoc
    obtain ⟨hi,hu,hbi,hbu⟩ := (balanced_join_red _ _ _ _ _).mp h.sibling_balanced
    -- a red node has a black parent
    cases c with
    | red => exact absurd h.ctx.2.1 (by simp)
    | black =>
      have hx : x.1 ∈ S := hin _ (by simp)
      have hy : y.1 ∈ S := hin _ (by simp)
      obtain ⟨_,_,hcy,_,hri,_⟩ := (repr_join _ _ _ _ _ _ _).mp h.focus.ctx.2.2.2.2.1
      rw [ptr_join]
      refine Spec.bind_deref hy fun m hm => ?_
      have hmi : m.child d = i.ptr := (graph_child hm d).symm.trans hri.ptr_eq
      rw [hmi]
      refine Spec.bind (replaceNode_spec h.join_focus (by simp) hS (by rintro j ⟨⟩; exact hy))
        fun _ s1 h1 => ?_
      refine rotateLinks_spec h.join_focus h1 hS rfl rfl fun s2 h2 => ?_
      refine Spec.bind (swapColors_spec hy hx) fun _ s3 h3 => Spec.pure ?_
      have hcx2 : s2.graph.color x.1 = .black :=
        ((repr_join _ _ _ _ _ _ _).mp ((repr_join _ _ _ _ _ _ _).mp h2.tree).2.2.2.2.1).2.2.1
      have hcy2 : s2.graph.color y.1 = .red := ((repr_join _ _ _ _ _ _ _).mp h2.tree).2.2.1
      rw [hcx2, hcy2] at h3
      have h4 : (s2.graph.setColor y.1 .black).Focus k
          (Ctx.fill [⟨d,.black,y,u⟩] (join d .black t x i)) := h2.setColor .black
      have h5 := h4.setColor_fill .red
      rw [← h3, Ctx.fill_cons, Ctx.fill_nil, focus_cons, focus_cons] at h5
      refine ⟨.red,i,⟨d,.black,y,u⟩::k,⟨h5,h.black,h.tree,rfl,hi,hbi,hbu,h.ctx.2⟩,rfl,hi,?_,
        by simp⟩
      simp only [Ctx.fill_cons, Ctx.toList_fill, toList_rotate d .black .red .red .black]

/-- The sibling of the hole with its children: the sibling is black and its outer child is red. -/
structure OuterRed (g : PtrGraph ℕ T) (d : Direction) (c : Color) (x y : ℕ × T)
    (t i u : CTree (ℕ × T)) (k : Ctx (ℕ × T)) (n : ℕ) : Prop where
  deficit : Deficit g (⟨d,c,x,join d .black i y u⟩::k) t n
  outer : u.color = .red

/-- A red inner child and a black outer one are rotated into a black inner and a red outer one. -/
lemma fixupInner_spec {d : Direction} {c : Color} {x y : ℕ × T} {t i u : CTree (ℕ × T)}
    {k : Ctx (ℕ × T)} {n : ℕ} (h : Deficit s.graph (⟨d,c,x,join d .black i y u⟩::k) t n)
    (hS : Within S (⟨d,c,x,join d .black i y u⟩::k) t) (hr : i.color = .red ∨ u.color = .red) :
    Spec S (fixupInner (some x.1) (some y.1) d) s fun w s' => ∃ y' i' u',
      w = some y'.1 ∧ OuterRed s'.graph d c x y' t i' u' k n ∧
      (Ctx.fill (⟨d,c,x,join d .black i' y' u'⟩::k) t).toList =
        (Ctx.fill (⟨d,c,x,join d .black i y u⟩::k) t).toList := by
  have hin : ∀ j ∈ (join d c t x (join d .black i y u)).ids, j ∈ S := fun j hj =>
    hS j ((Ctx.mem_ids_fill k _ _).mpr (Or.inr hj))
  have hx : x.1 ∈ S := hin _ (by simp)
  have hy : y.1 ∈ S := hin _ (by simp)
  obtain ⟨_,_,hcy,_,hri,hru⟩ := (repr_join _ _ _ _ _ _ _).mp h.focus.ctx.2.2.2.2.1
  refine Spec.bind_deref hy fun m hm => ?_
  rw [← graph_child hm, ← graph_child hm, hri.ptr_eq, hru.ptr_eq]
  refine Spec.bind_color (fun j hj => hin j (by simp [mem_ids_of_ptr hj])) ?_
  rw [← hru.ptr_eq, hru.color_eq]
  cases huc : u.color with
  | red =>
    rw [if_neg (by simp)]
    exact Spec.pure ⟨y,i,u,rfl,⟨h,huc⟩,rfl⟩
  | black =>
    rw [if_pos rfl]
    have hic : i.color = .red := hr.resolve_right (by simp [huc])
    obtain ⟨ic,e,z,w,rfl⟩ := exists_join d.not (t := i) (by rintro rfl; simp at hic)
    obtain rfl : ic = .red := by simpa using hic
    obtain ⟨n',hn,hbi,hbu⟩ := (balanced_join_black _ _ _ _ _).mp h.sibling_balanced
    obtain rfl : n = n' := by omega
    obtain ⟨hec,hwc,hbe,hbw⟩ := (balanced_join_red _ _ _ _ _).mp hbi
    obtain ⟨_,_,_,_,hre,_⟩ := (repr_join _ _ _ _ _ _ _).mp hri
    have hz : z.1 ∈ S := hin _ (by simp)
    -- the same tree, seen from the sibling
    have hfoc : s.graph.Focus (⟨d.not,c,x,t⟩::k)
        (join d.not .black u y (join d.not .red e z w)) := by
      rw [← focus_cons, join_not d .black, join_not]; exact h.join_focus
    have hS' : Within S (⟨d.not,c,x,t⟩::k)
        (join d.not .black u y (join d.not .red e z w)) := by
      rw [Within, Ctx.fill_cons, join_not d .black, join_not]; exact hS
    rw [ptr_join]
    refine Spec.bind_deref hz fun mz hmz => ?_
    rw [← graph_child hmz, hre.ptr_eq]
    refine Spec.bind (Spec.setChild hx d.not (by rintro j ⟨⟩; exact hz)) fun _ s1 h1 => ?_
    refine rotateLinks_spec hfoc h1 hS' (by simp) rfl fun s2 h2 => ?_
    refine Spec.bind (swapColors_spec hy hz) fun _ s3 h3 => Spec.pure ?_
    have hcz2 : s2.graph.color z.1 = .red := ((repr_join _ _ _ _ _ _ _).mp h2.tree).2.2.1
    have hcy2 : s2.graph.color y.1 = .black :=
      ((repr_join _ _ _ _ _ _ _).mp ((repr_join _ _ _ _ _ _ _).mp h2.tree).2.2.2.2.1).2.2.1
    rw [hcz2, hcy2] at h3
    have h4 : s2.graph.Focus (⟨d.not,c,x,t⟩::k) (Ctx.fill [⟨d.not,.red,z,w⟩]
        (join d.not .black u y e)) := h2
    have h5 := (h4.setColor_fill .red).setColor .black
    rw [← h3, ← focus_cons, join_not, join_not] at h5
    refine ⟨z,w,join d.not .red u y e,rfl,⟨⟨(focus_cons _ _ _ _ _ _).mp h5,h.black,h.tree,?_⟩,
      by simp⟩,?_⟩
    · have hb : (join d .black w z (join d.not .red u y e)).Balanced (n+1) := by
        simp [hbw, hbu, hbe, huc, hec]
      cases c with
      | red => exact ⟨rfl,by simp,hb,h.ctx.2.2.2⟩
      | black => exact ⟨hb,h.ctx.2⟩
    · simp only [Ctx.fill_cons, Ctx.toList_fill]
      cases d <;> simp [join, Direction.not]

/-- Rotating the sibling to the top makes up for the deficit. -/
lemma fixupOuter_spec {d : Direction} {c : Color} {x y : ℕ × T} {t i u : CTree (ℕ × T)}
    {k : Ctx (ℕ × T)} {n : ℕ} (h : OuterRed s.graph d c x y t i u k n)
    (hS : Within S (⟨d,c,x,join d .black i y u⟩::k) t) :
    Spec S (fixupOuter (some x.1) (some y.1) d) s fun _ s' => ∃ t' m, s'.graph.Focus [] t' ∧
      t'.Balanced m ∧ t'.toList = (Ctx.fill (⟨d,c,x,join d .black i y u⟩::k) t).toList := by
  have hin : ∀ j ∈ (join d c t x (join d .black i y u)).ids, j ∈ S := fun j hj =>
    hS j ((Ctx.mem_ids_fill k _ _).mpr (Or.inr hj))
  have hx : x.1 ∈ S := hin _ (by simp)
  have hy : y.1 ∈ S := hin _ (by simp)
  obtain ⟨_,_,_,_,hri,hru⟩ := (repr_join _ _ _ _ _ _ _).mp h.deficit.focus.ctx.2.2.2.2.1
  obtain ⟨n',hn,hbi,hbu⟩ := (balanced_join_black _ _ _ _ _).mp h.deficit.sibling_balanced
  obtain rfl : n = n' := by omega
  obtain ⟨uc,ul,z,ur,rfl⟩ := exists_join d (t := u) (by rintro rfl; simpa using h.outer)
  obtain rfl : uc = .red := by simpa using h.outer
  have hz : z.1 ∈ S := hin _ (by simp)
  refine Spec.bind_deref hy fun m hm => ?_
  rw [← graph_child hm, ← graph_child hm, hri.ptr_eq, hru.ptr_eq]
  refine Spec.bind (replaceNode_spec h.deficit.join_focus (by simp) hS (by rintro j ⟨⟩; exact hy))
    fun _ s1 h1 => ?_
  refine rotateLinks_spec h.deficit.join_focus h1 hS rfl rfl fun s2 h2 => ?_
  refine Spec.bind_deref hx fun p hp => ?_
  have hpc : p.color = c := (graph_color hp).symm.trans
    ((repr_join _ _ _ _ _ _ _).mp ((repr_join _ _ _ _ _ _ _).mp h2.tree).2.2.2.2.1).2.2.1
  rw [hpc, ptr_join]
  refine Spec.bind (Spec.setColor hy _) fun _ s3 h3 => Spec.bind (Spec.setColor hx _)
    fun _ s4 h4 => (Spec.setColor hz _).mono fun _ s5 h5 => ?_
  have f3 : s3.graph.Focus k (Ctx.fill [⟨d,c,y,join d .red ul z ur⟩] (join d c t x i)) :=
    h3 ▸ h2.setColor c
  have f4 : s4.graph.Focus k (join d c (join d .black t x i) y (join d .red ul z ur)) :=
    h4 ▸ f3.setColor_fill .black
  have f4' : s4.graph.Focus k (Ctx.fill [⟨d.not,c,y,join d .black t x i⟩] (join d .red ul z ur)) := by
    rw [Ctx.fill_cons, Ctx.fill_nil, join_not]; exact f4
  have f5 : s5.graph.Focus k (Ctx.fill [⟨d.not,c,y,join d .black t x i⟩] (join d .black ul z ur)) :=
    h5 ▸ f4'.setColor_fill .black
  rw [Ctx.fill_cons, Ctx.fill_nil, join_not] at f5
  obtain ⟨hul,hur,hbul,hbur⟩ := (balanced_join_red _ _ _ _ _).mp hbu
  have hbal : ∃ m', (k.fill (join d c (join d .black t x i) y (join d .black ul z ur))).Balanced m' := by
    refine (Ctx.balanced_fill k _).mpr ?_
    cases c with
    | red => exact ⟨n+1,by simp [h.deficit.tree, hbi, hbul, hbur],by simpa using h.deficit.ctx.2.2.2⟩
    | black => exact ⟨n+2,by simp [h.deficit.tree, hbi, hbul, hbur],by simpa using h.deficit.ctx.2⟩
  obtain ⟨m',hm'⟩ := hbal
  refine ⟨_,m',f5.to_root,hm',?_⟩
  simp only [Ctx.fill_cons, Ctx.toList_fill]
  cases d <;> simp [join]

/-- The fix-up loop ends in a red-black tree. -/
lemma removeFixupLoop_spec (fuel : ℕ) (d : Direction) (c : Color) (x : ℕ × T) (o t : CTree (ℕ × T))
    (k : Ctx (ℕ × T)) (n : ℕ) (s : State T V) (h : Deficit s.graph (⟨d,c,x,o⟩::k) t n)
    (hS : Within S (⟨d,c,x,o⟩::k) t) (hf : k.length < fuel) :
    Spec S (removeFixupLoop fuel (some x.1) d) s fun _ s' => ∃ t' m, s'.graph.Focus [] t' ∧
      t'.Balanced m ∧ t'.toList = (Ctx.fill (⟨d,c,x,o⟩::k) t).toList := by
  induction fuel generalizing d c x o t k n s with
  | zero => omega
  | succ fuel ih =>
    have hx : x.1 ∈ S := hS _ ((Ctx.mem_ids_fill _ _ _).mpr (by simp))
    refine Spec.bind_deref hx fun m hm => ?_
    rw [← graph_child hm, h.sibling_ptr]
    refine Spec.bind (fixupRedSibling_spec h hS) ?_
    rintro w s1 ⟨c1,o1,k1,h1,rfl,hoc,hl,hk⟩
    rw [← hl]
    have hS1 : Within S (⟨d,c1,x,o1⟩::k1) t := fun j hj => hS j (by rw [CTree.ids, ← hl]; exact hj)
    obtain ⟨oc,i,y,u,rfl⟩ := exists_join d h1.sibling_balanced.ne_leaf
    obtain rfl : oc = .black := by simpa using hoc
    have hin : ∀ j ∈ (join d c1 t x (join d .black i y u)).ids, j ∈ S := fun j hj =>
      hS1 j ((Ctx.mem_ids_fill k1 _ _).mpr (Or.inr hj))
    have hy : y.1 ∈ S := hin _ (by simp)
    obtain ⟨_,_,_,_,hri,hru⟩ := (repr_join _ _ _ _ _ _ _).mp h1.focus.ctx.2.2.2.2.1
    rw [ptr_join]
    refine Spec.bind_deref hy fun my hmy => ?_
    rw [← graph_left hmy, ← graph_right hmy]
    have hchild : ∀ e j, s1.graph.child y.1 e = some j → j ∈ S := by
      intro e j hj
      rcases Direction.eq_or_eq_not d e with rfl | rfl
      · exact hin j (by simp [mem_ids_of_ptr (hri.ptr_eq ▸ hj)])
      · exact hin j (by simp [mem_ids_of_ptr (hru.ptr_eq ▸ hj)])
    refine Spec.bind_color (hchild .left) (Spec.bind_color (hchild .right) ?_)
    -- the two children of the sibling by side are the inner and the outer one
    have hboth : ((s1.graph.child y.1 .left).elim .black s1.graph.color = .black ∧
        (s1.graph.child y.1 .right).elim .black s1.graph.color = .black) ↔
        i.color = .black ∧ u.color = .black := by
      rw [← hri.color_eq, ← hru.color_eq]
      cases d with
      | left => rfl
      | right => exact and_comm
    obtain ⟨n',hn,hbi,hbu⟩ := (balanced_join_black _ _ _ _ _).mp h1.sibling_balanced
    obtain rfl : n = n' := by omega
    by_cases hcase : i.color = .black ∧ u.color = .black
    · rw [if_pos (hboth.mpr hcase)]
      refine Spec.bind (Spec.setColor hy _) fun _ s2 h2 => ?_
      have f1 : s1.graph.Focus k1 (Ctx.fill [⟨d.not,c1,x,t⟩] (join d .black i y u)) := by
        rw [Ctx.fill_cons, Ctx.fill_nil, join_not]; exact h1.join_focus
      have f2 : s2.graph.Focus k1 (join d c1 t x (join d .red i y u)) := by
        rw [h2, ← join_not]; exact f1.setColor_fill .red
      have hbr : (join d .red i y u).Balanced n := by simp [hcase, hbi, hbu]
      refine Spec.bind_color (by rintro j ⟨⟩; exact hx) ?_
      rw [Option.elim_some, ((repr_join _ _ _ _ _ _ _).mp f2.tree).2.2.1]
      have hlist : ∀ c', (k1.fill (join d c' t x (join d .red i y u))).toList =
          (Ctx.fill (⟨d,c1,x,join d .black i y u⟩::k1) t).toList := by
        intro c'
        simp only [Ctx.fill_cons, Ctx.toList_fill]
        cases d <;> simp [join]
      cases c1 with
      | red =>
        rw [if_pos rfl]
        refine (Spec.setColor hx _).mono fun _ s3 h3 => ?_
        have f3 : s3.graph.Focus k1 (join d .black t x (join d .red i y u)) := h3 ▸ f2.setColor .black
        obtain ⟨m',hm'⟩ := (Ctx.balanced_fill k1 (join d .black t x (join d .red i y u))).mpr
          ⟨n+1,by simp [h1.tree, hcase, hbi, hbu],by simpa using h1.ctx.2.2.2.to_black⟩
        exact ⟨_,m',f3.to_root,hm',hlist .black⟩
      | black =>
        rw [if_neg (by simp)]
        have htree : (join d .black t x (join d .red i y u)).Balanced (n+1) := by
          simp [h1.tree, hcase, hbi, hbu]
        obtain rfl := hk rfl
        refine Spec.bind_deref hx fun p hp => ?_
        rw [← graph_parent hp, ((repr_join _ _ _ _ _ _ _).mp f2.tree).2.1]
        cases k1 with
        | nil => exact Spec.pure ⟨_,n+1,f2,htree,hlist .black⟩
        | cons f k1 =>
          obtain ⟨fd,fc,fx,fo⟩ := f
          have hfx : fx.1 ∈ S := hS1 _ ((Ctx.mem_ids_fill _ _ _).mpr (by simp))
          simp only [Ctx.above_cons, Option.isNone_some, Bool.false_eq_true, if_false]
          refine Spec.bind_childDir f2 (by simp) hfx ?_
          have hw : Within S (⟨fd,fc,fx,fo⟩::k1) (join d .black t x (join d .red i y u)) :=
            fun j hj => hS1 j (by rw [CTree.ids, ← hlist .black]; exact hj)
          refine (ih fd fc fx fo _ k1 (n+1) s2 ⟨f2,by simp,htree,h1.ctx.2⟩ hw
            (by simp at hf; omega)).mono ?_
          rintro _ s3 ⟨t',m',h3,h4,h5⟩
          exact ⟨t',m',h3,h4,h5.trans (hlist .black)⟩
    · rw [if_neg (mt hboth.mp hcase)]
      have hred : i.color = .red ∨ u.color = .red := by
        cases hi : i.color <;> cases hu : u.color <;> simp [hi, hu] at hcase ⊢
      refine Spec.bind (fixupInner_spec h1 hS1 hred) ?_
      rintro w s2 ⟨y2,i2,u2,rfl,h2,hl2⟩
      have hS2 : Within S (⟨d,c1,x,join d .black i2 y2 u2⟩::k1) t := fun j hj =>
        hS1 j (by rw [CTree.ids, ← hl2]; exact hj)
      refine (fixupOuter_spec h2 hS2).mono ?_
      rintro _ s3 ⟨t',m',h3,h4,h5⟩
      exact ⟨t',m',h3,h4,h5.trans hl2⟩

lemma removeFixup_spec {d : Direction} {c : Color} {x : ℕ × T} {o t : CTree (ℕ × T)}
    {k : Ctx (ℕ × T)} {n : ℕ} (h : Deficit s.graph (⟨d,c,x,o⟩::k) t n)
    (hS : Within S (⟨d,c,x,o⟩::k) t) :
    Spec S (removeFixup (some x.1) d) s fun _ s' => ∃ t' m, s'.graph.Focus [] t' ∧
      t'.Balanced m ∧ t'.toList = (Ctx.fill (⟨d,c,x,o⟩::k) t).toList := by
  refine Spec.bind_get (removeFixupLoop_spec _ d c x o t k n s h hS ?_)
  have h1 := Focus.size_le h.focus.to_root
  have h2 := Ctx.length_le_size_fill (⟨d,c,x,o⟩::k) t
  simp only [Heap.bound, List.length_cons] at h2 ⊢
  omega


/-- The place of a removed node of colour `c`: the subtree in the hole is the only child it had. -/
structure Spliced (g : PtrGraph ℕ T) (k : Ctx (ℕ × T)) (u : CTree (ℕ × T)) (c : Color) : Prop where
  focus : g.Focus k u
  tree : u.Balanced 0
  red : c = .red → u.color = .black ∧ k.Balanced .black 0
  black : c = .black → k.Balanced .black 1

/-- The balance left behind by a node with at most one child. -/
lemma Spliced.of_balanced {g : PtrGraph ℕ T} {k : Ctx (ℕ × T)} {d : Direction} {c : Color}
    {x : ℕ × T} {u : CTree (ℕ × T)} {n : ℕ} (h : g.Focus k u) (ht : (join d c leaf x u).Balanced n)
    (hk : k.Balanced c n) : Spliced g k u c := by
  cases c with
  | red =>
    obtain ⟨_,hu,hn,hb⟩ := (balanced_join_red _ _ _ _ _).mp ht
    obtain rfl : n = 0 := hn
    exact ⟨h,hb,fun _ => ⟨hu,hk.to_black⟩,by simp⟩
  | black =>
    obtain ⟨n',rfl,hn,hb⟩ := (balanced_join_black _ _ _ _ _).mp ht
    obtain rfl : n' = 0 := hn
    exact ⟨h,hb,by simp,fun _ => hk⟩

/-- A node with at most one child is replaced by that child. -/
lemma spliceOut_spec {k : Ctx (ℕ × T)} {d : Direction} {c : Color} {x : ℕ × T} {u : CTree (ℕ × T)}
    {n : ℕ} (h : s.graph.Focus k (join d c leaf x u)) (ht : (join d c leaf x u).Balanced n)
    (hk : k.Balanced c n) (hS : Within S k (join d c leaf x u)) :
    Spec S (do
      replaceNode (some x.1) u.ptr
      let n ← deref (some x.1)
      return (n.parent,n.child d.not,n.color) : M T V (Ptr × Ptr × Color)) s fun w s' =>
      w = (k.above,u.ptr,c) ∧ Spliced s'.graph k u c := by
  obtain ⟨_,hxp,hxc,_,_,hru⟩ := (repr_join _ _ _ _ _ _ _).mp h.tree
  obtain ⟨_,hnu,_,hxu,_⟩ := (nodup_ids_join _ _ _ _ _).mp h.nodup_tree
  have hin : ∀ i ∈ (join d c leaf x u).ids, i ∈ S := fun i hi =>
    hS i ((Ctx.mem_ids_fill _ _ _).mpr (Or.inr hi))
  have hx : x.1 ∈ S := hin _ (by simp)
  have hxk : x.1 ∉ k.ids := h.not_mem _ (by simp)
  refine Spec.bind (replaceNode_spec h (by simp) hS fun i hi => hin i (by simp [mem_ids_of_ptr hi]))
    fun _ s1 h1 => Spec.bind_deref hx fun m hm => Spec.pure ⟨?_,?_⟩
  · have hne : some x.1 ≠ u.ptr := fun he => hxu (mem_ids_of_ptr he.symm)
    rw [← graph_parent hm, ← graph_child hm, ← graph_color hm, h1, setHole_parent, if_neg hne, hxp,
      setHole_child_of_not_mem _ _ _ hxk, setHole_color, hxc, hru.ptr_eq]
  · refine Spliced.of_balanced ?_ ht hk
    rw [h1]
    rw [hru.ptr_eq] at hru
    exact h.setHole hru hnu fun i hi => h.not_mem i (by simp [hi])

/-- The walk to the lowest node of a tree goes left as long as there is a left child. -/
lemma leftmost_ok (fuel : ℕ) (t : CTree (ℕ × T)) (q : Option ℕ) (p : Ptr) (h : s.graph.Repr q p t)
    (ht : t ≠ leaf) (hf : t.size < fuel) : ∃ (k : Ctx (ℕ × T)) (c : Color) (y : ℕ × T)
      (r : CTree (ℕ × T)), s.heap.leftmost fuel p = .ok (some y.1) ∧
      t = k.fill (join .left c leaf y r) ∧ ∀ f ∈ k, f.dir = .left := by
  induction fuel generalizing t q p with
  | zero => omega
  | succ fuel ih =>
    cases t with
    | leaf => exact absurd rfl ht
    | node c l y r =>
      obtain ⟨rfl,_,_,hv,hl,_⟩ := h
      obtain ⟨m,hm,_⟩ := graph_value_some hv
      have hptr : m.left = l.ptr := (graph_left hm).symm.trans hl.ptr_eq
      rw [graph_left hm] at hl
      have hrun : s.heap.leftmost (fuel+1) (some y.1) =
          if m.left.isNone then .ok (some y.1) else s.heap.leftmost fuel m.left := by
        simp [Heap.leftmost, Heap.deref, hm]
        rfl
      cases hlc : l with
      | leaf =>
        rw [hlc] at hptr
        exact ⟨[],c,y,r,by rw [hrun, hptr]; rfl,rfl,by simp⟩
      | node lc ll lx lr =>
        rw [hlc] at hptr
        obtain ⟨k,c',y',r',h1,h2,h3⟩ := ih l _ _ hl (by simp [hlc])
          (by simp only [CTree.size] at hf; omega)
        refine ⟨k ++ [⟨.left,c,y,r⟩],c',y',r',?_,?_,?_⟩
        · rw [hrun, hptr, ← h1, hptr]; rfl
        · rw [Ctx.fill_append, ← h2, hlc]; rfl
        · intro f hf'
          rcases List.mem_append.mp hf' with hf' | hf'
          · exact h3 f hf'
          · rw [List.mem_singleton] at hf'; rw [hf']

/-- The successor below a node with a right subtree is the first node of that subtree. -/
lemma successorChild_ok {k : Ctx (ℕ × T)} {c : Color} {x : ℕ × T} {l r : CTree (ℕ × T)}
    (h : s.graph.Focus k (node c l x r)) (hr : r ≠ leaf) : ∃ (k' : Ctx (ℕ × T)) (c' : Color)
      (y : ℕ × T) (u : CTree (ℕ × T)), successorChild (some x.1) s = .ok (some y.1,s) ∧
      r = k'.fill (join .left c' leaf y u) ∧ ∀ f ∈ k', f.dir = .left := by
  obtain ⟨m,hm,_⟩ := graph_value_some h.tree.2.2.2.1
  have hrep := h.tree.2.2.2.2.2
  rw [graph_right hm] at hrep
  have hsz : r.size < s.heap.bound := by
    have h1 := Focus.size_le h.to_root
    have h2 := Ctx.length_le_size_fill k (node c l x r)
    simp only [CTree.size, Heap.bound] at h2 ⊢
    omega
  obtain ⟨k',c',y,u,h1,h2,h3⟩ := leftmost_ok s.heap.bound r _ _ hrep hr hsz
  refine ⟨k',c',y,u,?_,h2,h3⟩
  have hrun : s.heap.successorChild (some x.1) = .ok (some y.1) := by
    rw [← h1]
    simp [Heap.successorChild, Heap.deref, hm]
    rfl
  simp [successorChild, hrun, Except.map]

/-- A node with two children: its successor takes its place and its colour. -/
lemma unplaceInner_spec {k k' : Ctx (ℕ × T)} {c c' : Color} {x y : ℕ × T} {l u : CTree (ℕ × T)}
    {m : RbNode T V} (hm : s.heap.get? y.1 = some m)
    (h : s.graph.Focus k (node c l x (k'.fill (join .left c' leaf y u))))
    (hS : Within S k (node c l x (k'.fill (join .left c' leaf y u)))) :
    Spec S (do
      replaceNode (some y.1) m.right
      replaceNode (some x.1) (some y.1)
      setChild (some y.1) .left (← deref (some x.1)).left
      setChild (some y.1) .right (← deref (some x.1)).right
      swapColors (some x.1) (some y.1)
      return ((if m.parent = some x.1 then some y.1 else m.parent),m.right,
        (← deref (some x.1)).color) : M T V (Ptr × Ptr × Color)) s fun w s' =>
      w = (Ctx.above (k' ++ ⟨.right,c,y,l⟩::k),u.ptr,c') ∧
      s'.graph.Focus (k' ++ ⟨.right,c,y,l⟩::k) u := by
  set K : Ctx (ℕ × T) := k' ++ ⟨.right,c,x,l⟩::k with hK
  have hfill : ∀ t, K.fill t = k.fill (node c l x (k'.fill t)) := fun t => by
    rw [hK, Ctx.fill_append]; rfl
  have hfoc : s.graph.Focus K (join .left c' leaf y u) := by
    rw [hK, ← focus_append, ← focus_cons]; exact h
  have hS0 : Within S K (join .left c' leaf y u) := by rw [Within, hfill]; exact hS
  have hin : ∀ i ∈ (K.fill (join .left c' leaf y u)).ids, i ∈ S := hS0
  simp only [Ctx.mem_ids_fill] at hin
  obtain ⟨_,hyp,hyc,hyv,_,hru⟩ := (repr_join _ _ _ _ _ _ _).mp hfoc.tree
  obtain ⟨_,hnu,_,hyu,_⟩ := (nodup_ids_join _ _ _ _ _).mp hfoc.nodup_tree
  have hyK : y.1 ∉ K.ids := hfoc.not_mem _ (by simp)
  have hxK : x.1 ∈ K.ids := by simp [hK]
  have hxy : x.1 ≠ y.1 := fun he => hyK (he ▸ hxK)
  have hx : x.1 ∈ S := hin _ (Or.inl hxK)
  have hy : y.1 ∈ S := hin _ (Or.inr (by simp))
  have hru' : s.graph.Repr (some y.1) u.ptr u := hru.ptr_eq ▸ hru
  have hmr : m.right = u.ptr := (graph_right hm).symm.trans hru.ptr_eq
  rw [hmr]
  -- the successor is spliced out
  refine Spec.bind (replaceNode_spec hfoc (by simp) hS0 fun i hi =>
    hin i (Or.inr (by simp [mem_ids_of_ptr hi]))) fun _ s1 h1 => ?_
  have f1 : s1.graph.Focus K u :=
    h1 ▸ hfoc.setHole hru' hnu fun i hi => hfoc.not_mem i (by simp [hi])
  have f1' : s1.graph.Focus k (node c l x (k'.fill u)) := by
    have := (focus_append k' (⟨.right,c,x,l⟩::k) u).mpr f1
    rwa [← focus_cons] at this
  have hval1 : s1.graph.value y.1 = some y.2 := by rw [h1, setHole_value, hyv]
  have hy1 : y.1 ∉ (k.fill (node c l x (k'.fill u))).ids := by
    rw [← hfill, Ctx.mem_ids_fill]; tauto
  have hS1 : Within S k (node c l x (k'.fill u)) := by
    intro i hi
    rw [← hfill, Ctx.mem_ids_fill] at hi
    refine hin i (hi.imp_right fun hi => by simp [hi])
  obtain ⟨_,_,hxc,_,hrl,hrr⟩ := (repr_node _ _ _ _ _ _).mp f1'.tree
  have hxk : x.1 ∉ k.ids := f1'.not_mem _ (by simp)
  -- and put in the place of the node
  refine Spec.bind (replaceNode_spec f1' rfl hS1 (by rintro i ⟨⟩; exact hy)) fun _ s2 h2 => ?_
  refine Spec.bind_deref hx fun n2 hn2 => ?_
  have hl2 : n2.left = l.ptr := by
    rw [← graph_left hn2, h2, setHole_child_of_not_mem _ _ _ hxk, hrl.ptr_eq]
  rw [hl2]
  have hlS : ∀ i, l.ptr = some i → i ∈ S := fun i hi =>
    hS1 i ((Ctx.mem_ids_fill _ _ _).mpr (by simp [mem_ids_of_ptr hi]))
  refine Spec.bind (Spec.setChild hy .left hlS) fun _ s3 h3 => Spec.bind_deref hx fun n3 hn3 => ?_
  have hr3 : n3.right = (k'.fill u).ptr := by
    rw [← graph_right hn3, h3, h2, setChild_child, if_neg (by simp),
      setHole_child_of_not_mem _ _ _ hxk, hrr.ptr_eq]
  rw [hr3]
  have hrS : ∀ i, (k'.fill u).ptr = some i → i ∈ S := fun i hi =>
    hS1 i ((Ctx.mem_ids_fill _ _ _).mpr (by simp [mem_ids_of_ptr hi]))
  refine Spec.bind (Spec.setChild hy .right hrS) fun _ s4 h4 => ?_
  refine Spec.bind (swapColors_spec hx hy) fun _ s5 h5 => Spec.bind_deref hx fun n5 hn5 =>
    Spec.pure ?_
  rw [h3, h2] at h4
  have hcx4 : s4.graph.color x.1 = c := by simpa [h4] using hxc
  have hcy4 : s4.graph.color y.1 = c' := by simpa [h4, h1] using hyc
  rw [hcx4, hcy4] at h5
  have hsub := f1'.substitute hval1 hy1
  rw [← h4] at hsub
  have hfin : s5.graph.Focus k (node c l y (k'.fill u)) := by
    rw [h5]
    refine hsub.congr_away rfl fun i hi => ⟨?_,rfl,rfl,rfl⟩
    have hix : i ≠ x.1 := by
      rintro rfl
      have hnd := f1'.nodup_tree
      simp only [ids_node, List.nodup_append, List.nodup_cons, List.mem_cons] at hnd
      simp only [Ctx.mem_ids_fill, ids_node, List.mem_append, List.mem_cons] at hi
      rw [Ctx.mem_ids_fill] at hnd
      grind
    simp [hix]
  refine ⟨?_,?_⟩
  · have hpar : m.parent = K.above := (graph_parent hm).symm.trans hyp
    have hcol : n5.color = c' := by rw [← graph_color hn5, h5]; simp [hxy]
    rw [hcol, hpar]
    congr 1
    cases hk' : k' with
    | nil => simp [hK, hk']
    | cons f k'' =>
      have hfx : f.key.1 ≠ x.1 := by
        have := f1.nodup_ctx
        simp only [hK, hk', List.cons_append, Ctx.nodup_ids_cons] at this
        rintro he
        exact this.2.2.2.1 (by simp [he])
      simp [hK, hk', hfx]
  · rw [← focus_append, ← focus_cons]; exact hfin

/-- `unplace` takes exactly the node out of the order of the nodes. -/
lemma unplace_spec {k : Ctx (ℕ × T)} {c : Color} {x : ℕ × T} {l r : CTree (ℕ × T)} {n : ℕ}
    (h : s.graph.Focus k (node c l x r)) (ht : (node c l x r).Balanced n) (hk : k.Balanced c n)
    (hS : Within S k (node c l x r)) :
    Spec S (unplace (some x.1)) s fun w s' => ∃ (k' : Ctx (ℕ × T)) (u : CTree (ℕ × T)) (c' : Color),
      w = (k'.above,u.ptr,c') ∧ Spliced s'.graph k' u c' ∧
      (k'.fill u).toList = k.before ++ (l.toList ++ r.toList) ++ k.after := by
  have hx : x.1 ∈ S := hS _ ((Ctx.mem_ids_fill _ _ _).mpr (by simp))
  obtain ⟨_,_,_,_,hrl,hrr⟩ := h.tree
  refine Spec.bind_deref hx fun m hm => ?_
  have hml : m.left = l.ptr := (graph_left hm).symm.trans hrl.ptr_eq
  have hmr : m.right = r.ptr := (graph_right hm).symm.trans hrr.ptr_eq
  rw [hml, hmr]
  cases l with
  | leaf =>
    refine (spliceOut_spec (d := .left) h ht hk hS).mono ?_
    rintro w s' ⟨rfl,h1⟩
    exact ⟨k,r,c,rfl,h1,by simp [Ctx.toList_fill]⟩
  | node lc ll lx lr =>
    cases r with
    | leaf =>
      have hj : node c (node lc ll lx lr) x leaf = join .right c leaf x (node lc ll lx lr) := rfl
      refine (spliceOut_spec (d := .right) (hj ▸ h) (hj ▸ ht) hk (hj ▸ hS)).mono ?_
      rintro w s' ⟨rfl,h1⟩
      exact ⟨k,_,c,rfl,h1,by simp [Ctx.toList_fill]⟩
    | node rc rl rx rr =>
      simp only [ptr_node, Option.isNone_some, Bool.false_eq_true, if_false]
      obtain ⟨k',c',y,u,hsucc,hr,hleft⟩ := successorChild_ok h (by simp)
      rw [hr] at h hS ht
      generalize node lc ll lx lr = l at h hS ht ⊢
      have hy : y.1 ∈ S := hS _ ((Ctx.mem_ids_fill _ _ _).mpr (Or.inr (by simp [Ctx.mem_ids_fill])))
      refine fun hg => Ends.bind_eq hsucc (Spec.bind_deref hy (fun m' hm' => ?_) hg)
      refine (unplaceInner_spec hm' h hS).mono ?_
      rintro w s' ⟨rfl,h1⟩
      obtain ⟨n',hn',hb'⟩ : ∃ n', (join .left c' leaf y u).Balanced n' ∧
          Ctx.Balanced (k' ++ ⟨.right,c,x,l⟩::k) c' n' := by
        have hfull := (Ctx.balanced_fill k _).mpr ⟨n,ht,hk⟩
        have hap : k.fill (node c l x (k'.fill (join .left c' leaf y u))) =
          Ctx.fill (k' ++ ⟨.right,c,x,l⟩::k) (join .left c' leaf y u) := by
          rw [Ctx.fill_append]; rfl
        rw [hap, Ctx.balanced_fill] at hfull
        simpa using hfull
      refine ⟨_,u,c',rfl,Spliced.of_balanced h1 hn' (Ctx.balanced_rekey k' _ _ x y _ _ hb'),?_⟩
      rw [hr, Ctx.toList_fill, Ctx.toList_fill, Ctx.before_append, Ctx.after_append,
        Ctx.before_of_left hleft]
      simp [Ctx.before, Ctx.after, join]

/-- Unlinking a node from a red-black tree gives a red-black tree of the other nodes, in the same
order. -/
theorem removeLink_spec {k : Ctx (ℕ × T)} {c : Color} {x : ℕ × T} {l r : CTree (ℕ × T)} {n : ℕ}
    (h : s.graph.Focus k (node c l x r)) (ht : (node c l x r).Balanced n) (hk : k.Balanced c n)
    (hS : Within S k (node c l x r)) :
    Spec S (removeLink (some x.1)) s fun _ s' => ∃ t m, s'.graph.Focus [] t ∧ t.Balanced m ∧
      t.toList = k.before ++ (l.toList ++ r.toList) ++ k.after := by
  refine Spec.bind (unplace_spec h ht hk hS) ?_
  rintro w s1 ⟨k1,u,c1,rfl,h1,hl⟩
  rw [← hl]
  have hw : Within S k1 u := by
    intro i hi
    refine hS i ?_
    rw [CTree.ids, hl] at hi
    rw [CTree.ids, Ctx.toList_fill]
    simp only [List.map_append, List.mem_append, toList_node, List.map_cons, List.mem_cons] at hi ⊢
    tauto
  cases c1 with
  | red =>
    obtain ⟨hu,hb⟩ := h1.red rfl
    obtain ⟨m,hm⟩ := (Ctx.balanced_fill k1 u).mpr ⟨0,h1.tree,by rw [hu]; exact hb⟩
    exact Spec.pure ⟨_,m,h1.focus.to_root,hm,rfl⟩
  | black =>
    have hb := h1.black rfl
    simp only [reduceCtorEq, if_false]
    cases u with
    | node uc ul y ur =>
      -- a subtree without black nodes is a red node
      obtain rfl : uc = .red := by
        cases uc with
        | red => rfl
        | black => obtain ⟨_,h0,_⟩ := h1.tree; simp at h0
      have hy : y.1 ∈ S := hw _ ((Ctx.mem_ids_fill _ _ _).mpr (by simp))
      rw [ptr_node, if_pos (by simp)]
      refine Spec.bind_deref hy fun m hm => ?_
      rw [← graph_color hm, h1.focus.tree.2.2.1, if_pos rfl]
      refine (Spec.setColor hy _).mono fun _ s2 h2 => ?_
      have f2 : s2.graph.Focus k1 (node .black ul y ur) :=
        h2 ▸ Focus.setColor (d := .left) h1.focus .black
      obtain ⟨m',hm'⟩ := (Ctx.balanced_fill k1 (node .black ul y ur)).mpr
        ⟨1,Balanced.blacken h1.tree,hb⟩
      exact ⟨_,m',f2.to_root,hm',by simp [Ctx.toList_fill]⟩
    | leaf =>
      rw [ptr_leaf, if_neg (by simp)]
      cases k1 with
      | nil => exact Spec.pure ⟨leaf,0,h1.focus,rfl,rfl⟩
      | cons f k1 =>
        obtain ⟨d,fc,fx,o⟩ := f
        have hfx : fx.1 ∈ S := hw _ ((Ctx.mem_ids_fill _ _ _).mpr (by simp))
        have hdef : Deficit s1.graph (⟨d,fc,fx,o⟩::k1) leaf 0 := ⟨h1.focus,rfl,h1.tree,hb⟩
        simp only [Ctx.above_cons, Option.isNone_some, Bool.false_eq_true, if_false]
        refine Spec.bind_deref hfx fun m hm => ?_
        -- the sibling is not empty, so the empty side is the one with the deficit
        have hside : (if m.left.isNone then Direction.left else Direction.right) = d := by
          rw [← graph_left hm]
          cases d with
          | left =>
            have hhole : s1.graph.child fx.1 .left = none := h1.focus.hole_eq
            rw [hhole]; rfl
          | right =>
            have hsib : s1.graph.child fx.1 .left = o.ptr := hdef.sibling_ptr
            obtain ⟨oc,ol,oy,or',rfl⟩ := exists_join .left hdef.sibling_balanced.ne_leaf
            rw [hsib]; rfl
        rw [hside]
        exact removeFixup_spec hdef hw

end Lilith.Rbtree
