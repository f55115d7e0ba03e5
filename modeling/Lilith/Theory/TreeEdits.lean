import Lilith.Theory.PointerGraph

/-! The pointer edits of a linked tree. Each lemma takes a graph that is a tree around a hole and
gives the tree the graph is after the edit: painting a node, replacing the subtree in the hole, a
rotation, and putting a detached node in the place of another. -/
namespace Lilith.Theory

/-- The innermost link of a context: the node above the hole and the side of the hole. -/
def Ctx.IsTop {ι τ : Type*} (k : Ctx (ι × τ)) (i : ι) (d : Direction) : Prop :=
  ∃ f ∈ k.head?, i = f.key.1 ∧ d = f.dir

namespace CTree
variable {ι τ : Type*} (f : ι × τ → τ)

/-- The same nodes with other values. -/
def relabel : CTree (ι × τ) → CTree (ι × τ)
  | leaf => leaf
  | node c l x r => node c l.relabel (x.1,f x) r.relabel

lemma toList_relabel (t : CTree (ι × τ)) : (t.relabel f).toList = t.toList.map fun x => (x.1,f x) := by
  induction t with
  | leaf => rfl
  | node c l x r ihl ihr => simp [relabel, ihl, ihr]

lemma ids_relabel (t : CTree (ι × τ)) : (t.relabel f).ids = t.ids := by
  simp [ids, toList_relabel]

lemma color_relabel (t : CTree (ι × τ)) : (t.relabel f).color = t.color := by
  cases t <;> rfl

lemma Balanced.relabel {t : CTree (ι × τ)} {n : ℕ} (h : t.Balanced n) : (t.relabel f).Balanced n := by
  induction t generalizing n with
  | leaf => exact h
  | node c l x r ihl ihr =>
    cases c with
    | red =>
      rw [CTree.relabel, balanced_red, color_relabel, color_relabel]
      rw [balanced_red] at h
      tauto
    | black =>
      rw [CTree.relabel, balanced_black]
      rw [balanced_black] at h
      obtain ⟨m,rfl,h1,h2⟩ := h
      exact ⟨m,rfl,ihl h1,ihr h2⟩

end CTree

namespace PtrGraph
open Color CTree

variable {ι τ : Type*} {g g' : PtrGraph ι τ}

/-- Moving the hole to a child of the focused node. -/
theorem focus_cons (k : Ctx (ι × τ)) (d : Direction) (c : Color) (t o : CTree (ι × τ)) (x : ι × τ) :
    g.Focus k (join d c t x o) ↔ g.Focus (⟨d,c,x,o⟩::k) t := by
  constructor
  · rintro ⟨hk,ht,hn⟩
    obtain ⟨h1,h2,h3,h4,h5,h6⟩ := (repr_join _ _ _ _ _ _ _).mp ht
    exact ⟨⟨h1,h2,h3,h4,h6,hk⟩,h5,hn⟩
  · rintro ⟨⟨h1,h2,h3,h4,h6,hk⟩,h5,hn⟩
    exact ⟨hk,(repr_join _ _ _ _ _ _ _).mpr ⟨h1,h2,h3,h4,h5,h6⟩,hn⟩

/-- Moving the hole down several frames at once. -/
theorem focus_append (k k' : Ctx (ι × τ)) (t : CTree (ι × τ)) :
    g.Focus k' (Ctx.fill k t) ↔ g.Focus (k ++ k') t := by
  induction k generalizing t with
  | nil => rfl
  | cons f k ih => rw [Ctx.fill_cons, ih, focus_cons, List.cons_append]

lemma focus_nil {t : CTree (ι × τ)} : g.Focus [] t ↔ g.Repr none g.head t ∧ t.ids.Nodup :=
  ⟨fun h => ⟨h.tree,h.nodup⟩, fun h => ⟨trivial,h.1,h.2⟩⟩

lemma Focus.to_root {k : Ctx (ι × τ)} {t : CTree (ι × τ)} (h : g.Focus k t) :
    g.Focus [] (Ctx.fill k t) := (focus_append k [] t).mpr (by simpa using h)

lemma Focus.of_root {k : Ctx (ι × τ)} {t : CTree (ι × τ)} (h : g.Focus [] (Ctx.fill k t)) :
    g.Focus k t := by simpa using (focus_append k [] t).mp h

namespace Focus
variable {k : Ctx (ι × τ)} {t : CTree (ι × τ)}

lemma nodup_ctx (h : g.Focus k t) : k.ids.Nodup := ((Ctx.nodup_ids_fill k t).mp h.nodup).1
lemma nodup_tree (h : g.Focus k t) : t.ids.Nodup := ((Ctx.nodup_ids_fill k t).mp h.nodup).2.1
lemma not_mem (h : g.Focus k t) : ∀ i ∈ t.ids, i ∉ k.ids :=
  ((Ctx.nodup_ids_fill k t).mp h.nodup).2.2

lemma hole_eq (h : g.Focus k t) : g.hole k = t.ptr := h.tree.ptr_eq
lemma repr (h : g.Focus k t) : g.Repr k.above t.ptr t := h.hole_eq ▸ h.tree

end Focus

/-- Editing the graph away from a context keeps the context. -/
lemma ReprCtx.congr_all {k : Ctx (ι × τ)} (h : g.ReprCtx k)
    (hn : ∀ i ∈ k.ids, g'.color i = g.color i ∧ g'.value i = g.value i ∧
      g'.parent i = g.parent i ∧ g'.child i = g.child i)
    (hh : g'.head = g.head) : g'.ReprCtx k := by
  induction k with
  | nil => trivial
  | cons f k ih =>
    obtain ⟨h1,h2,h3,h4,h5,h6⟩ := h
    obtain ⟨fc,fv,fp,fd⟩ := hn f.key.1 (by simp)
    have hho : g'.hole k = g.hole k := by
      cases k with
      | nil => exact hh
      | cons f' k => simp only [hole]; rw [(hn f'.key.1 (by simp)).2.2.2]
    refine ⟨hho.trans h1,fp.trans h2,fc.trans h3,fv.trans h4,?_,
      ih h6 (fun i hi => hn i (by simp [hi]))⟩
    rw [fd]
    exact h5.congr_all fun i hi => hn i (by simp [hi])

/-- Editing the graph away from a context keeps it; the link into the hole may change. -/
theorem ReprCtx.congr {k : Ctx (ι × τ)} (h : g.ReprCtx k)
    (hn : ∀ i ∈ k.ids, g'.color i = g.color i ∧ g'.value i = g.value i ∧
      g'.parent i = g.parent i)
    (hc : ∀ i ∈ k.ids, ∀ d, ¬ k.IsTop i d → g'.child i d = g.child i d)
    (hh : k ≠ [] → g'.head = g.head) (hd : k.ids.Nodup) : g'.ReprCtx k := by
  cases k with
  | nil => trivial
  | cons f k =>
    obtain ⟨h1,h2,h3,h4,h5,h6⟩ := h
    obtain ⟨hdk,hdo,hfo,hfk,hok⟩ := (Ctx.nodup_ids_cons f k).mp hd
    obtain ⟨fc,fv,fp⟩ := hn f.key.1 (by simp)
    -- the innermost node is the only one whose links may differ
    have hall : ∀ i ∈ Ctx.ids (f::k), i ≠ f.key.1 → g'.color i = g.color i ∧
        g'.value i = g.value i ∧ g'.parent i = g.parent i ∧ g'.child i = g.child i := by
      intro i hi hne
      obtain ⟨e1,e2,e3⟩ := hn i hi
      refine ⟨e1,e2,e3,funext fun d => hc i hi d ?_⟩
      simp [Ctx.IsTop, hne]
    have hho : g'.hole k = g.hole k := by
      cases k with
      | nil => exact hh (by simp)
      | cons f' k => simp only [hole]; rw [(hall f'.key.1 (by simp) (by grind)).2.2.2]
    refine ⟨hho.trans h1,fp.trans h2,fc.trans h3,fv.trans h4,?_,
      h6.congr_all (fun i hi => hall i (by simp [hi]) (by grind)) (hh (by simp))⟩
    rw [hc f.key.1 (by simp) f.dir.not (by simp [Ctx.IsTop])]
    exact h5.congr_all fun i hi => hall i (by simp [hi]) (by grind)

lemma Focus.parent_eq {k : Ctx (ι × τ)} {c : Color} {l r : CTree (ι × τ)} {x : ι × τ}
    (h : g.Focus k (node c l x r)) : g.parent x.1 = k.above := h.tree.2.1

lemma Repr.color_eq {t : CTree (ι × τ)} {q p : Option ι} (h : g.Repr q p t) :
    p.elim .black g.color = t.color := by
  cases t with
  | leaf => rw [repr_leaf] at h; subst h; rfl
  | node c l x r => rw [h.1]; exact h.2.2.1

/-- Editing the graph away from all of its nodes. -/
theorem Focus.congr_away {k : Ctx (ι × τ)} {t : CTree (ι × τ)} (h : g.Focus k t) (hh : g'.head = g.head)
    (hn : ∀ i ∈ (k.fill t).ids, g'.color i = g.color i ∧ g'.value i = g.value i ∧
      g'.parent i = g.parent i ∧ g'.child i = g.child i) : g'.Focus k t := by
  have hk : ∀ i ∈ k.ids, _ := fun i hi => hn i ((Ctx.mem_ids_fill k t i).mpr (Or.inl hi))
  have ht : ∀ i ∈ t.ids, _ := fun i hi => hn i ((Ctx.mem_ids_fill k t i).mpr (Or.inr hi))
  refine ⟨h.ctx.congr_all hk hh,?_,h.nodup⟩
  have hho : g'.hole k = g.hole k := by
    cases k with
    | nil => exact hh
    | cons f k => simp only [hole]; rw [(hk f.key.1 (by simp)).2.2.2]
  rw [hho]
  exact h.tree.congr_all ht

section Edits
variable [DecidableEq ι]

@[simp] theorem setParent_parent (p q : Option ι) (i : ι) :
    (g.setParent p q).parent i = if some i = p then q else g.parent i := rfl
@[simp] theorem setChild_child (i : ι) (d : Direction) (p : Option ι) (j : ι) (e : Direction) :
    (g.setChild i d p).child j e = if j = i ∧ e = d then p else g.child j e := rfl
@[simp] theorem setChild_parent (i : ι) (d : Direction) (p : Option ι) (j : ι) :
    (g.setChild i d p).parent j = if some j = p then some i else g.parent j := rfl
@[simp] theorem setChild_color (i : ι) (d : Direction) (p : Option ι) :
    (g.setChild i d p).color = g.color := rfl
@[simp] theorem setChild_value (i : ι) (d : Direction) (p : Option ι) :
    (g.setChild i d p).value = g.value := rfl
@[simp] theorem setChild_head (i : ι) (d : Direction) (p : Option ι) :
    (g.setChild i d p).head = g.head := rfl
@[simp] theorem setColor_color (i : ι) (c : Color) (j : ι) :
    (g.setColor i c).color j = if j = i then c else g.color j := rfl
@[simp] theorem setColor_parent (i : ι) (c : Color) : (g.setColor i c).parent = g.parent := rfl
@[simp] theorem setColor_child (i : ι) (c : Color) : (g.setColor i c).child = g.child := rfl
@[simp] theorem setColor_value (i : ι) (c : Color) : (g.setColor i c).value = g.value := rfl
@[simp] theorem setColor_head (i : ι) (c : Color) : (g.setColor i c).head = g.head := rfl

/-- A parent link that is already there. -/
lemma setParent_eq_self {i : ι} {q : Option ι} (h : g.parent i = q) : g.setParent (some i) q = g := by
  refine PtrGraph.ext rfl rfl (funext fun j => ?_) rfl rfl
  by_cases hj : j = i <;> simp [hj, h]

@[simp] theorem setHole_color (k : Ctx (ι × τ)) (p : Option ι) :
    (g.setHole k p).color = g.color := by cases k <;> rfl
@[simp] theorem setHole_value (k : Ctx (ι × τ)) (p : Option ι) :
    (g.setHole k p).value = g.value := by cases k <;> rfl
@[simp] theorem setHole_parent (k : Ctx (ι × τ)) (p : Option ι) (i : ι) :
    (g.setHole k p).parent i = if some i = p then k.above else g.parent i := by cases k <;> rfl
@[simp] theorem setHole_hole (k : Ctx (ι × τ)) (p : Option ι) : (g.setHole k p).hole k = p := by
  cases k <;> simp [setHole, hole, setParent]

lemma setHole_child_of_not_top (k : Ctx (ι × τ)) (p : Option ι) (i : ι) (d : Direction)
    (h : ¬ k.IsTop i d) : (g.setHole k p).child i d = g.child i d := by
  cases k with
  | nil => rfl
  | cons f k =>
    simp only [Ctx.IsTop, List.head?_cons, Option.mem_some_iff, exists_eq_left'] at h
    simp [setHole, h]

lemma setHole_child_of_not_mem (k : Ctx (ι × τ)) (p : Option ι) (i : ι) (h : i ∉ k.ids) :
    (g.setHole k p).child i = g.child i := by
  funext d
  refine setHole_child_of_not_top k p i d fun ht => h ?_
  cases k with
  | nil => simp [Ctx.IsTop] at ht
  | cons f k => simp [Ctx.IsTop] at ht; simp [ht]

lemma setHole_head (k : Ctx (ι × τ)) (p : Option ι) (h : k ≠ []) :
    (g.setHole k p).head = g.head := by
  cases k with
  | nil => exact absurd rfl h
  | cons f k => rfl

variable {k : Ctx (ι × τ)} {t u : CTree (ι × τ)}

/-- The uncle of a node is the subtree beside its parent. -/
theorem Focus.uncle_eq {p f : Frame (ι × τ)} {c : Color} {l r : CTree (ι × τ)} {x : ι × τ}
    (h : g.Focus (p::f::k) (node c l x r)) : g.uncle x.1 = f.other.ptr := by
  have hpar : g.parent x.1 = some p.key.1 := h.tree.2.1
  have hgp : g.parent p.key.1 = some f.key.1 := h.ctx.2.1
  have hhole : g.child f.key.1 f.dir = some p.key.1 := h.ctx.1
  have hother : g.child f.key.1 f.dir.not = f.other.ptr := h.ctx.2.2.2.2.2.2.2.2.2.1.ptr_eq
  have hne : f.other.ptr ≠ some p.key.1 := by
    intro he
    have hd := h.nodup_ctx
    simp only [Ctx.nodup_ids_cons, Ctx.mem_ids_cons] at hd
    have := mem_ids_of_ptr he
    tauto
  simp only [uncle, grandparent, hpar, Option.bind_some, hgp]
  cases hd : f.dir with
  | left =>
    rw [hd] at hhole hother
    rw [if_pos hhole]
    exact hother
  | right =>
    rw [hd] at hother
    have hl : g.child f.key.1 .left = f.other.ptr := hother
    rw [hl, if_neg hne]

/-- Painting the focused node. -/
theorem Focus.setColor {d : Direction} {c : Color} {l r : CTree (ι × τ)} {x : ι × τ}
    (h : g.Focus k (join d c l x r)) (c' : Color) :
    (g.setColor x.1 c').Focus k (join d c' l x r) := by
  obtain ⟨h1,h2,h3,h4,h5,h6⟩ := (repr_join _ _ _ _ _ _ _).mp h.tree
  have hx := h.not_mem x.1 (by simp)
  have hd := (nodup_ids_join _ _ _ _ _).mp h.nodup_tree
  refine ⟨h.ctx.congr (fun i hi => ⟨?_,rfl,rfl⟩) (fun _ _ _ _ => rfl) (fun _ => rfl) h.nodup_ctx,
    (repr_join _ _ _ _ _ _ _).mpr ⟨?_,h2,by simp,h4,?_,?_⟩,?_⟩
  · simp only [setColor_color]; rw [if_neg (by grind)]
  · cases k <;> exact h1
  · exact h5.congr_all fun i hi => ⟨by simp only [setColor_color]; rw [if_neg (by grind)],rfl,rfl,rfl⟩
  · exact h6.congr_all fun i hi => ⟨by simp only [setColor_color]; rw [if_neg (by grind)],rfl,rfl,rfl⟩
  · have := h.nodup
    rw [Ctx.nodup_ids_fill] at this ⊢
    simpa [nodup_ids_join] using this

/-- Painting a node further down. -/
theorem Focus.setColor_fill {k' : Ctx (ι × τ)} {d : Direction} {c : Color} {l r : CTree (ι × τ)}
    {x : ι × τ} (h : g.Focus k (k'.fill (join d c l x r))) (c' : Color) :
    (g.setColor x.1 c').Focus k (k'.fill (join d c' l x r)) :=
  (focus_append _ _ _).mpr (((focus_append _ _ _).mp h).setColor c')

/-- Replacing the subtree in the hole by another tree that the graph has away from the context. -/
theorem Focus.setHole (h : g.Focus k t) {q p : Option ι} (hu : g.Repr q p u) (hn : u.ids.Nodup)
    (hd : ∀ i ∈ u.ids, i ∉ k.ids) : (g.setHole k p).Focus k u := by
  have hp : ∀ i ∈ k.ids, some i ≠ p := by
    intro i hi he
    exact hd i (mem_ids_of_ptr (hu.ptr_eq ▸ he.symm)) hi
  refine ⟨h.ctx.congr (fun i hi => ⟨by simp,by simp,?_⟩)
    (fun i _ d hi => setHole_child_of_not_top k p i d hi) (setHole_head k p) h.nodup_ctx,
    ?_,(Ctx.nodup_ids_fill k u).mpr ⟨h.nodup_ctx,hn,hd⟩⟩
  · simp [hp i hi]
  · rw [setHole_hole]
    refine hu.congr (fun i hi => ⟨by simp,by simp,setHole_child_of_not_mem k p i (hd i hi)⟩)
      (fun i _ hi => ?_) (fun i hi => ?_) hn
    · simp [hi]
    · simp [hi]

/-- A rotation: the child `y` of `x` on the side away from `d` takes the place of `x`, and `x`
becomes its child on side `d`. -/
theorem Focus.rotate {d : Direction} {cx cy : Color} {a b e : CTree (ι × τ)} {x y : ι × τ}
    (h : g.Focus k (join d cx a x (join d cy b y e))) :
    (((g.setHole k (some y.1)).setChild y.1 d (some x.1)).setChild x.1 d.not b.ptr).Focus k
      (join d cy (join d cx a x b) y e) := by
  obtain ⟨x1,x2,x3,x4,xa,xy⟩ := (repr_join _ _ _ _ _ _ _).mp h.tree
  obtain ⟨y1,y2,y3,y4,yb,ye⟩ := (repr_join _ _ _ _ _ _ _).mp xy
  have hk := h.not_mem
  obtain ⟨na,ny,nxa,nxy,nay⟩ := (nodup_ids_join _ _ _ _ _).mp h.nodup_tree
  obtain ⟨nb,ne,nyb,nye,nbe⟩ := (nodup_ids_join _ _ _ _ _).mp ny
  simp only [mem_ids_join] at hk nxy nay
  have hb : ∀ i, b.ptr = some i → i ∈ b.ids := fun i => mem_ids_of_ptr
  have hxy : x.1 ≠ y.1 := by grind
  have hxk : x.1 ∉ k.ids := by grind
  have hyk : y.1 ∉ k.ids := by grind
  -- nodes other than `x`, `y` and those of the context keep their children
  have hch : ∀ i, i ≠ x.1 → i ≠ y.1 → i ∉ k.ids →
      (((g.setHole k (some y.1)).setChild y.1 d (some x.1)).setChild x.1 d.not b.ptr).child i =
        g.child i := by
    intro i h1 h2 h3
    funext j
    simp [h1, h2, setHole_child_of_not_mem k _ i h3]
  refine ⟨h.ctx.congr ?_ ?_ ?_ h.nodup_ctx,?_,?_⟩
  · intro i hi
    refine ⟨by simp,by simp,?_⟩
    have h1 : some i ≠ b.ptr := fun he => by have := hb i he.symm; grind
    have h2 : i ≠ x.1 := by grind
    have h3 : i ≠ y.1 := by grind
    simp [h1, h2, h3]
  · intro i hi j hj
    have h2 : i ≠ x.1 := by grind
    have h3 : i ≠ y.1 := by grind
    simp [h2, h3, setHole_child_of_not_top k _ i j hj]
  · intro hne
    simp [setHole_head k _ hne]
  · have hho : ((((g.setHole k (some y.1)).setChild y.1 d (some x.1)).setChild x.1 d.not
        b.ptr).hole k) = some y.1 := by
      have hs := setHole_hole (g := g) k (some y.1)
      cases k with
      | nil => exact hs
      | cons f k =>
        simp only [Ctx.mem_ids_cons] at hxk hyk
        simp only [hole, setChild_child] at hs ⊢
        rw [if_neg (by grind), if_neg (by grind), hs]
    have hyp : some y.1 ≠ b.ptr := fun he => nyb (hb _ he.symm)
    have hxp : some x.1 ≠ b.ptr := fun he => by have := hb _ he.symm; grind
    refine (repr_join _ _ _ _ _ _ _).mpr ⟨hho,?_,by simpa using y3,by simpa using y4,?_,?_⟩
    · simp [hyp, hxy.symm]
    · refine (repr_join _ _ _ _ _ _ _).mpr ⟨?_,?_,by simpa using x3,by simpa using x4,?_,?_⟩
      · simp [hxy.symm]
      · simp [hxp]
      · have hc : (((g.setHole k (some y.1)).setChild y.1 d (some x.1)).setChild x.1 d.not
            b.ptr).child x.1 d = g.child x.1 d := by
          simp [hxy, setHole_child_of_not_mem k _ x.1 hxk]
        rw [hc]
        refine xa.congr_all fun i hi => ⟨by simp,by simp,?_,hch i (by grind) (by grind) (by grind)⟩
        have h1 : some i ≠ b.ptr := fun he => by have := hb i he.symm; grind
        have h2 : i ≠ x.1 := by grind
        have h3 : i ≠ y.1 := by grind
        simp [h1, h2, h3]
      · have hc : (((g.setHole k (some y.1)).setChild y.1 d (some x.1)).setChild x.1 d.not
            b.ptr).child x.1 d.not = b.ptr := by simp
        rw [hc]
        rw [yb.ptr_eq] at yb
        refine yb.congr (fun i hi => ⟨by simp,by simp,hch i (by grind) (by grind) (by grind)⟩)
          (fun i hi hne => ?_) (fun i hi => by simp [hi]) nb
        have h2 : i ≠ x.1 := by grind
        have h3 : i ≠ y.1 := by grind
        simp [hne, h2, h3]
    · have hc : (((g.setHole k (some y.1)).setChild y.1 d (some x.1)).setChild x.1 d.not
          b.ptr).child y.1 d.not = g.child y.1 d.not := by
        simp [hxy.symm, setHole_child_of_not_mem k _ y.1 hyk]
      rw [hc]
      refine ye.congr_all fun i hi => ⟨by simp,by simp,?_,hch i (by grind) (by grind) (by grind)⟩
      have h1 : some i ≠ b.ptr := fun he => by have := hb i he.symm; grind
      have h2 : i ≠ x.1 := by grind
      have h3 : i ≠ y.1 := by grind
      simp [h1, h2, h3]
  · have hl : (join d cy (join d cx a x b) y e).toList =
        (join d cx a x (join d cy b y e)).toList := by cases d <;> simp [join]
    have := h.nodup
    simp only [CTree.ids, Ctx.toList_fill, hl] at this ⊢
    exact this

/-- Putting the detached node `y` in the place of the focused node `x`, with its colour. -/
theorem Focus.substitute {c : Color} {l r : CTree (ι × τ)} {x y : ι × τ}
    (h : g.Focus k (node c l x r)) (hv : g.value y.1 = some y.2) (hy : y.1 ∉ (k.fill (node c l x r)).ids) :
    ((((g.setHole k (some y.1)).setChild y.1 .left l.ptr).setChild y.1 .right r.ptr).setColor
      y.1 c).Focus k (node c l y r) := by
  obtain ⟨x1,x2,x3,x4,xl,xr⟩ := (repr_node _ _ _ _ _ _).mp h.tree
  have hk := h.not_mem
  have hd := h.nodup_tree
  have hkn := h.nodup_ctx
  simp only [Ctx.mem_ids_fill, ids_node, List.mem_append, List.mem_cons] at hy hk
  simp only [ids_node, List.nodup_append, List.nodup_cons, List.mem_cons] at hd
  have hlp : ∀ i, l.ptr = some i → i ∈ l.ids := fun i => mem_ids_of_ptr
  have hrp : ∀ i, r.ptr = some i → i ∈ r.ids := fun i => mem_ids_of_ptr
  have hyk : y.1 ∉ k.ids := by tauto
  have hyl : y.1 ∉ l.ids := by tauto
  have hyr : y.1 ∉ r.ids := by tauto
  have hch : ∀ i, i ≠ y.1 → i ∉ k.ids → ((((g.setHole k (some y.1)).setChild y.1 .left
      l.ptr).setChild y.1 .right r.ptr).setColor y.1 c).child i = g.child i := by
    intro i h1 h2
    funext j
    simp [h1, setHole_child_of_not_mem k _ i h2]
  refine ⟨h.ctx.congr ?_ ?_ ?_ hkn,?_,?_⟩
  · intro i hi
    have h1 : some i ≠ l.ptr := fun he => by have := hlp i he.symm; grind
    have h2 : some i ≠ r.ptr := fun he => by have := hrp i he.symm; grind
    have h3 : i ≠ y.1 := by grind
    simp [h1, h2, h3]
  · intro i hi j hj
    have h3 : i ≠ y.1 := by grind
    simp [h3, setHole_child_of_not_top k _ i j hj]
  · intro hne
    simp [setHole_head k _ hne]
  · have hho : ((((g.setHole k (some y.1)).setChild y.1 .left l.ptr).setChild y.1 .right
        r.ptr).setColor y.1 c).hole k = some y.1 := by
      have hs := setHole_hole (g := g) k (some y.1)
      cases k with
      | nil => exact hs
      | cons f k =>
        simp only [Ctx.mem_ids_cons] at hyk
        simp only [hole, setChild_child, setColor_child] at hs ⊢
        rw [if_neg (by grind), if_neg (by grind), hs]
    have h1 : some y.1 ≠ l.ptr := fun he => hyl (hlp _ he.symm)
    have h2 : some y.1 ≠ r.ptr := fun he => hyr (hrp _ he.symm)
    refine (repr_node _ _ _ _ _ _).mpr ⟨hho,?_,by simp,by simpa using hv,?_,?_⟩
    · simp [h1, h2]
    · have hc : ((((g.setHole k (some y.1)).setChild y.1 .left l.ptr).setChild y.1 .right
          r.ptr).setColor y.1 c).child y.1 .left = l.ptr := by simp
      rw [hc]
      rw [xl.ptr_eq] at xl
      refine xl.congr (fun i hi => ⟨?_,by simp,hch i (by grind) (by grind)⟩)
        (fun i hi hne => ?_) (fun i hi => ?_) hd.1
      · have : i ≠ y.1 := by grind
        simp [this]
      · have h3 : some i ≠ r.ptr := fun he => by have := hrp i he.symm; grind
        have h4 : i ≠ y.1 := by grind
        simp [hne, h3, h4]
      · have h3 : some i ≠ r.ptr := fun he => by have := hrp i he.symm; have := hlp i hi; grind
        rw [setColor_parent, setChild_parent, if_neg h3, setChild_parent, if_pos hi.symm]
    · have hc : ((((g.setHole k (some y.1)).setChild y.1 .left l.ptr).setChild y.1 .right
          r.ptr).setColor y.1 c).child y.1 .right = r.ptr := by simp
      rw [hc]
      rw [xr.ptr_eq] at xr
      refine xr.congr (fun i hi => ⟨?_,by simp,hch i (by grind) (by grind)⟩)
        (fun i hi hne => ?_) (fun i hi => ?_) hd.2.1.2
      · have : i ≠ y.1 := by grind
        simp [this]
      · have h3 : some i ≠ l.ptr := fun he => by have := hlp i he.symm; grind
        have h4 : i ≠ y.1 := by grind
        simp [hne, h3, h4]
      · rw [setColor_parent, setChild_parent, if_pos hi.symm]
  · rw [Ctx.nodup_ids_fill]
    refine ⟨hkn,?_,?_⟩
    · simp only [ids_node, List.nodup_append, List.nodup_cons, List.mem_cons]
      grind
    · intro i hi
      simp only [ids_node, List.mem_append, List.mem_cons] at hi
      grind

end Edits

section Relabel
variable {t : CTree (ι × τ)} {f : ι × τ → τ}

/-- Giving the nodes of a tree other values. -/
lemma Repr.relabel {q p : Option ι} (h : g.Repr q p t)
    (hn : ∀ x ∈ t.toList, g'.color x.1 = g.color x.1 ∧ g'.parent x.1 = g.parent x.1 ∧
      g'.child x.1 = g.child x.1 ∧ g'.value x.1 = some (f x)) : g'.Repr q p (t.relabel f) := by
  induction t generalizing q p with
  | leaf => exact h
  | node c l x r ihl ihr =>
    obtain ⟨rfl,hpar,hc,_,hl,hr⟩ := h
    obtain ⟨xc,xp,xd,xv⟩ := hn x (by simp)
    refine ⟨rfl,xp.trans hpar,xc.trans hc,xv,?_,?_⟩
    · simp only [xd]
      exact ihl hl fun y hy => hn y (by simp [hy])
    · simp only [xd]
      exact ihr hr fun y hy => hn y (by simp [hy])

theorem Focus.relabel (h : g.Focus [] t) (hh : g'.head = g.head)
    (hn : ∀ x ∈ t.toList, g'.color x.1 = g.color x.1 ∧ g'.parent x.1 = g.parent x.1 ∧
      g'.child x.1 = g.child x.1 ∧ g'.value x.1 = some (f x)) : g'.Focus [] (t.relabel f) := by
  obtain ⟨h1,h2⟩ := focus_nil.mp h
  refine focus_nil.mpr ⟨?_,?_⟩
  · rw [hh]
    exact h1.relabel hn
  · rw [ids_relabel]
    exact h2

end Relabel
end PtrGraph
end Lilith.Theory
