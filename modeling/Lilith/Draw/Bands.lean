import Lilith.Draw.Regions

/-! The bands of a banded region and the memory their regions share. A band that an operation is
working on is held outside of the tree of bands; its region tree is then one of the `held` ones.
The operations on bands only copy and compare region lists, so what they do is stated for any lists
of regions (`Laid`); in a sound state these are disjoint regions in order. -/
namespace Lilith.Draw
open Theory PtrGraph CTree Rbtree

variable {V : Type} {mem mem' : Heap (Region V) Unit} {p q : Ptr} {ps : List Ptr}
  {f : Option V → Option V}

/-- Bands as intervals, with the pointer to their regions. -/
def bandView : SpanView ℤ Band Ptr := ⟨Band.yStart,Band.yEnd,Band.regions⟩

/-- The region tree under a pointer. -/
def regionTree (mem : Heap (Region V) Unit) (p : Ptr) : CTree (ℕ × Region V) := RbTree.toTree ⟨mem,p⟩

/-- The map from the points of a row to values. -/
def row (mem : Heap (Region V) Unit) (p : Ptr) : ℤ → Option V := denote regionView (regionTree mem p)

/-- The regions under a pointer, from left to right. -/
def regs (mem : Heap (Region V) Unit) (p : Ptr) : List (Region V) := values (regionTree mem p)

/-- Two region trees with no common node. -/
def Apart (mem : Heap (Region V) Unit) (p q : Ptr) : Prop :=
  ∀ i ∈ (regionTree mem p).ids, i ∉ (regionTree mem q).ids

/-- Under the pointers are trees that share no node. -/
structure Held (mem : Heap (Region V) Unit) (ps : List Ptr) : Prop where
  trees : ∀ p ∈ ps, RbTree.Valid (⟨mem,p⟩ : Regions V) (regionTree mem p)
  apart : ps.Pairwise (Apart mem)

/-- Under the pointers are trees of disjoint regions that share no node. -/
structure Owned (mem : Heap (Region V) Unit) (ps : List Ptr) : Prop where
  trees : ∀ p ∈ ps, SpanTree regionView ⟨mem,p⟩ (regionTree mem p)
  apart : ps.Pairwise (Apart mem)

lemma Apart.symm (h : Apart mem p q) : Apart mem q p := fun i hq hp => h i hp hq

lemma regionTree_eq {t : CTree (ℕ × Region V)} (h : RbTree.Valid (⟨mem,p⟩ : Regions V) t) :
    regionTree mem p = t := h.toTree_eq

lemma regionTree_none (mem : Heap (Region V) Unit) : regionTree mem none = leaf := rfl

lemma regs_none (mem : Heap (Region V) Unit) : regs mem none = [] := rfl

lemma row_eq_lookup (mem : Heap (Region V) Unit) (p : Ptr) : row mem p = regionView.lookup (regs mem p) := rfl

namespace Held

lemma perm {ps' : List Ptr} (h : Held mem ps) (hp : ps.Perm ps') : Held mem ps' :=
  ⟨fun p hp' => h.trees p (hp.mem_iff.mpr hp'),hp.pairwise h.apart fun ha => Apart.symm ha⟩

lemma sublist {ps' : List Ptr} (h : Held mem ps) (hp : ps'.Sublist ps) : Held mem ps' :=
  ⟨fun p hp' => h.trees p (hp.subset hp'),h.apart.sublist hp⟩

/-- A new empty tree. -/
lemma new (h : Held mem ps) : Held mem (none::ps) := by
  refine ⟨fun q hq => ?_,List.pairwise_cons.mpr ⟨fun q _ i hi => by simp [regionTree_none] at hi,h.apart⟩⟩
  rcases List.mem_cons.mp hq with rfl | hq
  · exact ⟨⟨trivial,rfl,by simp [regionTree_none]⟩,⟨0,rfl⟩,trivial⟩
  · exact h.trees q hq

/-- The nodes of a tree are in use. -/
lemma lt_length (h : Held mem ps) (hp : p ∈ ps) : ∀ i ∈ (regionTree mem p).ids, i < mem.cells.length :=
  (h.trees p hp).lt_length

/-- Only the null pointer has no regions. -/
lemma regs_eq_nil (h : Held mem ps) (hp : p ∈ ps) : regs mem p = [] ↔ p = none := by
  constructor
  · intro hnil
    have hhead : p = (regionTree mem p).ptr := (h.trees p hp).focus.hole_eq
    have hlist : (regionTree mem p).toList = [] := List.map_eq_nil_iff.mp hnil
    cases ht : regionTree mem p with
    | leaf => rw [hhead, ht]; rfl
    | node c l x r => simp [ht] at hlist
  · rintro rfl
    exact regs_none mem

/-- Replacing one tree by another one, where the cells of the other trees stay as they are and the
new tree is of old nodes of the first one and of fresh ones. -/
lemma replace (h : Held mem (p::ps)) {t' : CTree (ℕ × Region V)} (ht : RbTree.Valid (⟨mem',q⟩ : Regions V) t')
    (hg : Grows mem (regionTree mem p) mem' t') :
    Held mem' (q::ps) ∧ (∀ r ∈ ps, regs mem' r = regs mem r) ∧ regs mem' q = values t' := by
  obtain ⟨hp,hps⟩ := List.pairwise_cons.mp h.apart
  have hkeep : ∀ r ∈ ps, ∀ i ∈ (regionTree mem r).ids, mem'.get? i = mem.get? i := fun r hr i hi =>
    hg.frame i (h.lt_length (by simp [hr]) i hi) fun hi' => hp r hr i hi' hi
  have htrees : ∀ r ∈ ps, RbTree.Valid (⟨mem',r⟩ : Regions V) (regionTree mem r) := fun r hr =>
    (h.trees r (by simp [hr])).congr (hkeep r hr)
  have hsame : ∀ r ∈ ps, regionTree mem' r = regionTree mem r := fun r hr => regionTree_eq (htrees r hr)
  have hq := regionTree_eq ht
  refine ⟨⟨fun r hr => ?_,List.pairwise_cons.mpr ⟨fun r hr i hi => ?_,?_⟩⟩,fun r hr => ?_,?_⟩
  · rcases List.mem_cons.mp hr with rfl | hr
    · rw [hq]
      exact ht
    · rw [hsame r hr]
      exact htrees r hr
  · rw [hsame r hr]
    rw [hq] at hi
    rcases hg.ids i hi with hi | hi
    · exact hp r hr i hi
    · exact fun hi' => absurd (h.lt_length (by simp [hr]) i hi') hi.not_gt
  · refine List.Pairwise.imp_of_mem (fun {a b} ha hb hab i hi => ?_) hps
    rw [hsame a ha] at hi
    rw [hsame b hb]
    exact hab i hi
  · rw [regs, hsame r hr]
    rfl
  · rw [regs, hq]

/-- A copy of a tree. -/
lemma clone (h : Held mem ps) (hp : p ∈ ps) : ∃ mem' q, RbTree.clone ⟨mem,p⟩ = .ok ⟨mem',q⟩ ∧
    Held mem' (q::ps) ∧ (∀ r ∈ ps, regs mem' r = regs mem r) ∧ regs mem' q = regs mem p := by
  obtain ⟨⟨mem',q⟩,t',h1,h2,h3,h4,h5⟩ := (h.trees p hp).clone
  -- like replacing a tree with no nodes
  have hg : Grows mem (regionTree mem none) mem' t' :=
    ⟨fun b hb _ => h5.frame b hb,fun i hi => Or.inr (h4 i hi),h5.length⟩
  obtain ⟨h6,h7,h8⟩ := h.new.replace h2 hg
  exact ⟨mem',q,h1,h6,h7,h8.trans h3.values_eq⟩

end Held

lemma Owned.held (h : Owned mem ps) : Held mem ps := ⟨fun p hp => (h.trees p hp).valid,h.apart⟩

lemma Held.owned (h : Held mem ps) (hw : ∀ p ∈ ps, regionView.WF (regs mem p)) : Owned mem ps :=
  ⟨fun p hp => ⟨h.trees p hp,hw p hp⟩,h.apart⟩

/-- The invariant of a banded region with the bands `tb`, of which some region trees are held. -/
structure Sound (st : BandedRegion V) (tb : CTree (ℕ × Band)) (held : List Ptr) : Prop where
  bands : SpanTree bandView st.bands tb
  owned : Owned st.mem (held ++ (values tb).map Band.regions)

/-- The part of it about the bands and the memory, for any lists of regions. -/
structure Laid (st : BandedRegion V) (tb : CTree (ℕ × Band)) (held : List Ptr) : Prop where
  bands : SpanTree bandView st.bands tb
  regions : Held st.mem (held ++ (values tb).map Band.regions)

/-- The same without the order of the bands. -/
structure Loose (st : BandedRegion V) (tb : CTree (ℕ × Band)) (held : List Ptr) : Prop where
  bands : st.bands.Valid tb
  regions : Held st.mem (held ++ (values tb).map Band.regions)

/-- The rows of the plane. -/
def rows (mem : Heap (Region V) Unit) (tb : CTree (ℕ × Band)) (y : ℤ) : ℤ → Option V :=
  (denote bandView tb y).elim (fun _ => none) (row mem)

/-- The regions of the band with a line. -/
def lines (mem : Heap (Region V) Unit) (tb : CTree (ℕ × Band)) (y : ℤ) : Option (List (Region V)) :=
  (denote bandView tb y).map (regs mem)

/-- The band with these regions, unless there are none. -/
def stored : List (Region V) → Option (List (Region V))
  | [] => none
  | xs => some xs

variable {st : BandedRegion V} {tb tb' : CTree (ℕ × Band)} {held : List Ptr}

lemma stored_getD (xs : List (Region V)) : (stored xs).getD [] = xs := by cases xs <;> rfl

lemma stored_ne_nil (xs : List (Region V)) : stored xs ≠ some [] := by cases xs <;> simp [stored]

lemma rows_eq_lookup (mem : Heap (Region V) Unit) (tb : CTree (ℕ × Band)) (y : ℤ) :
    rows mem tb y = regionView.lookup ((lines mem tb y).getD []) := by
  unfold rows lines
  cases denote bandView tb y <;> rfl

lemma lines_eq_none {y : ℤ} : lines mem tb y = none ↔ denote bandView tb y = none := Option.map_eq_none_iff

lemma lines_congr (h : ∀ r ∈ (values tb).map Band.regions, regs mem' r = regs mem r) :
    lines mem' tb = lines mem tb := by
  funext y
  unfold lines
  cases hl : denote bandView tb y with
  | none => rfl
  | some r =>
    obtain ⟨x,hx,hv⟩ := Option.map_eq_some_iff.mp hl
    exact congrArg some (h r (List.mem_map.mpr ⟨x,List.mem_of_find?_eq_some hx,hv⟩))

/-- Painting bands paints the lines. -/
lemma lines_paint {lo hi : ℤ} {o : Option Ptr} (h : denote bandView tb' = paint (denote bandView tb) lo hi o) :
    lines mem tb' = paint (lines mem tb) lo hi (o.map (regs mem)) := by
  funext y
  simp only [lines, h, paint]
  split_ifs <;> rfl

lemma Sound.laid (h : Sound st tb held) : Laid st tb held := ⟨h.bands,h.owned.held⟩

lemma Laid.loose (h : Laid st tb held) : Loose st tb held := ⟨h.bands.valid,h.regions⟩

lemma Laid.sound (h : Laid st tb held) (hw : ∀ p ∈ held ++ (values tb).map Band.regions, regionView.WF (regs st.mem p)) :
    Sound st tb held := ⟨h.bands,h.regions.owned hw⟩

namespace Laid

lemma lines_of_mem (h : Laid st tb held) {x : Band} (hx : x ∈ values tb) {y : ℤ} (h1 : x.yStart ≤ y)
    (h2 : y < x.yEnd) : lines st.mem tb y = some (regs st.mem x.regions) := by
  have hd : denote bandView tb y = some x.regions := h.bands.wf.lookup_of_mem hx ⟨h1,h2⟩
  rw [lines, hd]
  rfl

/-- Taking a band out of the tree. -/
lemma take (h : Laid st tb held) {x : ℕ × Band} (hx : x ∈ tb.toList) : ∃ bands tb',
    st.bands.removeValue (some x.1) = .ok (x.2,bands) ∧
    Laid { st with bands := bands } tb' (x.2.regions::held) ∧
    lines st.mem tb' = paint (lines st.mem tb) x.2.yStart x.2.yEnd none ∧
    (∀ z ∈ values tb', z ∈ values tb ∧ (z.yEnd ≤ x.2.yEnd ∨ x.2.yEnd ≤ z.yStart)) := by
  obtain ⟨bands,tb',before,after,h1,h2,hl,hl',_⟩ := h.bands.removeValue (computes_unit _) hx
  refine ⟨bands,tb',h1,⟨h2,h.regions.perm ?_⟩,lines_paint (h.bands.denote_remove hl hl'),fun z hz => ?_⟩
  · rw [values_eq_append hl, values_eq_append hl', List.map_cons, List.map_append, List.map_append,
      List.map_cons, List.cons_append]
    exact (List.perm_middle.append_left held).trans List.perm_middle
  · obtain ⟨h3,h4⟩ := h.bands.beside_removed hl hl' z hz
    have hlt : x.2.yStart < x.2.yEnd := h.bands.proper hx
    refine ⟨h3,h4.imp_left fun h4 => ?_⟩
    have h4 : z.yEnd ≤ x.2.yStart := h4
    omega

end Laid

/-- The state after a band with the regions `xs` was put on the lines from `lo` to `hi`. -/
structure PutBand (st : BandedRegion V) (tb : CTree (ℕ × Band)) (held : List Ptr) (lo hi : ℤ)
    (xs : Option (List (Region V))) (st' : BandedRegion V) (tb' : CTree (ℕ × Band)) : Prop where
  laid : Laid st' tb' held
  lines : lines st'.mem tb' = paint (lines st.mem tb) lo hi xs
  spans : ∀ z ∈ values tb', z ∈ values tb ∨ z.yEnd = hi
  kept : ∀ r ∈ held, regs st'.mem r = regs st.mem r

/-- `Band::update` with the columns of the rectangle, of a band with disjoint regions, gives regions that
are related to the old ones as `R` says. -/
def Updates (rect : Rect) (f : Option V → Option V) (R : List (Region V) → List (Region V) → Prop) : Prop :=
  ∀ ⦃mem p t⦄, SpanTree regionView (⟨mem,p⟩ : Regions V) t → ∃ tr' t',
    Regions.update ⟨mem,p⟩ rect.tl.x rect.br.x f = .ok tr' ∧ tr'.Valid t' ∧ R (values t) (values t') ∧
    Grows mem t tr'.heap t'

variable {rect : Rect} {R : List (Region V) → List (Region V) → Prop}

/-- The bands after one of them was put into the tree. -/
lemma held_insert {before after : List (ℕ × Band)} {x : ℕ × Band} (hl : tb.toList = before ++ after)
    (hl' : tb'.toList = before ++ x::after) (h : Held mem ((x.2.regions::held) ++ (values tb).map Band.regions)) :
    Held mem (held ++ (values tb').map Band.regions) := by
  refine h.perm ?_
  rw [values_eq_append hl, values_eq_append hl', List.map_cons, List.map_append, List.map_append,
    List.map_cons, List.cons_append]
  exact (List.perm_middle.symm).trans (List.perm_middle.symm.append_left held)

namespace Loose

/-- Putting a held band into the tree. -/
lemma insertBand (band : Band) (h : Loose st tb (band.regions::held)) : ∃ bands tb' before after n,
    st.insertBand band = .ok { st with bands := bands } ∧ Loose { st with bands := bands } tb' held ∧
    tb.toList = before ++ after ∧ tb'.toList = before ++ (n,band)::after := by
  obtain ⟨bands,tb',before,after,h1,h2,hl,hl',_⟩ := h.bands.insertNew augOf_unit Band.cmp band
  refine ⟨bands,tb',before,after,_,?_,⟨h2,held_insert hl hl' h.regions⟩,hl,hl'⟩
  simp only [BandedRegion.insertBand, h1, bind, Except.bind, pure, Except.pure]

/-- A copy of a held band. -/
lemma cloneBand (band : Band) (h : Loose st tb held) (hb : band.regions ∈ held) : ∃ mem' q,
    st.cloneBand band = .ok ({ band with regions := q },{ st with mem := mem' }) ∧
    Loose { st with mem := mem' } tb (q::held) ∧ lines mem' tb = lines st.mem tb ∧
    (∀ r ∈ held, regs mem' r = regs st.mem r) ∧ regs mem' q = regs st.mem band.regions := by
  obtain ⟨mem',q,h1,h2,h3,h4⟩ := h.regions.clone (List.mem_append_left _ hb)
  refine ⟨mem',q,?_,⟨h.bands,h2⟩,lines_congr fun r hr => h3 r (by simp [hr]),fun r hr => h3 r (by simp [hr]),h4⟩
  simp only [BandedRegion.cloneBand, h1, bind, Except.bind, pure, Except.pure]

/-- Dropping a held band. -/
lemma drop {r : Ptr} (h : Loose st tb (r::held)) : Loose st tb held :=
  ⟨h.bands,h.regions.sublist (List.sublist_cons_self _ _)⟩

end Loose

namespace Laid

/-- Putting a held band into the tree. -/
lemma insertBand (band : Band) (h : Laid st tb (band.regions::held)) (hlt : band.yStart < band.yEnd)
    (hfree : ∀ y, band.yStart ≤ y → y < band.yEnd → lines st.mem tb y = none) :
    ∃ st' tb', st.insertBand band = .ok st' ∧
      PutBand st tb held band.yStart band.yEnd (some (regs st.mem band.regions)) st' tb' := by
  obtain ⟨bands,tb',before,after,h1,h2,hl,hl',_⟩ := h.bands.insertNew (computes_unit _)
    (fun x y => (rfl : Band.cmp x y = compare (bandView.lo x) (bandView.lo y))) hlt
    fun y hy1 hy2 => lines_eq_none.mp (hfree y hy1 hy2)
  have hm : denote bandView tb' = paint (denote bandView tb) band.yStart band.yEnd
    (some band.regions) := h2.denote_insert hl hl'
  refine ⟨{ st with bands := bands },tb',?_,⟨h2,held_insert hl hl' h.regions⟩,lines_paint hm,fun z hz => ?_,
    fun _ _ => rfl⟩
  · simp only [BandedRegion.insertBand, h1, bind, Except.bind, pure, Except.pure]
  · rw [values_eq_append hl', List.map_cons, List.mem_append, List.mem_cons] at hz
    rw [values_eq_append hl, List.mem_append]
    rcases hz with hz | rfl | hz
    · exact Or.inl (Or.inl hz)
    · exact Or.inr rfl
    · exact Or.inl (Or.inr hz)

/-- A copy of a held band. -/
lemma cloneBand (band : Band) (h : Laid st tb held) (hb : band.regions ∈ held) : ∃ st' q,
    st.cloneBand band = .ok ({ band with regions := q },st') ∧ Laid st' tb (q::held) ∧
    lines st'.mem tb = lines st.mem tb ∧ (∀ r ∈ held, regs st'.mem r = regs st.mem r) ∧
    regs st'.mem q = regs st.mem band.regions := by
  obtain ⟨mem',q,h1,h2,h3⟩ := h.loose.cloneBand band hb
  exact ⟨{ st with mem := mem' },q,h1,⟨h.bands,h2.regions⟩,h3⟩

/-- `Band::update` of a held band. -/
lemma updateBand (band : Band) (h : Laid st tb (band.regions::held)) (hu : Updates rect f R)
    (hw : regionView.WF (regs st.mem band.regions)) : ∃ st' q,
    st.updateBand band rect f = .ok ({ band with regions := q },st') ∧ Laid st' tb (q::held) ∧
    lines st'.mem tb = lines st.mem tb ∧ (∀ r ∈ held, regs st'.mem r = regs st.mem r) ∧
    R (regs st.mem band.regions) (regs st'.mem q) := by
  obtain ⟨⟨mem',q⟩,t',h1,h2,h3,h4⟩ := hu ⟨h.regions.trees band.regions (by simp),hw⟩
  have hheld : Held st.mem (band.regions::(held ++ (values tb).map Band.regions)) := h.regions
  obtain ⟨h5,h6,h7⟩ := hheld.replace h2 h4
  refine ⟨{ st with mem := mem' },q,?_,⟨h.bands,h5⟩,lines_congr fun r hr => h6 r (by simp [hr]),
    fun r hr => h6 r (by simp [hr]),?_⟩
  · simp only [BandedRegion.updateBand, h1, bind, Except.bind, pure, Except.pure]
  · rw [h7]
    exact h3

/-- A new empty band. -/
lemma new (h : Laid st tb held) : Laid st tb (none::held) := ⟨h.bands,h.regions.new⟩

/-- Dropping a held band. -/
lemma drop {r : Ptr} (h : Laid st tb (r::held)) : Laid st tb held :=
  ⟨h.bands,h.regions.sublist (List.sublist_cons_self _ _)⟩

/-- Updating a held band and putting it into the tree, also when that leaves it without regions
and it is dropped. -/
lemma insertUpdated (band : Band) (h : Laid st tb (band.regions::held)) (hlt : band.yStart < band.yEnd)
    (hu : Updates rect f R) (hw : regionView.WF (regs st.mem band.regions))
    (hfree : ∀ y, band.yStart ≤ y → y < band.yEnd → lines st.mem tb y = none) :
    ∃ st' tb' ys, st.insertUpdated band rect f = .ok st' ∧ R (regs st.mem band.regions) ys ∧
      PutBand st tb held band.yStart band.yEnd (stored ys) st' tb' := by
  obtain ⟨st1,q,h1,h2,h3,h4,h5⟩ := h.updateBand band hu hw
  have hnil := h2.regions.regs_eq_nil (p := q) (by simp)
  unfold BandedRegion.insertUpdated
  simp only [h1, bind, Except.bind]
  cases q with
  | none =>
    refine ⟨st1,tb,[],rfl,h5,h2.drop,?_,fun _ hz => Or.inl hz,h4⟩
    rw [h3]
    funext y
    unfold paint
    split_ifs with hy
    · exact hfree y hy.1 hy.2
    · rfl
  | some a =>
    obtain ⟨st2,tb',h6,h7⟩ := h2.insertBand { band with regions := some a } hlt (h3 ▸ hfree)
    refine ⟨st2,tb',_,h6,h5,h7.laid,?_,h7.spans,fun r hr => (h7.kept r hr).trans (h4 r hr)⟩
    rw [h7.lines, h3]
    cases hxs : regs st1.mem (some a) with
    | nil => exact absurd (hnil.mp hxs) (by simp)
    | cons x xs => rfl

end Laid
end Lilith.Draw
