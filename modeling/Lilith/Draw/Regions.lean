import Lilith.Draw.Model
import Lilith.Rbtree.Merge

/-! `Band::update` on the regions of one band: the value of every point from `xStart` to `xEnd` is
updated, and the memory of other bands is left alone. -/
namespace Lilith.Draw
open Theory PtrGraph CTree Rbtree

variable {V : Type} {tr : Regions V} {t : CTree (ℕ × Region V)} {f : Option V → Option V}

/-- Regions as intervals with a value. -/
def regionView : SpanView ℤ (Region V) V := ⟨Region.xStart,Region.xEnd,Region.value⟩

/-- Trees without augment values compute nothing that could fault. -/
lemma computes_unit {T A W : Type} [LinearOrder A] (v : SpanView A T W) : Computes Unit v :=
  fun t _ => augOf_unit t

/-- The regions after the value `o` was put on the points from `lo` to `hi`. -/
structure Put (tr : Regions V) (t : CTree (ℕ × Region V)) (lo hi : ℤ) (o : Option V)
    (tr' : Regions V) (t' : CTree (ℕ × Region V)) : Prop where
  tree : SpanTree regionView tr' t'
  denote : denote regionView t' = paint (denote regionView t) lo hi o
  spans : ∀ z ∈ values t', z ∈ values t ∨ z.xEnd = hi
  grows : Grows tr.heap t tr'.heap t'

/-- Nothing is put on no points. -/
lemma Put.refl (hs : SpanTree regionView tr t) {lo hi : ℤ} {o : Option V}
    (h : paint (Rbtree.denote regionView t) lo hi o = Rbtree.denote regionView t) :
    Put tr t lo hi o tr t := ⟨hs,h.symm,fun _ hz => Or.inl hz,Grows.refl _ _⟩

lemma insertRegion_ok (hs : SpanTree regionView tr t) (region : Region V)
    (hlt : region.xStart < region.xEnd)
    (hfree : ∀ p, region.xStart ≤ p → p < region.xEnd → denote regionView t p = none) :
    ∃ tr' t', Regions.insertRegion tr region = .ok tr' ∧
      Put tr t region.xStart region.xEnd (some region.value) tr' t' := by
  obtain ⟨tr',t',before,after,h1,h2,h3,h4,h5⟩ := hs.insertNew (computes_unit _)
    (fun x y => (rfl : Region.cmp x y = compare (regionView.lo x) (regionView.lo y))) hlt hfree
  refine ⟨tr',t',h1,h2,h2.denote_insert h3 h4,fun z hz => ?_,h5⟩
  rw [values_eq_append h4, List.map_cons, List.mem_append, List.mem_cons] at hz
  rw [values_eq_append h3, List.mem_append]
  rcases hz with hz | rfl | hz
  · exact Or.inl (Or.inl hz)
  · exact Or.inr rfl
  · exact Or.inl (Or.inr hz)

lemma insertSome_ok (hs : SpanTree regionView tr t) {lo hi : ℤ} (hlt : lo < hi) (o : Option V)
    (hfree : ∀ p, lo ≤ p → p < hi → denote regionView t p = none) :
    ∃ tr' t', Regions.insertSome tr lo hi o = .ok tr' ∧ Put tr t lo hi o tr' t' := by
  cases o with
  | none =>
    refine ⟨tr,t,rfl,Put.refl hs ?_⟩
    funext p
    unfold paint
    split_ifs with hp
    · exact (hfree p hp.1 hp.2).symm
    · rfl
  | some value => exact insertRegion_ok hs ⟨lo,hi,value⟩ hlt hfree

/-- The part of a round before the overlap with a region that was taken out. -/
lemma updateFront_ok (hs : SpanTree regionView tr t) {x : Region V} {start : ℤ}
    (hx : x.xStart < x.xEnd) (hs1 : start < x.xEnd)
    (hfree : ∀ p, start ≤ p → p < x.xEnd → denote regionView t p = none)
    (hfree' : ∀ p, x.xStart ≤ p → p < x.xEnd → denote regionView t p = none) :
    ∃ tr' t', Regions.updateFront tr start f x = .ok (max start x.xStart,tr') ∧
      SpanTree regionView tr' t' ∧ denote regionView t' =
        paint (paint (denote regionView t) start x.xStart (f none)) x.xStart start (some x.value) ∧
      (∀ z ∈ values t', z ∈ values t ∨ z.xEnd ≤ x.xEnd) ∧ Grows tr.heap t tr'.heap t' := by
  unfold Regions.updateFront
  split_ifs with hc1 hc2
  · obtain ⟨tr',t',h1,h2⟩ := insertSome_ok hs hc1 (f none) fun p hp1 hp2 => hfree p hp1 (hp2.trans hx)
    refine ⟨tr',t',?_,h2.tree,?_,fun z hz => ?_,h2.grows⟩
    · rw [max_eq_right hc1.le]
      simp only [h1, bind, Except.bind, pure, Except.pure]
    · rw [paint_empty hc1.le]
      exact h2.denote
    · rcases h2.spans z hz with hz | hz
      · exact Or.inl hz
      · exact Or.inr (hz.le.trans hx.le)
  · have hc2 : x.xStart < start := hc2
    obtain ⟨tr',t',h1,h2⟩ := insertRegion_ok hs ⟨x.xStart,start,x.value⟩ hc2 fun p hp1 hp2 =>
      hfree' p hp1 (hp2.trans hs1)
    refine ⟨tr',t',?_,h2.tree,?_,fun z hz => ?_,h2.grows⟩
    · rw [max_eq_left hc2.le]
      simp only [h1, bind, Except.bind, pure, Except.pure]
    · rw [paint_empty (m := denote regionView t) hc2.le]
      exact h2.denote
    · rcases h2.spans z hz with hz | hz
      · exact Or.inl hz
      · exact Or.inr (hz.le.trans hs1.le)
  · obtain rfl : start = x.xStart := by omega
    refine ⟨tr,t,by simp,hs,?_,fun z hz => Or.inl hz,Grows.refl _ _⟩
    rw [paint_empty le_rfl, paint_empty le_rfl]

/-- One round of the loop of `Band::update`. -/
lemma updateRound_ok (hs : SpanTree regionView tr t) {x : ℕ × Region V} (hx : x ∈ t.toList)
    {start end_ : ℤ} (h1 : start < x.2.xEnd) (h2 : x.2.xStart < end_) (h3 : start < end_)
    (hgap : ∀ p, start ≤ p → p < x.2.xStart → denote regionView t p = none) :
    ∃ tr' t', Regions.updateRound tr start end_ f x.1 = .ok (x.2.xEnd,tr') ∧
      SpanTree regionView tr' t' ∧
      denote regionView t' = mapOn f (denote regionView t) start (min end_ x.2.xEnd) ∧
      (∀ z ∈ values t', x.2.xEnd < z.xEnd → z ∈ values t ∧ x.2.xEnd ≤ z.xStart) ∧
      Grows tr.heap t tr'.heap t' := by
  have hlt : x.2.xStart < x.2.xEnd := hs.proper hx
  obtain ⟨tr1,t1,before,after,hr1,hs1,hl,hl1,hg1⟩ := hs.removeValue (computes_unit _) hx
  have hm1 : denote regionView t1 = paint (denote regionView t) x.2.xStart x.2.xEnd none :=
    hs.denote_remove hl hl1
  have hfree' : ∀ p, x.2.xStart ≤ p → p < x.2.xEnd → denote regionView t1 p = none := by
    intro p hp1 hp2
    rw [hm1]
    exact if_pos ⟨hp1,hp2⟩
  have hfree : ∀ p, start ≤ p → p < x.2.xEnd → denote regionView t1 p = none := by
    intro p hp1 hp2
    by_cases hp3 : x.2.xStart ≤ p
    · exact hfree' p hp3 hp2
    · rw [hm1, paint, if_neg (by omega)]
      exact hgap p hp1 (by omega)
  -- the other spans end before the one taken out or are behind it
  have hspans1 : ∀ z ∈ values t1, z ∈ values t ∧ (z.xEnd ≤ x.2.xEnd ∨ x.2.xEnd ≤ z.xStart) := by
    intro z hz
    obtain ⟨h4,h5⟩ := hs.beside_removed hl hl1 z hz
    refine ⟨h4,h5.imp_left fun h5 => ?_⟩
    have h5 : z.xEnd ≤ x.2.xStart := h5
    omega
  obtain ⟨tr2,t2,hr2,hs2,hm2,hspans2,hg2⟩ := updateFront_ok (f := f) hs1 hlt h1 hfree hfree'
  obtain ⟨tr3,t3,hr3,hp3⟩ := insertSome_ok hs2 (by omega : max start x.2.xStart < min end_ x.2.xEnd)
    (f (some x.2.value)) fun p hp1 hp2 => by
      rw [hm2, paint, if_neg (by omega), paint, if_neg (by omega)]
      exact hfree' p (by omega) (by omega)
  have hcut := cut_paint (m := denote regionView t) (F := f) hlt h1 h2
    (fun p hp1 hp2 => hs.denote_of_mem hx hp1 hp2) hgap
  have hspans3 : ∀ z ∈ values t3, x.2.xEnd < z.xEnd → z ∈ values t ∧ x.2.xEnd ≤ z.xStart := by
    intro z hz hlate
    rcases hp3.spans z hz with hz | hz
    · rcases hspans2 z hz with hz | hz
      · obtain ⟨h4,h5⟩ := hspans1 z hz
        exact ⟨h4,by omega⟩
      · omega
    · omega
  unfold Regions.updateRound
  simp only [hr1, hr2, hr3, bind, Except.bind]
  split_ifs with hc
  · obtain ⟨tr4,t4,hr4,hp4⟩ := insertRegion_ok hp3.tree ⟨end_,x.2.xEnd,x.2.value⟩ hc fun p hp1 hp2 => by
      simp only at hp1 hp2
      rw [hp3.denote, paint, if_neg (by omega), hm2, paint, if_neg (by omega), paint,
        if_neg (by omega)]
      exact hfree' p (by omega) hp2
    refine ⟨tr4,t4,by simp only [hr4, pure, Except.pure],hp4.tree,?_,fun z hz hlate => ?_,
      ((hg1.trans hg2).trans hp3.grows).trans hp4.grows⟩
    · rw [hp4.denote, hp3.denote, hm2, hm1]
      exact hcut
    · rcases hp4.spans z hz with hz | hz
      · exact hspans3 z hz hlate
      · simp only at hz
        omega
  · refine ⟨tr3,t3,rfl,hp3.tree,?_,hspans3,(hg1.trans hg2).trans hp3.grows⟩
    rw [hp3.denote, hm2, hm1, ← hcut, paint_empty (by omega : x.2.xEnd ≤ end_)]
    rfl

/-- The loop of `Band::update`: from where it stops on, the rest of the range is in no region. -/
lemma updateLoop_ok (fuel : ℕ) (hs : SpanTree regionView tr t) {start end_ : ℤ}
    (hbreak : start < end_ ∨ ∀ z ∈ values t, start < z.xEnd → end_ ≤ z.xStart)
    (hf : (regionView.later start (values t)).card < fuel) :
    ∃ start' tr' t', Regions.updateLoop end_ f fuel tr start = .ok (start',tr') ∧
      SpanTree regionView tr' t' ∧ start ≤ start' ∧
      denote regionView t' = mapOn f (denote regionView t) start (min end_ start') ∧
      (∀ p, start' ≤ p → p < end_ → denote regionView t' p = none) ∧
      Grows tr.heap t tr'.heap t' := by
  induction fuel generalizing tr t start with
  | zero => omega
  | succ fuel ih =>
    unfold Regions.updateLoop
    have hstop : mapOn f (denote regionView t) start (min end_ start) = denote regionView t :=
      mapOn_empty (min_le_right _ _)
    rcases hs.lowerBound_hi start fun x _ =>
      (rfl : decide (start < x.xEnd) = decide (start < regionView.hi x)) with
      ⟨hlb,hnone⟩ | ⟨x,hx,hlb,hhi,hgap⟩
    · refine ⟨start,tr,t,?_,hs,le_rfl,hstop.symm,fun p h1 _ => hnone p h1,Grows.refl _ _⟩
      simp only [hlb, bind, Except.bind, pure, Except.pure]
    · have hhi : start < x.2.xEnd := hhi
      obtain ⟨nx,_,hnx,hvx,_⟩ := hs.valid.node_of_mem hx
      simp only [hlb, bind, Except.bind, deref_eq hnx, hvx]
      split_ifs with hc
      · exact ⟨start,tr,t,rfl,hs,le_rfl,hstop.symm,fun p h1 h2 => hgap p h1 (show p < x.2.xStart by omega),
          Grows.refl _ _⟩
      · have hlt : start < end_ := by
          rcases hbreak with hb | hb
          · exact hb
          · exact absurd (hb x.2 (mem_values hx) hhi) hc
        obtain ⟨tr1,t1,hr1,hs1,hm1,hspans,hg1⟩ :=
          updateRound_ok (f := f) hs hx hhi (not_le.mp hc) hlt hgap
        have hcard : (regionView.later x.2.xEnd (values t1)).card <
            (regionView.later start (values t)).card :=
          SpanView.later_lt (mem_values hx) hhi fun z hz h => (hspans z hz h).1
        have hbreak1 : x.2.xEnd < end_ ∨
            ∀ z ∈ values t1, x.2.xEnd < z.xEnd → end_ ≤ z.xStart := by
          by_cases hend : x.2.xEnd < end_
          · exact Or.inl hend
          · exact Or.inr fun z hz hlate => by have := (hspans z hz hlate).2; omega
        obtain ⟨start2,tr2,t2,hr2,hs2,hle,hm2,hno,hg2⟩ := ih hs1 hbreak1 (by omega)
        refine ⟨start2,tr2,t2,?_,hs2,by omega,?_,hno,hg1.trans hg2⟩
        · simp only [hr1]
          exact hr2
        · rw [hm2, hm1]
          by_cases hend : x.2.xEnd ≤ end_
          · rw [min_eq_right hend, mapOn_trans (by omega) (by omega)]
          · rw [min_eq_left (by omega : end_ ≤ start2), min_eq_left (by omega), mapOn_empty]
            omega

/-- `Band::update` -/
theorem update_ok (hs : SpanTree regionView tr t) {start end_ : ℤ} (hlt : start < end_) :
    ∃ tr' t', Regions.update tr start end_ f = .ok tr' ∧ SpanTree regionView tr' t' ∧
      denote regionView t' = mapOn f (denote regionView t) start end_ ∧
      Grows tr.heap t tr'.heap t' := by
  have hfuel : (regionView.later start (values t)).card < tr.heap.bound := by
    have h1 : (regionView.later start (values t)).card ≤ (values t).length :=
      SpanView.later_card_le _ _
    have h2 : (values t).length = t.size := by simp [values]
    have h3 := hs.valid.lt_bound
    omega
  obtain ⟨start',tr1,t1,hr1,hs1,hle,hm1,hno,hg1⟩ := updateLoop_ok (f := f) _ hs (Or.inl hlt) hfuel
  unfold Regions.update
  simp only [hr1, bind, Except.bind]
  split_ifs with hc
  · obtain ⟨tr2,t2,hr2,hp2⟩ := insertSome_ok hs1 hc (f none) hno
    refine ⟨tr2,t2,hr2,hp2.tree,?_,hg1.trans hp2.grows⟩
    rw [hp2.denote, ← mapOn_eq_paint hno, hm1, min_eq_right hc.le, mapOn_trans hle hc.le]
  · exact ⟨tr1,t1,rfl,hs1,by rw [hm1, min_eq_left (not_lt.mp hc)],hg1⟩

end Lilith.Draw
