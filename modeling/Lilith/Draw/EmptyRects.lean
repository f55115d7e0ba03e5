import Lilith.Draw.Runs

/-! `update` with an empty rectangle. A region or a band that such a rectangle falls into is cut, and the parts are put
back with a piece between them that has no points, or with parts that overlap. -/
namespace Lilith.Draw
open Theory PtrGraph CTree Rbtree

variable {V : Type} {tr : Regions V} {t : CTree (ℕ × Region V)} {f : Option V → Option V} {start end_ : ℤ}

/-- Columns with no points fall into no region, or they take nothing away and put nothing between the parts. -/
def Spares (f : Option V → Option V) (start end_ : ℤ) (xs : List (Region V)) : Prop :=
  ∀ r ∈ xs, r.xStart < end_ → start < r.xEnd → start = end_ ∧ f (some r.value) = none

/-- The regions `ys` that an update of the regions `xs` with columns that have no points gives. -/
structure CutRow (f : Option V → Option V) (start end_ : ℤ) (xs ys : List (Region V)) : Prop where
  wf : regionView.WF ys ↔ Spares f start end_ xs
  same : Spares f start end_ xs → regionView.lookup ys = regionView.lookup xs
  nil : ys = [] ↔ xs = []

/-- Inserting a region anywhere. -/
lemma insertRegion_any (hv : tr.Valid t) (region : Region V) : ∃ tr' t' before after n,
    Regions.insertRegion tr region = .ok tr' ∧ tr'.Valid t' ∧ Grows tr.heap t tr'.heap t' ∧
    t.toList = before ++ after ∧ t'.toList = before ++ (n,region)::after := by
  obtain ⟨tr',t',before,after,h1,h2,h3,h4,h5⟩ := hv.insertNew augOf_unit Region.cmp region
  exact ⟨tr',t',before,after,_,h1,h2,h5,h3,h4⟩

section Inserted
variable {T A W : Type} [LinearOrder A] {v : SpanView A T W} {u u' : CTree (ℕ × T)} {before after : List (ℕ × T)} {x : ℕ × T}

lemma mem_of_inserted (h : u.toList = before ++ after) (h' : u'.toList = before ++ x::after) (z : T) :
    z ∈ values u' ↔ z ∈ values u ∨ z = x.2 := by
  rw [values_eq_append h', values_eq_append h, List.map_cons, List.mem_append, List.mem_cons, List.mem_append]
  tauto

/-- Inserting does not mend spans that are not disjoint. -/
lemma not_wf_of_inserted (h : u.toList = before ++ after) (h' : u'.toList = before ++ x::after)
    (hw : ¬v.WF (values u)) : ¬v.WF (values u') := by
  intro hw'
  rw [values_eq_append h', List.map_cons] at hw'
  rw [values_eq_append h] at hw
  exact hw hw'.remove

/-- Inserting a span with no points. -/
lemma not_wf_of_empty (h' : u'.toList = before ++ x::after) (hx : v.hi x.2 ≤ v.lo x.2) : ¬v.WF (values u') := by
  intro hw'
  rw [values_eq_append h', List.map_cons] at hw'
  exact absurd (hw'.proper x.2 (by simp)) hx.not_gt

/-- Inserting a span at a point that is taken. -/
lemma not_wf_of_taken (h : u.toList = before ++ after) (h' : u'.toList = before ++ x::after) {a : A}
    (ha : v.Contains x.2 a) (hl : denote v u a ≠ none) : ¬v.WF (values u') := by
  intro hw'
  rw [values_eq_append h', List.map_cons] at hw'
  apply hl
  unfold denote
  rw [values_eq_append h, hw'.lookup_remove]
  exact if_pos ha

/-- A point that is taken stays so. -/
lemma taken_of_inserted (h : u.toList = before ++ after) (h' : u'.toList = before ++ x::after) {a : A}
    (hl : denote v u a ≠ none) : denote v u' a ≠ none := by
  intro hn
  apply hl
  unfold denote at hn ⊢
  rw [SpanView.lookup_eq_none] at hn ⊢
  exact fun z hz => hn z ((mem_of_inserted h h' z).mpr (Or.inl hz))

/-- The first span that ends after a point which is taken. -/
lemma lowerBound_taken {U : Type} [Augment T U] {tu : RbTree T U} (hs : SpanTree v tu u) {eval : T → U → Bool} {a : A}
    (he : ∀ y w, eval y w = decide (a < v.hi y)) {z : T} (hz : z ∈ values u) (ha : v.Contains z a) :
    ∃ y ∈ u.toList, tu.lowerBoundRaw eval = .ok (some y.1) ∧ y.2 = z := by
  have hat : denote v u a = some (v.val z) := hs.wf.lookup_of_mem hz ha
  rcases hs.lowerBound_hi a he with ⟨_,hnone⟩ | ⟨y,hy,hlb,hhi,hgap⟩
  · rw [hnone a le_rfl] at hat
    simp at hat
  · refine ⟨y,hy,hlb,hs.wf.unique (mem_values hy) hz ⟨not_lt.mp fun hlt => ?_,hhi⟩ ha⟩
    rw [hgap a le_rfl hlt] at hat
    simp at hat

end Inserted

/-- The loop of `Band::update` stops when no region that ends behind `start` starts in front of `end_`. -/
lemma updateLoop_stops (hv : tr.Valid t) (hlate : ∀ z ∈ values t, start < z.xEnd → end_ ≤ z.xStart) (fuel : ℕ) :
    Regions.updateLoop end_ f (fuel+1) tr start = .ok (start,tr) := by
  unfold Regions.updateLoop
  have hfound := hv.lowerBoundRaw_sound (fun region _ => decide (start < region.xEnd))
    (fun x => decide (start < x.2.xEnd)) fun _ _ _ _ => rfl
  rcases hfound with hlb | ⟨x,hx,hlb,hp⟩
  · simp only [hlb, bind, Except.bind, pure, Except.pure]
  · obtain ⟨nx,_,hnx,hvx,_⟩ := hv.node_of_mem hx
    have hle := hlate x.2 (mem_values hx) (of_decide_eq_true hp)
    simp only [hlb, bind, Except.bind, deref_eq hnx, hvx, if_pos hle]
    rfl

/-- Putting the piece with no points between the parts of a region. -/
lemma insertSome_cut (hs : SpanTree regionView tr t) (hle : end_ ≤ start) (o : Option V) : ∃ tr' t',
    Regions.insertSome tr start end_ o = .ok tr' ∧ tr'.Valid t' ∧ Grows tr.heap t tr'.heap t' ∧
    (∀ z ∈ values t', z ∈ values t ∨ z.xEnd = end_) ∧ (o = none → tr' = tr ∧ t' = t) ∧
    (o ≠ none → ¬regionView.WF (values t')) ∧
    ∀ p, denote regionView t p ≠ none → denote regionView t' p ≠ none := by
  cases o with
  | none =>
    exact ⟨tr,t,rfl,hs.valid,Grows.refl _ _,fun _ hz => Or.inl hz,fun _ => ⟨rfl,rfl⟩,fun h => absurd rfl h,fun _ h => h⟩
  | some value =>
    obtain ⟨tr',t',before,after,n,h1,h2,h3,h4,h5⟩ := insertRegion_any hs.valid ⟨start,end_,value⟩
    refine ⟨tr',t',h1,h2,h3,fun z hz => ?_,fun h => by simp at h,fun _ => not_wf_of_empty h5 hle,fun p hp =>
      taken_of_inserted h4 h5 hp⟩
    rcases (mem_of_inserted h4 h5 z).mp hz with hz | rfl
    · exact Or.inl hz
    · exact Or.inr rfl

/-- The round of the loop of `Band::update` that cuts a region. -/
lemma updateRound_cut (hs : SpanTree regionView tr t) {x : ℕ × Region V} (hx : x ∈ t.toList) (h1 : x.2.xStart < end_)
    (h2 : end_ ≤ start) (h3 : start < x.2.xEnd) : ∃ tr' t', Regions.updateRound tr start end_ f x.1 = .ok (x.2.xEnd,tr') ∧
      tr'.Valid t' ∧ Grows tr.heap t tr'.heap t' ∧ (∀ z ∈ values t', x.2.xEnd < z.xEnd → end_ ≤ z.xStart) ∧
      values t' ≠ [] ∧ (regionView.WF (values t') ↔ start = end_ ∧ f (some x.2.value) = none) ∧
      (start = end_ → f (some x.2.value) = none → denote regionView t' = denote regionView t) := by
  have hlt : x.2.xStart < x.2.xEnd := hs.proper hx
  obtain ⟨tr1,t1,before,after,hr1,hs1,hl,hl1,hg1⟩ := hs.removeValue (computes_unit _) hx
  have hm1 : denote regionView t1 = paint (denote regionView t) x.2.xStart x.2.xEnd none :=
    hs.denote_remove hl hl1
  have hfree : ∀ p, x.2.xStart ≤ p → p < x.2.xEnd → denote regionView t1 p = none := by
    intro p hp1 hp2
    rw [hm1]
    exact if_pos ⟨hp1,hp2⟩
  have hspans1 : ∀ z ∈ values t1, x.2.xEnd < z.xEnd → end_ ≤ z.xStart := by
    intro z hz hlate
    rcases (hs.beside_removed hl hl1 z hz).2 with h4 | h4
    · have h4 : z.xEnd ≤ x.2.xStart := h4
      omega
    · have h4 : x.2.xEnd ≤ z.xStart := h4
      omega
  obtain ⟨tr2,t2,hr2,hs2,hm2,hspans2,hg2⟩ := updateFront_ok (f := f) hs1 hlt h3 (fun p hp1 => hfree p (by omega)) hfree
  rw [paint_empty (by omega : x.2.xStart ≤ start)] at hm2
  rw [max_eq_left (by omega : x.2.xStart ≤ start)] at hr2
  obtain ⟨tr3,t3,hr3,hv3,hg3,hspans3,hnone3,hbad3,hkeep3⟩ := insertSome_cut hs2 h2 (f (some x.2.value))
  have hlate3 : ∀ z ∈ values t3, x.2.xEnd < z.xEnd → end_ ≤ z.xStart := by
    intro z hz hlate
    rcases hspans3 z hz with hz | hz
    · rcases hspans2 z hz with hz | hz
      · exact hspans1 z hz hlate
      · omega
    · omega
  obtain ⟨tr4,t4,before4,after4,n,hr4,hv4,hg4,hl3,hl4⟩ := insertRegion_any hv3 ⟨end_,x.2.xEnd,x.2.value⟩
  have hrun : Regions.updateRound tr start end_ f x.1 = .ok (x.2.xEnd,tr4) := by
    unfold Regions.updateRound
    simp only [hr1, hr2, min_eq_left (by omega : end_ ≤ x.2.xEnd), hr3, bind, Except.bind,
      if_pos (by omega : end_ < x.2.xEnd), hr4, pure, Except.pure]
  have hlate4 : ∀ z ∈ values t4, x.2.xEnd < z.xEnd → end_ ≤ z.xStart := by
    intro z hz hlate
    rcases (mem_of_inserted hl3 hl4 z).mp hz with hz | rfl
    · exact hlate3 z hz hlate
    · exact le_rfl
  have hne : values t4 ≠ [] := by
    rw [values_eq_append hl4]
    simp
  refine ⟨tr4,t4,hrun,hv4,((hg1.trans hg2).trans hg3).trans hg4,hlate4,hne,?_⟩
  by_cases hgood : start = end_ ∧ f (some x.2.value) = none
  · -- the region is split in two
    obtain ⟨rfl,hnone⟩ := hgood
    obtain ⟨rfl,rfl⟩ := hnone3 hnone
    obtain ⟨tr5,t5,hr5,hp5⟩ := insertRegion_ok hs2 ⟨start,x.2.xEnd,x.2.value⟩ h3 fun p hp1 hp2 => by
      simp only at hp1 hp2
      rw [hm2, paint, if_neg (by omega)]
      exact hfree p (by omega) hp2
    obtain rfl := Except.ok.inj (hr4.symm.trans hr5)
    obtain rfl : t4 = t5 := hv4.toTree_eq.symm.trans hp5.tree.valid.toTree_eq
    refine ⟨⟨fun _ => ⟨rfl,hnone⟩,fun _ => hp5.tree.wf⟩,fun _ _ => ?_⟩
    rw [hp5.denote, hm2, hm1]
    funext p
    simp only [paint]
    split_ifs with h4 h5 h6
    · exact (hs.denote_of_mem hx (show x.2.xStart ≤ p by omega) h4.2).symm
    · exact (hs.denote_of_mem hx h5.1 (show p < x.2.xEnd by omega)).symm
    · omega
    · rfl
  · -- there is a piece with no points, or the parts overlap
    have hbad : ¬regionView.WF (values t4) := by
      by_cases hnone : f (some x.2.value) = none
      · have hlt2 : end_ < start := by
          rcases h2.lt_or_eq with h4 | h4
          · exact h4
          · exact absurd ⟨h4.symm,hnone⟩ hgood
        refine not_wf_of_taken hl3 hl4 (a := end_) ⟨le_rfl,show end_ < x.2.xEnd by omega⟩ (hkeep3 end_ ?_)
        rw [hm2, paint, if_pos ⟨h1.le,hlt2⟩]
        simp
      · exact not_wf_of_inserted hl3 hl4 (hbad3 hnone)
    exact ⟨⟨fun hw => absurd hw hbad,fun h4 => absurd h4 hgood⟩,fun h4 h5 => absurd ⟨h4,h5⟩ hgood⟩

/-- `Band::update` with columns that have no points. -/
theorem update_cut (hs : SpanTree regionView tr t) (hle : end_ ≤ start) : ∃ tr' t',
    Regions.update tr start end_ f = .ok tr' ∧ tr'.Valid t' ∧ CutRow f start end_ (values t) (values t') ∧
    Grows tr.heap t tr'.heap t' := by
  have hbound : t.size < tr.heap.bound := hs.valid.lt_bound
  by_cases hhit : ∃ r ∈ values t, r.xStart < end_ ∧ start < r.xEnd
  · obtain ⟨r,hr,h1,h2⟩ := hhit
    have hr' : regionView.Contains r start := ⟨show r.xStart ≤ start by omega,h2⟩
    obtain ⟨x,hx,hlb,rfl⟩ := lowerBound_taken hs (fun x _ =>
      (rfl : decide (start < x.xEnd) = decide (start < regionView.hi x))) hr hr'
    obtain ⟨tr1,t1,hr1,hv1,hg1,hlate,hne,hwf,hsame⟩ := updateRound_cut (f := f) hs hx h1 hle h2
    obtain ⟨fuel,hfuel⟩ : ∃ fuel, tr.heap.bound = fuel + 1 + 1 := by
      have hlen : (values t).length = t.size := by simp [values]
      have := List.length_pos_of_mem hr
      exact ⟨tr.heap.bound - 2,by omega⟩
    have hspares : Spares f start end_ (values t) ↔ start = end_ ∧ f (some x.2.value) = none := by
      constructor
      · intro h
        exact h x.2 hr h1 h2
      · intro h z hz h3 h4
        rw [hs.wf.unique hz hr ⟨show z.xStart ≤ start by omega,h4⟩ hr']
        exact h
    refine ⟨tr1,t1,?_,hv1,⟨hwf.trans hspares.symm,fun h => ?_,⟨fun h => absurd h hne,fun h => ?_⟩⟩,hg1⟩
    · obtain ⟨nx,_,hnx,hvx,_⟩ := hs.valid.node_of_mem hx
      unfold Regions.update
      rw [hfuel, Regions.updateLoop]
      simp only [hlb, bind, Except.bind, deref_eq hnx, hvx, if_neg (not_le.mpr h1), hr1,
        updateLoop_stops hv1 hlate fuel, if_neg (show ¬x.2.xEnd < end_ by omega)]
      rfl
    · obtain ⟨h3,h4⟩ := hspares.mp h
      exact hsame h3 h4
    · rw [h] at hr
      simp at hr
  · have hlate : ∀ z ∈ values t, start < z.xEnd → end_ ≤ z.xStart := by
      intro z hz h1
      by_contra h2
      exact hhit ⟨z,hz,not_le.mp h2,h1⟩
    obtain ⟨fuel,hfuel⟩ : ∃ fuel, tr.heap.bound = fuel + 1 := ⟨tr.heap.bound - 1,by omega⟩
    refine ⟨tr,t,?_,hs.valid,⟨⟨fun _ z hz h1 h2 => absurd ⟨z,hz,h1,h2⟩ hhit,fun _ => hs.wf⟩,fun _ => rfl,Iff.rfl⟩,
      Grows.refl _ _⟩
    unfold Regions.update
    rw [hfuel, updateLoop_stops hs.valid hlate fuel]
    simp only [bind, Except.bind, if_neg (not_lt.mpr hle)]
    rfl

variable {st : BandedRegion V} {tb : CTree (ℕ × Band)} {rect : Rect} {R : List (Region V) → List (Region V) → Prop}

/-- No point of the row has a value after an update with the columns of the rectangle. -/
def Emptied (rect : Rect) (f : Option V → Option V) (m : ℤ → Option V) : Prop :=
  ∀ x, mapOn f m rect.tl.x rect.br.x x = none

lemma updates_cut (hx : rect.br.x ≤ rect.tl.x) : Updates rect f (CutRow f rect.tl.x rect.br.x) :=
  fun _ _ _ hs => update_cut hs hx

lemma updates_emptied : Updates rect f fun xs ys => ys = [] ↔ Emptied rect f (regionView.lookup xs) := by
  intro mem p t hs
  by_cases hx : rect.tl.x < rect.br.x
  · obtain ⟨tr',t',h1,h2,h3,h4⟩ := update_ok (f := f) hs hx
    refine ⟨tr',t',h1,h2.valid,⟨fun hnil x => ?_,fun hnone => h2.wf.eq_nil fun x => ?_⟩,h4⟩
    · refine (congrFun h3 x).symm.trans ?_
      unfold denote
      rw [hnil]
      rfl
    · exact (congrFun h3 x).trans (hnone x)
  · have hx := not_lt.mp hx
    obtain ⟨tr',t',h1,h2,h3,h4⟩ := update_cut (f := f) hs hx
    refine ⟨tr',t',h1,h2,h3.nil.trans ⟨fun hnil x => ?_,fun hnone => hs.wf.eq_nil fun x => ?_⟩,h4⟩
    · rw [mapOn_empty hx, hnil]
      rfl
    · have := hnone x
      rw [mapOn_empty hx] at this
      exact this

/-- The loop of `update` stops when no band that ends behind `start` starts in front of the end of the rectangle. -/
lemma Loose.updateLoop_stops (h : Loose st tb []) {start : ℤ}
    (hlate : ∀ z ∈ values tb, start < z.yEnd → rect.br.y ≤ z.yStart) (fuel : ℕ) :
    BandedRegion.updateLoop rect f (fuel+1) st start = .ok (start,st) := by
  unfold BandedRegion.updateLoop
  have hfound := h.bands.lowerBoundRaw_sound (fun band _ => decide (start < band.yEnd))
    (fun x => decide (start < x.2.yEnd)) fun _ _ _ _ => rfl
  rcases hfound with hlb | ⟨x,hx,hlb,hp⟩
  · simp only [hlb, bind, Except.bind, pure, Except.pure]
  · obtain ⟨nx,_,hnx,hvx,_⟩ := h.bands.node_of_mem hx
    have hle := hlate x.2 (mem_values hx) (of_decide_eq_true hp)
    simp only [hlb, bind, Except.bind, deref_eq hnx, hvx, if_pos hle]
    rfl

/-- Updating a held band with no lines and putting it into the tree, unless it has no regions then. -/
lemma Laid.insertUpdated_cut {held : List Ptr} (band : Band) (h : Laid st tb (band.regions::held))
    (hle : band.yEnd ≤ band.yStart) (hu : Updates rect f R) (hw : regionView.WF (regs st.mem band.regions)) :
    ∃ st' tb' ys, st.insertUpdated band rect f = .ok st' ∧ R (regs st.mem band.regions) ys ∧ Loose st' tb' held ∧
      (∀ r ∈ held, regs st'.mem r = regs st.mem r) ∧ (∀ z ∈ values tb', z ∈ values tb ∨ z.yEnd = band.yEnd) ∧
      (ys = [] → Laid st' tb' held ∧ lines st'.mem tb' = lines st.mem tb) ∧
      (ys ≠ [] → ¬bandView.WF (values tb')) ∧
      ∀ y, denote bandView tb y ≠ none → denote bandView tb' y ≠ none := by
  obtain ⟨st1,q,h1,h2,h3,h4,h5⟩ := h.updateBand band hu hw
  have hnil := h2.regions.regs_eq_nil (p := q) (by simp)
  unfold BandedRegion.insertUpdated
  simp only [h1, bind, Except.bind]
  cases q with
  | none =>
    have hregs : regs st1.mem none = [] := hnil.mpr rfl
    exact ⟨st1,tb,_,rfl,h5,h2.drop.loose,h4,fun _ hz => Or.inl hz,fun _ => ⟨h2.drop,h3⟩,fun hne => absurd hregs hne,
      fun _ hy => hy⟩
  | some a =>
    obtain ⟨bands,tb',before,after,n,h6,h7,hl,hl'⟩ := h2.loose.insertBand { band with regions := some a }
    refine ⟨_,tb',_,h6,h5,h7,h4,fun z hz => ?_,fun hys => ?_,fun _ => not_wf_of_empty hl' hle,fun y hy =>
      taken_of_inserted hl hl' hy⟩
    · rcases (mem_of_inserted hl hl' z).mp hz with hz | rfl
      · exact Or.inl hz
      · exact Or.inr rfl
    · have := hnil.mp hys
      simp at this

/-- The round of the loop of `update` that cuts a band. -/
lemma Sound.updateRound_cut (h : Sound st tb []) {x : ℕ × Band} (hx : x ∈ tb.toList) (h1 : x.2.yStart < rect.br.y)
    (h2 : rect.br.y ≤ rect.tl.y) (h3 : rect.tl.y < x.2.yEnd) : ∃ st' tb',
      st.updateRound rect.tl.y rect f x.1 = .ok (x.2.yEnd,st') ∧ Loose st' tb' [] ∧
      (∀ z ∈ values tb', x.2.yEnd < z.yEnd → rect.br.y ≤ z.yStart) ∧
      (rect.tl.y = rect.br.y ∧ Emptied rect f (row st.mem x.2.regions) →
        Laid st' tb' [] ∧ lines st'.mem tb' = lines st.mem tb) ∧
      (¬(rect.tl.y = rect.br.y ∧ Emptied rect f (row st.mem x.2.regions)) → ¬bandView.WF (values tb')) := by
  have hlt : x.2.yStart < x.2.yEnd := h.bands.proper hx
  have hw : regionView.WF (regs st.mem x.2.regions) :=
    (h.owned.trees _ (List.mem_map_of_mem (mem_values hx))).wf
  obtain ⟨bands,tb1,hr1,hs1,hm1,hspans1⟩ := h.laid.take hx
  have hfree : ∀ y, x.2.yStart ≤ y → y < x.2.yEnd → lines st.mem tb1 y = none := by
    intro y hy1 hy2
    rw [hm1]
    exact if_pos ⟨hy1,hy2⟩
  obtain ⟨st2,tb2,e,hr2,hs2,_,hm2,_,hspans2,hk2⟩ := hs1.updateFront (updates_emptied : Updates rect f _) hlt h3
    (fun y hy1 => hfree y (by omega)) hfree
  rw [paint_empty (by omega : x.2.yStart ≤ rect.tl.y)] at hm2
  rw [max_eq_left (by omega : x.2.yStart ≤ rect.tl.y)] at hr2
  obtain ⟨st3,q,hr3,hs3,hm3,hk3,hq3⟩ := hs2.cloneBand x.2 (by simp)
  have hq : regs st3.mem q = regs st.mem x.2.regions := hq3.trans (hk2 _ (by simp))
  obtain ⟨st4,tb4,ys,hr4,hys,hs4,hk4,hspans4,hgood4,hbad4,hkeep4⟩ := hs3.insertUpdated_cut
    ⟨rect.tl.y,rect.br.y,q⟩ h2 (updates_emptied : Updates rect f _) (hq ▸ hw)
  obtain ⟨mem5,q5,hr5,hs5,hm5,_,hq5⟩ := hs4.cloneBand x.2 (by simp)
  obtain ⟨bands6,tb6,before,after,n,hr6,hs6,hl,hl'⟩ := hs5.insertBand ⟨rect.br.y,x.2.yEnd,q5⟩
  rw [hq] at hys
  have hcut : rect.br.y < x.2.yEnd := by omega
  refine ⟨_,tb6,?_,hs6.drop,fun z hz hlate => ?_,fun ⟨hflat,hempty⟩ => ?_,fun hnot => ?_⟩
  · unfold BandedRegion.updateRound
    simp only [hr1, hr2, hr3, min_eq_left hcut.le, hr4, if_pos hcut, hr5, hr6, bind, Except.bind, pure, Except.pure]
  · rcases (mem_of_inserted hl hl' z).mp hz with hz | rfl
    · rcases hspans4 z hz with hz | hz
      · rcases hspans2 z hz with hz | hz
        · have := (hspans1 z hz).2
          omega
        · omega
      · simp only at hz
        omega
    · exact le_rfl
  · -- the band is split in two
    obtain ⟨hs4',hm4⟩ := hgood4 (hys.mpr hempty)
    have hs5' : Laid { st4 with mem := mem5 } tb4 (q5::[x.2.regions]) := ⟨hs4'.bands,hs5.regions⟩
    have hlines : lines mem5 tb4 = paint (paint (lines st.mem tb) x.2.yStart x.2.yEnd none) x.2.yStart rect.tl.y
        (some (regs st.mem x.2.regions)) := by
      rw [hm5, hm4, hm3, hm2, hm1]
    obtain ⟨st7,tb7,hr7,hp7⟩ := hs5'.insertBand ⟨rect.br.y,x.2.yEnd,q5⟩ hcut fun y hy1 hy2 => by
      simp only at hy1 hy2
      rw [hlines, paint, if_neg (by omega), paint, if_pos ⟨by omega,hy2⟩]
    obtain rfl := Except.ok.inj (hr6.symm.trans hr7)
    obtain rfl : tb6 = tb7 := hs6.bands.toTree_eq.symm.trans hp7.laid.bands.valid.toTree_eq
    refine ⟨hp7.laid.drop,?_⟩
    have hregs : regs mem5 q5 = regs st.mem x.2.regions := by
      rw [hq5, hk4 _ (by simp), hk3 _ (by simp), hk2 _ (by simp)]
    rw [hp7.lines]
    simp only [hlines, hregs]
    funext y
    simp only [paint]
    split_ifs with h4 h5 h6
    · exact (h.laid.lines_of_mem (mem_values hx) (by omega) h4.2).symm
    · exact (h.laid.lines_of_mem (mem_values hx) h5.1 (by omega)).symm
    · omega
    · rfl
  · -- there is a piece with no lines, or the parts overlap
    by_cases hnil : ys = []
    · have hlt2 : rect.br.y < rect.tl.y := by
        rcases h2.lt_or_eq with h4 | h4
        · exact h4
        · exact absurd ⟨h4.symm,hys.mp hnil⟩ hnot
      refine not_wf_of_taken hl hl' (a := rect.br.y) ⟨le_rfl,hcut⟩ (hkeep4 _ fun hnone => ?_)
      have hline : lines st2.mem tb2 rect.br.y = none := lines_eq_none.mpr hnone
      rw [hm2, paint, if_pos ⟨h1.le,hlt2⟩] at hline
      simp at hline
    · exact not_wf_of_inserted hl hl' (hbad4 hnil)

/-- An empty rectangle does no harm: it falls into no band; or it has lines, and its columns are spared by the bands that
it falls into; or it is flat, and the update would leave nothing of the band it falls into. -/
def Harmless (st : BandedRegion V) (rect : Rect) (f : Option V → Option V) : Prop :=
  ∀ b ∈ values st.bands.toTree, b.yStart < rect.br.y → rect.tl.y < b.yEnd →
    if rect.tl.y < rect.br.y then Spares f rect.tl.x rect.br.x (regs st.mem b.regions)
    else rect.tl.y = rect.br.y ∧ Emptied rect f (row st.mem b.regions)

/-- An update changes the value of no point, and leaves bands and regions sorted, disjoint and not empty. -/
def NoOp (st : BandedRegion V) (rect : Rect) (f : Option V → Option V) : Prop :=
  ∃ st', st.update rect f = .ok st' ∧ Sound st' st'.bands.toTree [] ∧ ∀ p, st'.value p = st.value p

lemma value_of_lines {st' : BandedRegion V} {tb' : CTree (ℕ × Band)} (htb : st.bands.toTree = tb)
    (htb' : st'.bands.toTree = tb') (h : ∀ y, regionView.lookup ((lines st'.mem tb' y).getD []) =
      regionView.lookup ((lines st.mem tb y).getD [])) (p : Point) : st'.value p = st.value p := by
  unfold BandedRegion.value
  rw [htb, htb', rows_eq_lookup, rows_eq_lookup, h]

namespace Sound

/-- An empty rectangle that has lines. -/
lemma noOp_of_lines (h : Sound st tb []) (hy : rect.tl.y < rect.br.y) (hx : rect.br.x ≤ rect.tl.x) :
    NoOp st rect f ↔ Harmless st rect f := by
  obtain ⟨st',tb',stop,h1,h2,h3⟩ := h.laid.update (f := f) (updates_cut hx) (h.wfLines _) hy
  have htree : st'.bands.toTree = tb' := h2.bands.valid.toTree_eq
  constructor
  · intro ⟨st1,hrun,hsound,_⟩ b hb hb1 hb2
    obtain rfl := Except.ok.inj (h1.symm.trans hrun)
    rw [htree] at hsound
    rw [h.toTree_eq] at hb
    rw [if_pos hy]
    -- a line of the band in the rectangle
    have hline := h.laid.lines_of_mem hb (le_max_left b.yStart rect.tl.y) (max_lt (h.bands.wf.proper b hb) hb2)
    have hcut := h3.getD (le_max_right b.yStart rect.tl.y) (max_lt hb1 hy)
    rw [hline] at hcut
    refine hcut.wf.mp ?_
    cases hl : lines st'.mem tb' (max b.yStart rect.tl.y) with
    | none => exact SpanView.WF.nil
    | some ys => exact hsound.wfLines _ _ ys le_rfl hl
  · intro hharm
    have hspares : ∀ y, rect.tl.y ≤ y → y < rect.br.y →
        Spares f rect.tl.x rect.br.x ((lines st.mem tb y).getD []) := by
      intro y hy1 hy2
      cases hl : lines st.mem tb y with
      | none => exact fun r hr => absurd hr (by simp)
      | some xs =>
        obtain ⟨p,hp,rfl⟩ := Option.map_eq_some_iff.mp hl
        obtain ⟨b,hb,⟨hb1,hb2⟩,rfl⟩ := h.bands.wf.lookup_eq_some.mp hp
        have hb1 : b.yStart ≤ y := hb1
        have hb2 : y < b.yEnd := hb2
        have := hharm b (by rw [h.toTree_eq]; exact hb) (by omega) (by omega)
        rw [if_pos hy] at this
        exact this
    refine ⟨st',h1,htree ▸ h2.sound_of_lines fun y ys hl => ?_,value_of_lines h.toTree_eq htree fun y => ?_⟩
    · by_cases hin : rect.tl.y ≤ y ∧ y < rect.br.y
      · have := (h3.getD hin.1 hin.2).wf.mpr (hspares y hin.1 hin.2)
        rw [hl] at this
        exact this
      · rw [h3.outside y (by omega)] at hl
        exact h.wfLines y y ys le_rfl hl
    · by_cases hin : rect.tl.y ≤ y ∧ y < rect.br.y
      · exact (h3.getD hin.1 hin.2).same (hspares y hin.1 hin.2)
      · rw [h3.outside y (by omega)]

/-- An empty rectangle that has no lines. -/
lemma noOp_of_flat (h : Sound st tb []) (hy : rect.br.y ≤ rect.tl.y) : NoOp st rect f ↔ Harmless st rect f := by
  have hbound : tb.size < st.bands.heap.bound := h.bands.valid.lt_bound
  by_cases hhit : ∃ b ∈ values tb, b.yStart < rect.br.y ∧ rect.tl.y < b.yEnd
  · obtain ⟨b,hb,h1,h2⟩ := hhit
    have hb' : bandView.Contains b rect.tl.y := ⟨show b.yStart ≤ rect.tl.y by omega,h2⟩
    obtain ⟨x,hx,hlb,rfl⟩ := lowerBound_taken h.bands (fun x _ =>
      (rfl : decide (rect.tl.y < x.yEnd) = decide (rect.tl.y < bandView.hi x))) hb hb'
    obtain ⟨st1,tb1,hr1,hs1,hlate,hgood,hbad⟩ := h.updateRound_cut (f := f) hx h1 hy h2
    have hharm : Harmless st rect f ↔ rect.tl.y = rect.br.y ∧ Emptied rect f (row st.mem x.2.regions) := by
      unfold Harmless
      rw [h.toTree_eq]
      simp only [if_neg (not_lt.mpr hy)]
      constructor
      · intro hall
        exact hall x.2 hb h1 h2
      · intro hone z hz h3 h4
        rw [h.bands.wf.unique hz hb ⟨show z.yStart ≤ rect.tl.y by omega,h4⟩ hb']
        exact hone
    have hrun : st.update rect f = .ok st1 := by
      obtain ⟨fuel,hfuel⟩ : ∃ fuel, st.bands.heap.bound = fuel + 1 + 1 := by
        have hlen : (values tb).length = tb.size := by simp [values]
        have := List.length_pos_of_mem hb
        exact ⟨st.bands.heap.bound - 2,by omega⟩
      obtain ⟨nx,_,hnx,hvx,_⟩ := h.bands.valid.node_of_mem hx
      unfold BandedRegion.update
      rw [hfuel, BandedRegion.updateLoop]
      simp only [hlb, bind, Except.bind, deref_eq hnx, hvx, if_neg (not_le.mpr h1), hr1,
        hs1.updateLoop_stops hlate fuel, if_neg (show ¬x.2.yEnd < rect.br.y by omega)]
      rfl
    have htree : st1.bands.toTree = tb1 := hs1.bands.toTree_eq
    rw [hharm]
    constructor
    · rintro ⟨st2,hrun2,hsound,_⟩
      obtain rfl := Except.ok.inj (hrun.symm.trans hrun2)
      rw [htree] at hsound
      by_contra hnot
      exact hbad hnot hsound.bands.wf
    · intro hone
      obtain ⟨h3,h4⟩ := hgood hone
      refine ⟨st1,hrun,htree ▸ h3.sound_of_lines fun y ys hl => ?_,value_of_lines h.toTree_eq htree fun y => by rw [h4]⟩
      rw [h4] at hl
      exact h.wfLines y y ys le_rfl hl
  · have hlate : ∀ z ∈ values tb, rect.tl.y < z.yEnd → rect.br.y ≤ z.yStart := by
      intro z hz h1
      by_contra h2
      exact hhit ⟨z,hz,not_le.mp h2,h1⟩
    constructor
    · intro _ b hb h1 h2
      rw [h.toTree_eq] at hb
      exact absurd ⟨b,hb,h1,h2⟩ hhit
    · intro _
      refine ⟨st,?_,h.toTree_eq ▸ h,fun _ => rfl⟩
      obtain ⟨fuel,hfuel⟩ : ∃ fuel, st.bands.heap.bound = fuel + 1 := ⟨st.bands.heap.bound - 1,by omega⟩
      unfold BandedRegion.update
      rw [hfuel, h.laid.loose.updateLoop_stops hlate fuel]
      simp only [bind, Except.bind, if_neg (not_lt.mpr hy)]
      rfl

lemma noOp_iff (h : Sound st tb []) (hrect : rect.isEmpty = true) : NoOp st rect f ↔ Harmless st rect f := by
  by_cases hy : rect.tl.y < rect.br.y
  · refine h.noOp_of_lines hy ?_
    simp only [Rect.isEmpty, decide_eq_true_eq] at hrect
    omega
  · exact h.noOp_of_flat (not_lt.mp hy)

end Sound

/-- An update with an empty rectangle changes no point and keeps bands and regions sorted, disjoint and not empty if and
only if the rectangle is harmless. -/
theorem update_empty_iff [DecidableEq V] (h : Reachable st) (hrect : rect.isEmpty = true) (f : Option V → Option V) :
    (∃ st', st.update rect f = .ok st' ∧ Sound st' st'.bands.toTree [] ∧ ∀ p, st'.value p = st.value p) ↔
      Harmless st rect f := by
  obtain ⟨tb,hs⟩ := h.sound
  exact hs.noOp_iff hrect

/-- A region with the value 7 in a square. -/
def square : BandedRegion ℕ :=
  ⟨⟨⟨[some ⟨.red,none,none,none,⟨0,4,some 0⟩,some ()⟩]⟩,some 0⟩,⟨[some ⟨.red,none,none,none,⟨0,4,7⟩,some ()⟩]⟩⟩

lemma reachable_square : Reachable square :=
  (Reachable.new ⟨[]⟩ ⟨[]⟩).insert (show Rect.isEmpty ⟨⟨0,0⟩,⟨4,4⟩⟩ = false by decide)
    (show (BandedRegion.new ⟨[]⟩ ⟨[]⟩ : BandedRegion ℕ).insert ⟨⟨0,0⟩,⟨4,4⟩⟩ 7 = .ok square from rfl)

lemma bands_square : values square.bands.toTree = [⟨0,4,some 0⟩] := rfl

lemma regs_square : regs square.mem (some 0) = [⟨0,4,7⟩] := rfl

/-- Removing a column of the square that has no points. -/
theorem update_empty_iff_remove : ∃ st', square.update ⟨⟨2,1⟩,⟨2,3⟩⟩ (fun _ => none) = .ok st' ∧
    Sound st' st'.bands.toTree [] ∧ ∀ p, st'.value p = square.value p := by
  refine (update_empty_iff reachable_square (by decide) _).mpr fun b hb _ _ => ?_
  rw [if_pos (by decide)]
  exact fun r _ _ _ => ⟨rfl,rfl⟩

/-- Inserting a value in a column of the square that has no points. -/
theorem update_empty_not_noOp : ¬∃ st', square.update ⟨⟨2,1⟩,⟨2,3⟩⟩ (fun _ => some 9) = .ok st' ∧
    Sound st' st'.bands.toTree [] ∧ ∀ p, st'.value p = square.value p := by
  obtain ⟨tb,hs⟩ := reachable_square.sound
  intro h
  have hharm := (hs.noOp_iff (by decide)).mp h ⟨0,4,some 0⟩ (by rw [bands_square]; simp) (by decide) (by decide)
  rw [if_pos (by decide)] at hharm
  have := hharm ⟨0,4,7⟩ (by rw [regs_square]; simp) (by decide) (by decide)
  simp at this

end Lilith.Draw
