import Lilith.Draw.Bands

/-! `BandedRegion::update` changes the value of every point of its rectangle and of no other. -/
namespace Lilith.Draw
open Theory PtrGraph CTree Rbtree

variable {V : Type} {st : BandedRegion V} {tb : CTree (ℕ × Band)} {held : List Ptr}
  {f : Option V → Option V} {rect : Rect} {R : List (Region V) → List (Region V) → Prop}

/-- What the loop does to the bands of a line: updated regions are stored if there are any. -/
def Stored (R : List (Region V) → List (Region V) → Prop) (o o' : Option (List (Region V))) : Prop :=
  ∃ ys, R (o.getD []) ys ∧ o' = stored ys

/-- The part of a round before the overlap with a band that was taken out. -/
lemma Laid.updateFront {x : Band} (h : Laid st tb (x.regions::held)) {start : ℤ} (hu : Updates rect f R)
    (hx : x.yStart < x.yEnd) (hs1 : start < x.yEnd)
    (hfree : ∀ y, start ≤ y → y < x.yEnd → lines st.mem tb y = none)
    (hfree' : ∀ y, x.yStart ≤ y → y < x.yEnd → lines st.mem tb y = none) :
    ∃ st' tb' e, st.updateFront start rect f x = .ok (max start x.yStart,st') ∧
      Laid st' tb' (x.regions::held) ∧ (start < x.yStart → Stored R none e) ∧ lines st'.mem tb' =
        paint (paint (lines st.mem tb) start x.yStart e) x.yStart start (some (regs st.mem x.regions)) ∧
      (∀ y, max start x.yStart ≤ y → y < x.yEnd → lines st'.mem tb' y = none) ∧
      (∀ z ∈ values tb', z ∈ values tb ∨ z.yEnd ≤ x.yEnd) ∧
      ∀ r ∈ x.regions::held, regs st'.mem r = regs st.mem r := by
  unfold BandedRegion.updateFront
  split_ifs with hc1 hc2
  · obtain ⟨st1,tb1,ys,h1,h2,h3⟩ := h.new.insertUpdated (.new start x.yStart) hc1 hu SpanView.WF.nil
      fun y hy1 hy2 => hfree y hy1 (lt_trans hy2 hx)
    refine ⟨st1,tb1,stored ys,?_,h3.laid,fun _ => ⟨ys,h2,rfl⟩,?_,fun y hy1 hy2 => ?_,fun z hz => ?_,h3.kept⟩
    · rw [max_eq_right hc1.le]
      simp only [h1, bind, Except.bind, pure, Except.pure]
    · rw [paint_empty hc1.le]
      exact h3.lines
    · rw [h3.lines, paint, if_neg (by simp only [Band.new]; omega)]
      exact hfree' y (by omega) hy2
    · rcases h3.spans z hz with hz | hz
      · exact Or.inl hz
      · exact Or.inr (by simp only [Band.new] at hz; omega)
  · have hc2 : x.yStart < start := hc2
    obtain ⟨st1,q,h1,h2,h3,h4,h5⟩ := h.cloneBand x (by simp)
    obtain ⟨st2,tb2,h6,h7⟩ := h2.insertBand ⟨x.yStart,start,q⟩ hc2 fun y hy1 hy2 => by
      rw [h3]
      exact hfree' y hy1 (lt_trans hy2 hs1)
    refine ⟨st2,tb2,none,?_,h7.laid,fun hlt => absurd hlt hc1,?_,fun y hy1 hy2 => ?_,fun z hz => ?_,fun r hr =>
      (h7.kept r hr).trans (h4 r hr)⟩
    · rw [max_eq_left hc2.le]
      simp only [h1, h6, bind, Except.bind, pure, Except.pure]
    · rw [h7.lines, h3, h5, paint_empty (m := lines st.mem tb) hc2.le]
    · rw [h7.lines, paint, if_neg (by simp only; omega), h3]
      exact hfree' y (by omega) hy2
    · rcases h7.spans z hz with hz | hz
      · exact Or.inl hz
      · exact Or.inr (by simp only at hz; omega)
  · obtain rfl : start = x.yStart := by omega
    refine ⟨st,tb,none,by simp,h,fun hlt => absurd hlt (lt_irrefl _),?_,fun y hy1 hy2 => hfree' y (by omega) hy2,
      fun z hz => Or.inl hz,fun _ _ => rfl⟩
    rw [paint_empty le_rfl, paint_empty le_rfl]

/-- One round of the loop of `update`. -/
lemma Laid.updateRound (h : Laid st tb held) {x : ℕ × Band} (hx : x ∈ tb.toList) {start : ℤ}
    (hu : Updates rect f R) (hw : regionView.WF (regs st.mem x.2.regions)) (h1 : start < x.2.yEnd)
    (h2 : x.2.yStart < rect.br.y) (h3 : start < rect.br.y)
    (hgap : ∀ y, start ≤ y → y < x.2.yStart → lines st.mem tb y = none) :
    ∃ st' tb', st.updateRound start rect f x.1 = .ok (x.2.yEnd,st') ∧ Laid st' tb' held ∧
      Changed (Stored R) (lines st.mem tb) (lines st'.mem tb') start (min rect.br.y x.2.yEnd) ∧
      ∀ z ∈ values tb', x.2.yEnd < z.yEnd → z ∈ values tb ∧ x.2.yEnd ≤ z.yStart := by
  have hlt : x.2.yStart < x.2.yEnd := h.bands.proper hx
  obtain ⟨bands,tb1,hr1,hs1,hm1,hspans1⟩ := h.take hx
  have hfree' : ∀ y, x.2.yStart ≤ y → y < x.2.yEnd → lines st.mem tb1 y = none := by
    intro y hy1 hy2
    rw [hm1]
    exact if_pos ⟨hy1,hy2⟩
  have hfree : ∀ y, start ≤ y → y < x.2.yEnd → lines st.mem tb1 y = none := by
    intro y hy1 hy2
    by_cases hy3 : x.2.yStart ≤ y
    · exact hfree' y hy3 hy2
    · rw [hm1, paint, if_neg (by omega)]
      exact hgap y hy1 (by omega)
  obtain ⟨st2,tb2,e,hr2,hs2,he,hm2,hno2,hspans2,hk2⟩ := hs1.updateFront (f := f) hu hlt h1 hfree hfree'
  -- the overlap
  obtain ⟨st3,q,hr3,hs3,hm3,hk3,hq3⟩ := hs2.cloneBand x.2 (by simp)
  have hq : regs st3.mem q = regs st.mem x.2.regions := hq3.trans (hk2 _ (by simp))
  obtain ⟨st4,tb4,ys,hr4,hys,hp4⟩ := hs3.insertUpdated (f := f)
    ⟨max start x.2.yStart,min rect.br.y x.2.yEnd,q⟩ (by simp only; omega) hu (hq ▸ hw)
    fun y hy1 hy2 => by
      rw [hm3]
      exact hno2 y hy1 (by simp only at hy2; omega)
  have hkept : ∀ r ∈ x.2.regions::held, regs st4.mem r = regs st.mem r := fun r hr => by
    rw [hp4.kept r hr, hk3 r hr, hk2 r hr]
  have hin : ∀ y, x.2.yStart ≤ y → y < x.2.yEnd → lines st.mem tb y = some (regs st.mem x.2.regions) :=
    fun y hy1 hy2 => h.lines_of_mem (mem_values hx) hy1 hy2
  have hcut := cut_changed hlt h1 h2 hin hgap he
    (⟨ys,hq ▸ hys,rfl⟩ : Stored R (some (regs st.mem x.2.regions)) (stored ys))
  have hlines : lines st4.mem tb4 = paint (paint (paint (paint (lines st.mem tb) x.2.yStart x.2.yEnd none) start
      x.2.yStart e) x.2.yStart start (some (regs st.mem x.2.regions))) (max start x.2.yStart)
      (min rect.br.y x.2.yEnd) (stored ys) := by
    rw [hp4.lines, hm3, hm2, hm1]
  have hspans4 : ∀ z ∈ values tb4, x.2.yEnd < z.yEnd → z ∈ values tb ∧ x.2.yEnd ≤ z.yStart := by
    intro z hz hlate
    rcases hp4.spans z hz with hz | hz
    · rcases hspans2 z hz with hz | hz
      · obtain ⟨h4,h5⟩ := hspans1 z hz
        exact ⟨h4,by omega⟩
      · omega
    · simp only at hz
      omega
  unfold BandedRegion.updateRound
  simp only [hr1, hr2, hr3, hr4, bind, Except.bind]
  split_ifs with hc
  · obtain ⟨st5,q5,hr5,hs5,hm5,hk5,hq5⟩ := hp4.laid.cloneBand x.2 (by simp)
    obtain ⟨st6,tb6,hr6,hp6⟩ := hs5.insertBand ⟨rect.br.y,x.2.yEnd,q5⟩ hc fun y hy1 hy2 => by
      simp only at hy1 hy2
      rw [hm5, hp4.lines, paint, if_neg (by simp only; omega), hm3]
      exact hno2 y (by omega) hy2
    refine ⟨st6,tb6,by simp only [hr5, hr6, pure, Except.pure],hp6.laid.drop,?_,fun z hz hlate => ?_⟩
    · rw [hp6.lines, hm5, hq5, hkept _ (by simp), hlines]
      exact hcut
    · rcases hp6.spans z hz with hz | hz
      · exact hspans4 z hz hlate
      · simp only at hz
        omega
  · refine ⟨st4,tb4,rfl,hp4.laid.drop,?_,hspans4⟩
    rw [paint_empty (by omega : x.2.yEnd ≤ rect.br.y)] at hcut
    rw [hlines]
    exact hcut

/-- The lines from `start` on are of bands with disjoint regions. -/
def WFLines (l : ℤ → Option (List (Region V))) (start : ℤ) : Prop :=
  ∀ y xs, start ≤ y → l y = some xs → regionView.WF xs

/-- The loop of `update`: from where it stops on, the rest of the range is in no band. -/
lemma Laid.updateLoop (fuel : ℕ) (h : Laid st tb held) {start : ℤ} (hu : Updates rect f R)
    (hw : WFLines (lines st.mem tb) start)
    (hbreak : start < rect.br.y ∨ ∀ z ∈ values tb, start < z.yEnd → rect.br.y ≤ z.yStart)
    (hf : (bandView.later start (values tb)).card < fuel) :
    ∃ start' st' tb', BandedRegion.updateLoop rect f fuel st start = .ok (start',st') ∧
      Laid st' tb' held ∧ start ≤ start' ∧
      Changed (Stored R) (lines st.mem tb) (lines st'.mem tb') start (min rect.br.y start') ∧
      (∀ y, start' ≤ y → y < rect.br.y → lines st'.mem tb' y = none) ∧
      (start < rect.br.y → rect.br.y ≤ start' → lines st.mem tb (rect.br.y - 1) ≠ none) := by
  induction fuel generalizing st tb start with
  | zero => omega
  | succ fuel ih =>
    unfold BandedRegion.updateLoop
    have hstop : Changed (Stored R) (lines st.mem tb) (lines st.mem tb) start (min rect.br.y start) :=
      Changed.refl (min_le_right _ _) _
    rcases h.bands.lowerBound_hi start fun x _ =>
      (rfl : decide (start < x.yEnd) = decide (start < bandView.hi x)) with
      ⟨hlb,hnone⟩ | ⟨x,hx,hlb,hhi,hgap⟩
    · refine ⟨start,st,tb,?_,h,le_rfl,hstop,fun y h1 _ => lines_eq_none.mpr (hnone y h1),fun h1 h2 => by omega⟩
      simp only [hlb, bind, Except.bind, pure, Except.pure]
    · have hhi : start < x.2.yEnd := hhi
      have hgap : ∀ y, start ≤ y → y < x.2.yStart → lines st.mem tb y = none := fun y h1 h2 =>
        lines_eq_none.mpr (hgap y h1 h2)
      obtain ⟨nx,_,hnx,hvx,_⟩ := h.bands.valid.node_of_mem hx
      simp only [hlb, bind, Except.bind, deref_eq hnx, hvx]
      split_ifs with hc
      · exact ⟨start,st,tb,rfl,h,le_rfl,hstop,fun y h1 h2 => hgap y h1 (by omega),fun h1 h2 => by omega⟩
      · have hlt : start < rect.br.y := by
          rcases hbreak with hb | hb
          · exact hb
          · exact absurd (hb x.2 (mem_values hx) hhi) hc
        have hpx : x.2.yStart < x.2.yEnd := h.bands.proper hx
        have hwx : regionView.WF (regs st.mem x.2.regions) :=
          hw (max start x.2.yStart) _ (le_max_left _ _)
            (h.lines_of_mem (mem_values hx) (le_max_right _ _) (max_lt hhi hpx))
        obtain ⟨st1,tb1,hr1,hs1,hm1,hspans⟩ := h.updateRound (f := f) hx hu hwx hhi (not_le.mp hc) hlt hgap
        have hcard : (bandView.later x.2.yEnd (values tb1)).card <
            (bandView.later start (values tb)).card :=
          SpanView.later_lt (mem_values hx) hhi fun z hz h => (hspans z hz h).1
        have hbreak1 : x.2.yEnd < rect.br.y ∨
            ∀ z ∈ values tb1, x.2.yEnd < z.yEnd → rect.br.y ≤ z.yStart := by
          by_cases hend : x.2.yEnd < rect.br.y
          · exact Or.inl hend
          · exact Or.inr fun z hz hlate => by have := (hspans z hz hlate).2; omega
        have hw1 : WFLines (lines st1.mem tb1) x.2.yEnd := fun y xs hy hl => by
          rw [(hm1 y).2 (Or.inr (by omega))] at hl
          exact hw y xs (by omega) hl
        obtain ⟨start2,st2,tb2,hr2,hs2,hle,hm2,hno,hlast⟩ := ih hs1 hw1 hbreak1 (by omega)
        refine ⟨start2,st2,tb2,?_,hs2,by omega,?_,hno,fun _ h2 => ?_⟩
        · simp only [hr1]
          exact hr2
        · by_cases hend : x.2.yEnd ≤ rect.br.y
          · rw [min_eq_right hend] at hm1
            exact hm1.trans (by omega) (by omega) hm2
          · -- the loop has ended behind the rectangle
            have hsame : lines st2.mem tb2 = lines st1.mem tb1 := funext fun y => (hm2 y).2 (by omega)
            rw [hsame, min_eq_left (by omega : rect.br.y ≤ start2)]
            rw [min_eq_left (by omega : rect.br.y ≤ x.2.yEnd)] at hm1
            exact hm1
        · by_cases hend : x.2.yEnd < rect.br.y
          · rw [← (hm1 (rect.br.y - 1)).2 (by omega)]
            exact hlast hend h2
          · rw [h.lines_of_mem (mem_values hx) (by omega) (by omega)]
            simp

/-- What `update` does to the lines of a rectangle: those up to `stop` are updated and stored if that leaves
them with regions; those behind it were in no band and get one, also without regions. -/
structure LinesUpdated (rect : Rect) (R : List (Region V) → List (Region V) → Prop)
    (l l' : ℤ → Option (List (Region V))) (stop : ℤ) : Prop where
  outside : ∀ y, y < rect.tl.y ∨ rect.br.y ≤ y → l' y = l y
  inside : ∀ y, rect.tl.y ≤ y → y < rect.br.y → y < stop → Stored R (l y) (l' y)
  behind : ∀ y, rect.tl.y ≤ y → y < rect.br.y → stop ≤ y → l y = none ∧ ∃ ys, R [] ys ∧ l' y = some ys
  last : rect.br.y ≤ stop → l (rect.br.y - 1) ≠ none

/-- `update` with a rectangle that has a line. -/
theorem Laid.update (h : Laid st tb []) (hu : Updates rect f R) (hw : WFLines (lines st.mem tb) rect.tl.y)
    (hy : rect.tl.y < rect.br.y) : ∃ st' tb' stop, st.update rect f = .ok st' ∧ Laid st' tb' [] ∧
      LinesUpdated rect R (lines st.mem tb) (lines st'.mem tb') stop := by
  have hfuel : (bandView.later rect.tl.y (values tb)).card < st.bands.heap.bound := by
    have h1 : (bandView.later rect.tl.y (values tb)).card ≤ (values tb).length :=
      SpanView.later_card_le _ _
    have h2 : (values tb).length = tb.size := by simp [values]
    have h3 := h.bands.valid.lt_bound
    omega
  obtain ⟨start,st1,tb1,hr1,hs1,hle,hm1,hno,hlast⟩ := h.updateLoop (f := f) _ hu hw (Or.inl hy) hfuel
  unfold BandedRegion.update
  simp only [hr1, bind, Except.bind]
  split_ifs with hc
  · -- a new band for the rest, also if it has no regions
    rw [min_eq_right hc.le] at hm1
    obtain ⟨st2,q,hr2,hs2,hm2,_,hq2⟩ := hs1.new.updateBand (f := f) (.new start rect.br.y) hu SpanView.WF.nil
    obtain ⟨st3,tb3,hr3,hp3⟩ := hs2.insertBand ⟨start,rect.br.y,q⟩ hc fun y hy1 hy2 => by
      rw [hm2]
      exact hno y hy1 hy2
    refine ⟨st3,tb3,start,?_,hp3.laid,fun y hy1 => ?_,fun y hy1 hy2 hy3 => ?_,fun y hy1 hy2 hy3 => ?_,hlast hy⟩
    · simp only [hr2]
      exact hr3
    · rw [hp3.lines, paint, if_neg (by simp only; omega), hm2]
      exact (hm1 y).2 (by omega)
    · rw [hp3.lines, paint, if_neg (by simp only; omega), hm2]
      exact (hm1 y).1 hy1 hy3
    · refine ⟨((hm1 y).2 (Or.inr hy3)).symm.trans (hno y hy3 hy2),_,hq2,?_⟩
      rw [hp3.lines, paint, if_pos ⟨hy3,hy2⟩]
  · rw [min_eq_left (not_lt.mp hc)] at hm1
    exact ⟨st1,tb1,rect.br.y,rfl,hs1,fun y hy1 => (hm1 y).2 hy1,fun y hy1 hy2 _ => (hm1 y).1 hy1 hy2,
      fun y _ hy2 hy3 => absurd hy2 hy3.not_gt,fun _ => hlast hy (not_lt.mp hc)⟩

/-- The regions that an update with columns has to give. -/
def Pointwise (rect : Rect) (f : Option V → Option V) (xs ys : List (Region V)) : Prop :=
  regionView.WF ys ∧ regionView.lookup ys = mapOn f (regionView.lookup xs) rect.tl.x rect.br.x

lemma updates_pointwise (hx : rect.tl.x < rect.br.x) : Updates rect f (Pointwise rect f) := by
  intro mem p t hs
  obtain ⟨tr',t',h1,h2,h3,h4⟩ := update_ok (f := f) hs hx
  exact ⟨tr',t',h1,h2.valid,⟨h2.wf,h3⟩,h4⟩

lemma Sound.wfLines (h : Sound st tb []) (start : ℤ) : WFLines (lines st.mem tb) start := by
  intro y xs _ hl
  obtain ⟨r,hr,rfl⟩ := Option.map_eq_some_iff.mp hl
  obtain ⟨x,hx,_,rfl⟩ := h.bands.wf.lookup_eq_some.mp hr
  exact (h.owned.trees _ (List.mem_map_of_mem hx)).wf

/-- Bands of which every line has disjoint regions. -/
lemma Laid.sound_of_lines (h : Laid st tb []) (hw : ∀ y xs, lines st.mem tb y = some xs → regionView.WF xs) :
    Sound st tb [] := by
  refine h.sound fun p hp => ?_
  obtain ⟨x,hx,rfl⟩ := List.mem_map.mp hp
  exact hw x.yStart _ (h.lines_of_mem hx le_rfl (h.bands.wf.proper x hx))

/-- The lines after an update with columns. -/
lemma LinesUpdated.getD {l l' : ℤ → Option (List (Region V))} {stop : ℤ} (h : LinesUpdated rect R l l' stop) {y : ℤ}
    (h1 : rect.tl.y ≤ y) (h2 : y < rect.br.y) : R ((l y).getD []) ((l' y).getD []) := by
  by_cases hy : y < stop
  · obtain ⟨ys,h3,h4⟩ := h.inside y h1 h2 hy
    rw [h4, stored_getD]
    exact h3
  · obtain ⟨h3,ys,h4,h5⟩ := h.behind y h1 h2 (not_lt.mp hy)
    rw [h3, h5]
    exact h4

/-- `update` with a rectangle that is not empty, line by line. -/
theorem Sound.update_lines (h : Sound st tb []) (hx : rect.tl.x < rect.br.x) (hy : rect.tl.y < rect.br.y) :
    ∃ st' tb' stop, st.update rect f = .ok st' ∧ Sound st' tb' [] ∧
      LinesUpdated rect (Pointwise rect f) (lines st.mem tb) (lines st'.mem tb') stop := by
  obtain ⟨st',tb',stop,h1,h2,h3⟩ := h.laid.update (f := f) (updates_pointwise hx) (h.wfLines _) hy
  refine ⟨st',tb',stop,h1,h2.sound_of_lines fun y xs hl => ?_,h3⟩
  by_cases hy' : rect.tl.y ≤ y ∧ y < rect.br.y
  · have := (h3.getD hy'.1 hy'.2).1
    rw [hl] at this
    exact this
  · rw [h3.outside y (by omega)] at hl
    exact h.wfLines y y xs le_rfl hl

/-- `update` with a rectangle that is not empty. -/
theorem Sound.update (h : Sound st tb []) (hx : rect.tl.x < rect.br.x) (hy : rect.tl.y < rect.br.y) :
    ∃ st' tb', st.update rect f = .ok st' ∧ Sound st' tb' [] ∧
      rows st'.mem tb' = mapOn (fun g => mapOn f g rect.tl.x rect.br.x) (rows st.mem tb) rect.tl.y
        rect.br.y := by
  obtain ⟨st',tb',stop,h1,h2,h3⟩ := h.update_lines (f := f) hx hy
  refine ⟨st',tb',h1,h2,funext fun y => ?_⟩
  simp only [mapOn, rows_eq_lookup]
  split_ifs with hy'
  · exact (h3.getD hy'.1 hy'.2).2
  · rw [h3.outside y (by omega)]

/-- The value at a point. -/
def BandedRegion.value (self : BandedRegion V) (p : Point) : Option V :=
  rows self.mem self.bands.toTree p.y p.x

def Rect.Contains (self : Rect) (p : Point) : Prop :=
  self.tl.x ≤ p.x ∧ p.x < self.br.x ∧ self.tl.y ≤ p.y ∧ p.y < self.br.y

instance (r : Rect) (p : Point) : Decidable (r.Contains p) := inferInstanceAs (Decidable (_ ∧ _))

/-- The banded regions that updates with rectangles that are not empty can build. -/
inductive Reach : BandedRegion V → Prop
  | new (heap : Heap Band Unit) (mem : Heap (Region V) Unit) : Reach (.new heap mem)
  | update {st st' : BandedRegion V} {rect : Rect} (f : Option V → Option V) (h : Reach st)
      (hrect : rect.isEmpty = false) (hrun : st.update rect f = .ok st') : Reach st'
  | insert {st st' : BandedRegion V} {rect : Rect} {value : V} (h : Reach st)
      (hrect : rect.isEmpty = false) (hrun : st.insert rect value = .ok st') : Reach st'
  | remove {st st' : BandedRegion V} {rect : Rect} (h : Reach st)
      (hrect : rect.isEmpty = false) (hrun : st.remove rect = .ok st') : Reach st'

lemma Rect.proper (h : rect.isEmpty = false) : rect.tl.x < rect.br.x ∧ rect.tl.y < rect.br.y := by
  simpa [Rect.isEmpty] using h

lemma Sound.toTree_eq (h : Sound st tb held) : st.bands.toTree = tb := h.bands.valid.toTree_eq

/-- An update that returned keeps the invariant. -/
lemma Sound.of_update (h : Sound st tb []) (hrect : rect.isEmpty = false) {st' : BandedRegion V}
    (hrun : st.update rect f = .ok st') : ∃ tb', Sound st' tb' [] := by
  obtain ⟨hx,hy⟩ := rect.proper hrect
  obtain ⟨st2,tb2,h1,h2,_⟩ := h.update (f := f) hx hy
  obtain rfl := Except.ok.inj (h1.symm.trans hrun)
  exact ⟨tb2,h2⟩

lemma sound_of_reach (h : Reach st) : ∃ tb, Sound st tb [] := by
  induction h with
  | new heap mem =>
    refine ⟨leaf,⟨⟨⟨trivial,rfl,by simp⟩,⟨0,rfl⟩,trivial⟩,SpanView.WF.nil⟩,?_⟩
    exact ⟨by simp [values],by simp [values]⟩
  | update f h hrect hrun ih => obtain ⟨tb,hs⟩ := ih; exact hs.of_update hrect hrun
  | insert h hrect hrun ih => obtain ⟨tb,hs⟩ := ih; exact hs.of_update hrect hrun
  | remove h hrect hrun ih => obtain ⟨tb,hs⟩ := ih; exact hs.of_update hrect hrun

/-- An update, point by point. -/
lemma Sound.update_value (h : Sound st tb []) (hrect : rect.isEmpty = false) (f : Option V → Option V) :
    ∃ st' tb', st.update rect f = .ok st' ∧ Sound st' tb' [] ∧
      ∀ p, st'.value p = if rect.Contains p then f (st.value p) else st.value p := by
  obtain ⟨hx,hy⟩ := rect.proper hrect
  obtain ⟨st',tb',h1,h2,h3⟩ := h.update (f := f) hx hy
  refine ⟨st',tb',h1,h2,fun p => ?_⟩
  simp only [BandedRegion.value, h.toTree_eq, h2.toTree_eq, h3, mapOn, Rect.Contains]
  by_cases hpy : rect.tl.y ≤ p.y ∧ p.y < rect.br.y
  · by_cases hpx : rect.tl.x ≤ p.x ∧ p.x < rect.br.x
    · rw [if_pos hpy, mapOn, if_pos hpx, if_pos (by omega)]
    · rw [if_pos hpy, mapOn, if_neg hpx, if_neg (by omega)]
  · rw [if_neg hpy, if_neg (by omega)]

/-- Every reachable banded region is sound: its bands are sorted, disjoint and not empty, and so
are the regions of each band; and `update` with a rectangle that is not empty returns and changes
the values of the points of the rectangle only. -/
theorem update_changes_rect (h : Reach st) : Sound st st.bands.toTree [] ∧
    ∀ (rect : Rect) (f : Option V → Option V), rect.isEmpty = false →
      ∃ st', st.update rect f = .ok st' ∧ Sound st' st'.bands.toTree [] ∧
        ∀ p, st'.value p = if rect.Contains p then f (st.value p) else st.value p := by
  obtain ⟨tb,hs⟩ := sound_of_reach h
  refine ⟨hs.toTree_eq ▸ hs,fun rect f hrect => ?_⟩
  obtain ⟨st',tb',h1,h2,h3⟩ := hs.update_value hrect f
  exact ⟨st',h1,h2.toTree_eq ▸ h2,h3⟩

/-- An update of a square and of what is to the right of it. -/
theorem update_changes_rect_overlap : ∃ st st' : BandedRegion ℕ, Reach st ∧ st.value ⟨12,12⟩ = some 1 ∧
    st.update ⟨⟨10,10⟩,⟨40,20⟩⟩ (fun v => some (v.getD 5 + 1)) = .ok st' ∧ Sound st' st'.bands.toTree [] ∧
    [⟨12,12⟩,⟨35,12⟩,⟨12,25⟩,⟨50,12⟩].map st'.value = [some 2,some 6,some 1,none] := by
  have hnew : Reach (BandedRegion.new ⟨[]⟩ ⟨[]⟩ : BandedRegion ℕ) := .new ⟨[]⟩ ⟨[]⟩
  obtain ⟨st,h1,_,h2⟩ := (update_changes_rect hnew).2 ⟨⟨0,0⟩,⟨30,30⟩⟩ (fun _ => some 1) (by decide)
  have hreach : Reach st := hnew.update _ (by decide) h1
  obtain ⟨st',h3,h4,h5⟩ := (update_changes_rect hreach).2 ⟨⟨10,10⟩,⟨40,20⟩⟩ (fun v => some (v.getD 5 + 1)) (by decide)
  have hnone : ∀ p, (BandedRegion.new ⟨[]⟩ ⟨[]⟩ : BandedRegion ℕ).value p = none := fun p => rfl
  refine ⟨st,st',hreach,?_,h3,h4,?_⟩
  · rw [h2]
    rfl
  · simp only [List.map_cons, List.map_nil, h5, h2, hnone, Rect.Contains]
    rfl

end Lilith.Draw
