import Lilith.Draw.Drain

/-! Draining a banded region takes out every point of the boundary that has a value, in rectangles
of one value. -/
namespace Lilith.Draw
open Theory PtrGraph CTree Rbtree

variable {V T W : Type} {st : BandedRegion V} {tb : CTree (ℕ × Band)} {boundary rect : Rect} {cursor : Point}

/-- The first span that overlaps a range. -/
lemma firstInRange_ok {v : SpanView ℤ T W} {tr : RbTree T Unit} {t : CTree (ℕ × T)} (hs : SpanTree v tr t)
    (a b : ℤ) : (firstInRange tr v.lo v.hi a b = .ok none ∧ ∀ q, a ≤ q → q < b → denote v t q = none) ∨
    ∃ x ∈ t.toList, firstInRange tr v.lo v.hi a b = .ok (some x.1) ∧ a < b ∧ a < v.hi x.2 ∧ v.lo x.2 < b ∧
      ∀ q, a ≤ q → q < v.lo x.2 → denote v t q = none := by
  unfold firstInRange
  by_cases hab : a ≥ b
  · rw [if_pos hab]
    exact Or.inl ⟨rfl,fun q h1 h2 => by omega⟩
  · rw [if_neg hab]
    rcases hs.lowerBound_hi a fun x _ => (rfl : decide (a < v.hi x) = decide (a < v.hi x)) with
      ⟨hlb,hnone⟩ | ⟨x,hx,hlb,hhi,hgap⟩
    · simp only [hlb, bind, Except.bind]
      exact Or.inl ⟨rfl,fun q h1 _ => hnone q h1⟩
    · obtain ⟨n,_,hn,hv,_⟩ := hs.valid.node_of_mem hx
      simp only [hlb, bind, Except.bind, deref_eq hn, hv]
      by_cases hlo : v.lo x.2 < b
      · rw [if_pos hlo]
        exact Or.inr ⟨x,hx,rfl,by omega,hhi,hlo,hgap⟩
      · rw [if_neg hlo]
        exact Or.inl ⟨rfl,fun q h1 h2 => hgap q h1 (by omega)⟩

lemma firstRegion_ok {mem : Heap (Region V) Unit} {p : Ptr} (hs : SpanTree regionView ⟨mem,p⟩ (regionTree mem p))
    (a b : ℤ) : (Regions.firstRegionInRange ⟨mem,p⟩ a b = .ok none ∧ ∀ q, a ≤ q → q < b → row mem p q = none) ∨
    ∃ x ∈ (regionTree mem p).toList, Regions.firstRegionInRange ⟨mem,p⟩ a b = .ok (some x.1) ∧ a < b ∧
      a < x.2.xEnd ∧ x.2.xStart < b ∧ ∀ q, a ≤ q → q < x.2.xStart → row mem p q = none :=
  firstInRange_ok hs a b

lemma firstBand_ok (hs : Sound st tb []) (a b : ℤ) :
    (st.firstBandInRange a b = .ok none ∧ ∀ q, a ≤ q → q < b → denote bandView tb q = none) ∨
    ∃ x ∈ tb.toList, st.firstBandInRange a b = .ok (some x.1) ∧ a < b ∧
      a < x.2.yEnd ∧ x.2.yStart < b ∧ ∀ q, a ≤ q → q < x.2.yStart → denote bandView tb q = none :=
  firstInRange_ok hs.bands a b

/-- The regions of a band of the tree. -/
lemma Sound.regions (hs : Sound st tb []) {x : ℕ × Band} (hx : x ∈ tb.toList) :
    SpanTree regionView (st.regionsOf x.2) (regionTree st.mem x.2.regions) :=
  hs.owned.trees x.2.regions (by
    rw [List.nil_append]
    exact List.mem_map_of_mem (mem_values hx))

/-- The values on the lines of a band. -/
lemma Sound.rows_of_mem (hs : Sound st tb []) {x : ℕ × Band} (hx : x ∈ tb.toList) {y : ℤ}
    (h1 : x.2.yStart ≤ y) (h2 : y < x.2.yEnd) : rows st.mem tb y = row st.mem x.2.regions := by
  have : denote bandView tb y = some x.2.regions := hs.bands.denote_of_mem hx h1 h2
  rw [rows, this]
  rfl

lemma rows_none {y : ℤ} {mem : Heap (Region V) Unit} (h : denote bandView tb y = none) :
    rows mem tb y = fun _ => none := by
  rw [rows, h]
  rfl

/-- The number of spans after a point, which is what the loops go through. -/
lemma later_lt_bound {v : SpanView ℤ T W} {tr : RbTree T Unit} {t : CTree (ℕ × T)} (hs : SpanTree v tr t)
    (a : ℤ) : (v.later a (values t)).card < tr.heap.bound := by
  have h1 : (v.later a (values t)).card ≤ (values t).length := SpanView.later_card_le _ _
  have h2 : (values t).length = t.size := by simp [values]
  have h3 := hs.valid.lt_bound
  omega

/-- Nothing is left in the boundary above a line. -/
def Cleared (st : BandedRegion V) (boundary : Rect) (y : ℤ) : Prop :=
  ∀ p, boundary.Contains p → p.y < y → st.value p = none

lemma Sound.value_eq (hs : Sound st tb []) (p : Point) : st.value p = rows st.mem tb p.y p.x := by
  rw [BandedRegion.value, hs.toTree_eq]

/-- Where the draining iterator is between two steps. -/
structure Ready (st : BandedRegion V) (boundary : Rect) (cursor : Point) : Prop where
  column : cursor.x = boundary.tl.x
  line : min boundary.tl.y boundary.br.y ≤ cursor.y
  cleared : Cleared st boundary cursor.y

lemma Ready.start (st : BandedRegion V) (boundary : Rect) : Ready st boundary boundary.tl :=
  ⟨rfl,min_le_left _ _,fun _ hp hlt => absurd hp.2.2.1 (not_le.mpr hlt)⟩

/-- What the search finds: nothing, when no point of the boundary has a value, or a region of a band
that overlaps the boundary, with the part of it below the cursor. -/
lemma Sound.findNextLoop (hs : Sound st tb []) (fuel : ℕ) (hready : Ready st boundary cursor)
    (hf : (bandView.later cursor.y (values tb)).card < fuel) :
    (∃ cursor', st.findNextLoop boundary fuel cursor = .ok (cursor',none) ∧ Ready st boundary cursor' ∧
      ∀ p, boundary.Contains p → st.value p = none) ∨
    ∃ cursor', Ready st boundary cursor' ∧ boundary.tl.y ≤ cursor'.y ∧
      ∃ b ∈ tb.toList, ∃ r ∈ (regionTree st.mem b.2.regions).toList, ∃ rect,
        st.findNextLoop boundary fuel cursor = .ok (cursor',some (b.1,r.1,rect)) ∧
        rect = .new (max r.2.xStart boundary.tl.x) (max b.2.yStart cursor'.y) (min r.2.xEnd boundary.br.x)
          (min b.2.yEnd boundary.br.y) ∧ rect.isEmpty = false := by
  induction fuel generalizing cursor with
  | zero => omega
  | succ fuel ih =>
    obtain ⟨hx,hy,hclear⟩ := hready
    unfold BandedRegion.findNextLoop
    rcases firstBand_ok hs cursor.y boundary.br.y with ⟨hb,hnone⟩ | ⟨b,hbm,hb,hlt,hend,hstart,hgap⟩
    · have hall : ∀ p, boundary.Contains p → st.value p = none := fun p hp => by
        by_cases hpy : p.y < cursor.y
        · exact hclear p hp hpy
        · rw [hs.value_eq, rows_none (hnone p.y (not_lt.mp hpy) hp.2.2.2)]
      exact Or.inl ⟨⟨cursor.x,boundary.br.y⟩,by simp only [hb, bind, Except.bind]; rfl,
        ⟨hx,min_le_right _ _,fun p hp _ => hall p hp⟩,hall⟩
    · obtain ⟨n,_,hn,hnv,_⟩ := hs.bands.valid.node_of_mem hbm
      have hregs := hs.regions hbm
      simp only [hb, bind, Except.bind, deref_eq hn, hnv]
      rcases firstRegion_ok hregs cursor.x boundary.br.x with ⟨hr,hrnone⟩ | ⟨r,hrm,hr,hrlt,hrend,hrstart,_⟩
      · -- no region of this band is in the boundary
        have hclear' : Cleared st boundary b.2.yEnd := fun p hp hpy => by
          by_cases hp1 : p.y < cursor.y
          · exact hclear p hp hp1
          · rw [hs.value_eq]
            by_cases hp2 : b.2.yStart ≤ p.y
            · rw [hs.rows_of_mem hbm hp2 hpy]
              exact hrnone p.x (hx ▸ hp.1) hp.2.1
            · rw [rows_none (hgap p.y (not_lt.mp hp1) (not_le.mp hp2))]
        have hcard : (bandView.later b.2.yEnd (values tb)).card < (bandView.later cursor.y (values tb)).card :=
          SpanView.later_lt (mem_values hbm) hend fun z hz _ => hz
        simp only [BandedRegion.regionsOf, hr]
        exact @ih ⟨boundary.tl.x,b.2.yEnd⟩ ⟨rfl,hy.trans hend.le,hclear'⟩ (hcard.trans_le (by omega))
      · obtain ⟨m,_,hm,hmv,_⟩ := hregs.valid.node_of_mem hrm
        have hm : st.mem.get? r.1 = some m := hm
        have hbp : b.2.yStart < b.2.yEnd := hs.bands.proper hbm
        have hrp : r.2.xStart < r.2.xEnd := hregs.proper hrm
        have hint : (Rect.new r.2.xStart b.2.yStart r.2.xEnd b.2.yEnd).intersect ⟨cursor,boundary.br⟩ =
            some (.new (max r.2.xStart boundary.tl.x) (max b.2.yStart cursor.y) (min r.2.xEnd boundary.br.x)
              (min b.2.yEnd boundary.br.y)) := by
          simp only [Rect.intersect, Rect.new, hx]
          rw [if_pos (by omega)]
        refine Or.inr ⟨cursor,⟨hx,hy,hclear⟩,by omega,b,hbm,r,hrm,_,?_,rfl,?_⟩
        · simp only [BandedRegion.regionsOf, hr, deref_eq hm, hmv, hint]
          rfl
        · rw [Rect.isEmpty, decide_eq_false_iff_not]
          simp only [Rect.new]
          omega

/-- All points of a part of a line have one value. -/
def Holds (g : ℤ → Option V) (a b : ℤ) (v : V) : Prop := ∀ x, a ≤ x → x < b → g x = some v

/-- `all_in_range` with the function that compares with a value. -/
lemma forAllLoop_ok [DecidableEq V] {mem : Heap (Region V) Unit} {p : Ptr} (v : V)
    (hs : SpanTree regionView ⟨mem,p⟩ (regionTree mem p)) (fuel : ℕ) (a b : ℤ)
    (hf : (regionView.later a (values (regionTree mem p))).card < fuel) :
    ∃ ok, Regions.forAllLoop ⟨mem,p⟩ b (fun returnValue _ _ value =>
      if decide (value = some v) then (true,returnValue) else (false,false)) fuel a true = .ok ok ∧
      (ok = true ↔ Holds (row mem p) a b v) := by
  induction fuel generalizing a with
  | zero => omega
  | succ fuel ih =>
    unfold Regions.forAllLoop
    rcases firstRegion_ok hs a b with ⟨hr,hnone⟩ | ⟨r,hrm,hr,hab,hend,hstart,hgap⟩
    · simp only [hr, bind, Except.bind]
      by_cases hab : a < b
      · refine ⟨false,by simp [hab, pure, Except.pure],?_⟩
        simp only [Bool.false_eq_true, false_iff]
        intro hh
        have h1 := hh a le_rfl hab
        rw [hnone a le_rfl hab] at h1
        simp at h1
      · refine ⟨true,by simp [hab, pure, Except.pure],?_⟩
        simp only [true_iff]
        intro x h1 h2
        omega
    · obtain ⟨n,_,hn,hnv,_⟩ := hs.valid.node_of_mem hrm
      have hin : ∀ x, r.2.xStart ≤ x → x < r.2.xEnd → row mem p x = some r.2.value := fun x h1 h2 =>
        hs.denote_of_mem hrm h1 h2
      simp only [hr, bind, Except.bind, deref_eq hn, hnv]
      by_cases hlt : r.2.xStart > a
      · -- the gap before the region has no value
        refine ⟨false,by simp [hlt, pure, Except.pure],?_⟩
        simp only [Bool.false_eq_true, false_iff]
        intro hh
        have h1 := hh a le_rfl hab
        rw [hgap a le_rfl hlt] at h1
        simp at h1
      · by_cases hv : r.2.value = v
        · have hstep : ∀ x, a ≤ x → x < r.2.xEnd → row mem p x = some v := fun x h1 h2 =>
            hv ▸ hin x ((not_lt.mp hlt).trans h1) h2
          obtain ⟨fuel,rfl⟩ : ∃ k, fuel = k + 1 := Nat.exists_eq_add_one.mpr (by
            have : r.2.xEnd ∈ regionView.later a (values (regionTree mem p)) :=
              SpanView.mem_later.mpr ⟨r.2,mem_values hrm,hend,rfl⟩
            have := Finset.card_pos.mpr ⟨_,this⟩
            omega)
          simp only [hlt, hv, if_false, if_true, decide_true]
          by_cases hb : b ≤ r.2.xEnd
          · -- the range ends in this region
            refine ⟨true,?_,?_⟩
            · rw [min_eq_left hb, Regions.forAllLoop, Regions.firstRegionInRange, firstInRange, if_pos le_rfl]
              simp [bind, Except.bind, pure, Except.pure]
            · simp only [true_iff]
              exact fun x h1 h2 => hstep x h1 (by omega)
          · have hcard : (regionView.later r.2.xEnd (values (regionTree mem p))).card <
                (regionView.later a (values (regionTree mem p))).card :=
              SpanView.later_lt (mem_values hrm) hend fun z hz _ => hz
            rw [min_eq_right (by omega)]
            obtain ⟨ok,h1,h2⟩ := ih r.2.xEnd (hcard.trans_le (by omega))
            refine ⟨ok,h1,h2.trans ⟨fun hh x hx1 hx2 => ?_,fun hh x hx1 hx2 => hh x (hend.le.trans hx1) hx2⟩⟩
            by_cases hx : x < r.2.xEnd
            · exact hstep x hx1 hx
            · exact hh x (not_lt.mp hx) hx2
        · refine ⟨false,by simp [hlt, hv, pure, Except.pure],?_⟩
          simp only [Bool.false_eq_true, false_iff]
          intro hh
          have h1 := hh a le_rfl hab
          rw [hin a (not_lt.mp hlt) hend] at h1
          exact hv (Option.some.inj h1)

lemma Sound.allInRange [DecidableEq V] (hs : Sound st tb []) {x : ℕ × Band} (hx : x ∈ tb.toList) (a b : ℤ) (v : V) :
    ∃ ok, (st.regionsOf x.2).allInRange a b (fun _ _ value => value = some v) = .ok ok ∧
      (ok = true ↔ Holds (row st.mem x.2.regions) a b v) :=
  forAllLoop_ok v (hs.regions hx) _ a b (later_lt_bound (hs.regions hx) a)

/-- Growing to the right keeps to points of one value, and goes as far as these reach. -/
lemma growXLoop_ok [DecidableEq V] (boundary : Rect) {p : Ptr} (hs : SpanTree regionView ⟨st.mem,p⟩ (regionTree st.mem p)) (fuel : ℕ)
    {before after : List (ℕ × Region V)} {r : ℕ × Region V} (hr : (regionTree st.mem p).toList = before ++ r :: after)
    (hbr : rect.br.x = min boundary.br.x r.2.xEnd) (hh : Holds (row st.mem p) rect.tl.x rect.br.x r.2.value)
    (hf : after.length < fuel) :
    ∃ x, st.growXLoop boundary fuel r.1 rect = .ok ⟨rect.tl,⟨x,rect.br.y⟩⟩ ∧ rect.br.x ≤ x ∧ x ≤ boundary.br.x ∧
      Holds (row st.mem p) rect.tl.x x r.2.value ∧ (x = boundary.br.x ∨ row st.mem p x ≠ some r.2.value) := by
  induction fuel generalizing before after r rect with
  | zero => omega
  | succ fuel ih =>
    have hle : rect.br.x ≤ boundary.br.x := by omega
    have hend : rect.br.x < boundary.br.x → rect.br.x = r.2.xEnd := by omega
    have hstop : (rect.br.x = boundary.br.x ∨ row st.mem p rect.br.x ≠ some r.2.value) →
        ∃ x, (Except.ok rect : Except Fault Rect) = .ok ⟨rect.tl,⟨x,rect.br.y⟩⟩ ∧ rect.br.x ≤ x ∧
        x ≤ boundary.br.x ∧ Holds (row st.mem p) rect.tl.x x r.2.value ∧
        (x = boundary.br.x ∨ row st.mem p x ≠ some r.2.value) := fun hx =>
      ⟨rect.br.x,rfl,le_rfl,hle,hh,hx⟩
    -- behind the region is the next one, if it touches
    have hnext : rect.br.x < boundary.br.x → row st.mem p rect.br.x = some r.2.value → ∃ s rest, after = s :: rest ∧
        s.2.xStart = r.2.xEnd ∧ s.2.value = r.2.value := fun hlt hrow => by
      have hw := hs.wf
      rw [hend hlt, row, denote, values_eq_append hr, List.map_cons] at hrow
      rw [values_eq_append hr, List.map_cons] at hw
      obtain ⟨y,zs,h1,h2,h3⟩ := hw.next hrow
      cases after with
      | nil => simp at h1
      | cons s rest =>
        obtain ⟨rfl,_⟩ := List.cons.inj h1
        exact ⟨s,rest,rfl,h2.symm,h3⟩
    unfold BandedRegion.growXLoop
    by_cases hlt : rect.br.x < boundary.br.x
    · rw [if_pos hlt]
      have hsucc : st.mem.successor (some r.1) = _ := hs.valid.successor hr
      obtain ⟨n,_,hn,hnv,_⟩ := hs.valid.node_of_mem (show r ∈ _ by rw [hr]; simp)
      have hn : st.mem.get? r.1 = some n := hn
      cases after with
      | nil =>
        simp only [hsucc, List.head?_nil, Option.map_none, bind, Except.bind]
        refine hstop (Or.inr fun hrow => ?_)
        obtain ⟨s,rest,h1,_⟩ := hnext hlt hrow
        simp at h1
      | cons s after =>
        have hsm : s ∈ (regionTree st.mem p).toList := by rw [hr]; simp
        obtain ⟨m,_,hm,hmv,_⟩ := hs.valid.node_of_mem hsm
        have hm : st.mem.get? s.1 = some m := hm
        simp only [hsucc, List.head?_cons, Option.map_some, bind, Except.bind, deref_eq hn, deref_eq hm, hnv, hmv]
        by_cases hc : s.2.xStart ≠ r.2.xEnd ∨ s.2.value ≠ r.2.value
        · rw [if_pos hc]
          refine hstop (Or.inr fun hrow => ?_)
          obtain ⟨s',rest,h1,h2,h3⟩ := hnext hlt hrow
          obtain ⟨rfl,_⟩ := List.cons.inj h1
          exact hc.elim (fun h => h h2) fun h => h h3
        · rw [if_neg hc]
          rw [not_or, not_not, not_not] at hc
          have hp : s.2.xStart < s.2.xEnd := hs.proper hsm
          have hholds : Holds (row st.mem p) rect.tl.x (min boundary.br.x s.2.xEnd) s.2.value := fun x h1 h2 => by
            by_cases hx : x < rect.br.x
            · rw [hc.2]
              exact hh x h1 hx
            · have hsx : s.2.xStart ≤ x := by
                rw [hc.1, ← hend hlt]
                exact not_lt.mp hx
              exact hs.denote_of_mem hsm hsx (lt_of_lt_of_le h2 (min_le_right _ _))
          obtain ⟨x,h1,h2,h3,h4,h5⟩ := @ih ⟨rect.tl,⟨min boundary.br.x s.2.xEnd,rect.br.y⟩⟩ (before ++ [r]) after s
            (by rw [hr]; simp) rfl hholds (by simp only [List.length_cons] at hf; omega)
          refine ⟨x,h1,?_,h3,hc.2 ▸ h4,hc.2 ▸ h5⟩
          have h2 : min boundary.br.x s.2.xEnd ≤ x := h2
          rw [hend hlt, ← hc.1]
          exact le_trans (le_min (hc.1.le.trans ((hend hlt).symm.le.trans hle)) hp.le) h2
    · rw [if_neg hlt]
      exact hstop (Or.inl (le_antisymm hle (not_lt.mp hlt)))

/-- All points of a rectangle have one value. -/
def Uniform (st : BandedRegion V) (rect : Rect) (v : V) : Prop := ∀ p, rect.Contains p → st.value p = some v

/-- When a rectangle grows into the next band. -/
lemma Sound.stopsGrowY [DecidableEq V] (hs : Sound st tb []) {b s : ℕ × Band} (hb : b ∈ tb.toList) (hsm : s ∈ tb.toList)
    (boundary rect : Rect) (v : V) (isDraining : Bool) :
    ∃ stop, st.stopsGrowY boundary rect v isDraining b.2 s.2 = .ok stop ∧
      (stop = false → s.2.yStart = b.2.yEnd ∧ Holds (row st.mem s.2.regions) rect.tl.x rect.br.x v ∧
        (isDraining = false →
          (∀ x, rect.br.x ≤ x → x < boundary.br.x → row st.mem b.2.regions x = none) ∧
          ∀ x, boundary.tl.x ≤ x → x < rect.tl.x → row st.mem s.2.regions x = none)) := by
  obtain ⟨ok,hok,hiff⟩ := hs.allInRange hsm rect.tl.x rect.br.x v
  have hall : (st.regionsOf s.2).allInRange rect.tl.x rect.br.x (fun _ _ value => decide (value = some v)) = .ok ok := hok
  unfold BandedRegion.stopsGrowY
  simp only [hall]
  by_cases hc : s.2.yStart ≠ b.2.yEnd
  · rw [if_pos hc]
    exact ⟨true,rfl,by simp⟩
  rw [if_neg hc]
  rw [not_not] at hc
  cases isDraining with
  | true =>
    refine ⟨!ok,rfl,fun h => ⟨hc,hiff.mp (by simpa using h),by simp⟩⟩
  | false =>
    simp only [Bool.false_eq_true, if_false]
    rcases firstRegion_ok (hs.regions hb) rect.br.x boundary.br.x with ⟨hr,hnone⟩ | ⟨r,_,hr,_⟩
    · have hr : (st.regionsOf b.2).firstRegionInRange rect.br.x boundary.br.x = .ok none := hr
      simp only [hr, bind, Except.bind, Option.isSome_none, Bool.false_eq_true, if_false]
      rcases firstRegion_ok (hs.regions hsm) boundary.tl.x rect.tl.x with ⟨hr',hnone'⟩ | ⟨r',_,hr',_⟩
      · have hr' : (st.regionsOf s.2).firstRegionInRange boundary.tl.x rect.tl.x = .ok none := hr'
        simp only [hr', Option.isSome_none, Bool.false_eq_true, if_false]
        exact ⟨!ok,rfl,fun h => ⟨hc,hiff.mp (by simpa using h),fun _ => ⟨hnone,hnone'⟩⟩⟩
      · have hr' : (st.regionsOf s.2).firstRegionInRange boundary.tl.x rect.tl.x = .ok (some r'.1) := hr'
        simp only [hr', Option.isSome_some, if_true]
        exact ⟨true,rfl,by simp⟩
    · have hr : (st.regionsOf b.2).firstRegionInRange rect.br.x boundary.br.x = .ok (some r.1) := hr
      simp only [hr, bind, Except.bind, Option.isSome_some, if_true]
      exact ⟨true,rfl,by simp⟩

/-- Growing downwards up to the band `last` keeps to points of one value. Without draining, no other point of the boundary
on the lines of the rectangle has a value, except to its left in the first band and to its right in the last one. -/
lemma Sound.growYLoop [DecidableEq V] (hs : Sound st tb []) (boundary rect : Rect) (fuel : ℕ) (v : V) (isDraining : Bool)
    {before after : List (ℕ × Band)} {b : ℕ × Band} (hb : tb.toList = before ++ b :: after)
    (hbr : rect.br.y = min boundary.br.y b.2.yEnd) (hh : Uniform st rect v) (hf : after.length < fuel) :
    ∃ last ∈ tb.toList, st.growYLoop boundary v isDraining fuel b.1 rect =
        .ok (last.2.yStart,⟨rect.tl,⟨rect.br.x,min boundary.br.y last.2.yEnd⟩⟩) ∧
      (last = b ∨ b.2.yEnd ≤ last.2.yStart) ∧
      Uniform st ⟨rect.tl,⟨rect.br.x,min boundary.br.y last.2.yEnd⟩⟩ v ∧
      (isDraining = false →
        (∀ p, b.2.yStart ≤ p.y → p.y < last.2.yStart → rect.br.x ≤ p.x → p.x < boundary.br.x → st.value p = none) ∧
        ∀ p, b.2.yEnd ≤ p.y → p.y < last.2.yEnd → boundary.tl.x ≤ p.x → p.x < rect.tl.x → st.value p = none) := by
  induction fuel generalizing before after b rect with
  | zero => omega
  | succ fuel ih =>
    have hbm : b ∈ tb.toList := by rw [hb]; simp
    obtain ⟨n,_,hn,hnv,_⟩ := hs.bands.valid.node_of_mem hbm
    have hn : st.bands.heap.get? b.1 = some n := hn
    have hrect : rect = ⟨rect.tl,⟨rect.br.x,min boundary.br.y b.2.yEnd⟩⟩ := by rw [← hbr]
    have hstop : ∃ last ∈ tb.toList, (Except.ok (b.2.yStart,rect) : Except Fault (ℤ × Rect)) =
          .ok (last.2.yStart,⟨rect.tl,⟨rect.br.x,min boundary.br.y last.2.yEnd⟩⟩) ∧
        (last = b ∨ b.2.yEnd ≤ last.2.yStart) ∧
        Uniform st ⟨rect.tl,⟨rect.br.x,min boundary.br.y last.2.yEnd⟩⟩ v ∧
        (isDraining = false →
          (∀ p, b.2.yStart ≤ p.y → p.y < last.2.yStart → rect.br.x ≤ p.x → p.x < boundary.br.x → st.value p = none) ∧
          ∀ p, b.2.yEnd ≤ p.y → p.y < last.2.yEnd → boundary.tl.x ≤ p.x → p.x < rect.tl.x → st.value p = none) := by
      refine ⟨b,hbm,?_,Or.inl rfl,?_,fun _ => ⟨fun p _ _ => by omega,fun p _ _ => by omega⟩⟩
      · rw [← hrect]
      · rw [← hrect]
        exact hh
    unfold BandedRegion.growYLoop
    simp only [bind, Except.bind, deref_eq hn, hnv]
    by_cases hlt : rect.br.y < boundary.br.y
    · rw [if_pos hlt]
      have hsucc : st.bands.heap.successor (some b.1) = _ := hs.bands.valid.successor hb
      cases after with
      | nil =>
        simp only [hsucc, List.head?_nil, Option.map_none]
        exact hstop
      | cons s after =>
        have hsm : s ∈ tb.toList := by rw [hb]; simp
        obtain ⟨m,_,hm,hmv,_⟩ := hs.bands.valid.node_of_mem hsm
        have hm : st.bands.heap.get? s.1 = some m := hm
        obtain ⟨stop,hstops,hgo⟩ := hs.stopsGrowY hbm hsm boundary rect v isDraining
        simp only [hsucc, List.head?_cons, Option.map_some, deref_eq hm, hmv, hstops]
        cases stop with
        | true => exact hstop
        | false =>
          obtain ⟨hc,hall,hsides⟩ := hgo rfl
          have hp : s.2.yStart < s.2.yEnd := hs.bands.proper hsm
          have hnext : Uniform st ⟨rect.tl,⟨rect.br.x,min boundary.br.y s.2.yEnd⟩⟩ v := fun p hp => by
            obtain ⟨h1,h2,h3,h4⟩ := hp
            simp only at h1 h2 h3 h4
            by_cases hpy : p.y < rect.br.y
            · exact hh p ⟨h1,h2,h3,hpy⟩
            · rw [hs.value_eq, hs.rows_of_mem hsm (by omega) (by omega)]
              exact hall p.x h1 h2
          obtain ⟨last,hlast,h1,h2,h3,h4⟩ := ih ⟨rect.tl,⟨rect.br.x,min boundary.br.y s.2.yEnd⟩⟩
            (show tb.toList = (before ++ [b]) ++ s :: after by rw [hb]; simp) rfl hnext
            (by simp only [List.length_cons] at hf; omega)
          have hend : s.2.yStart ≤ last.2.yStart := by
            rcases h2 with rfl | h2
            · exact le_rfl
            · omega
          refine ⟨last,hlast,h1,Or.inr (by omega),h3,fun hd => ⟨fun p hp1 hp2 hp3 hp4 => ?_,fun p hp1 hp2 hp3 hp4 => ?_⟩⟩
          · by_cases hp5 : p.y < b.2.yEnd
            · rw [hs.value_eq, hs.rows_of_mem hbm hp1 hp5]
              exact (hsides hd).1 p.x hp3 hp4
            · exact (h4 hd).1 p (by omega) hp2 hp3 hp4
          · by_cases hp5 : p.y < s.2.yEnd
            · rw [hs.value_eq, hs.rows_of_mem hsm (by omega) hp5]
              exact (hsides hd).2 p.x hp3 hp4
            · exact (h4 hd).2 p (by omega) hp2 hp3 hp4
    · rw [if_neg hlt]
      exact hstop

/-- A rectangle that the iterator yields from the region `st`. -/
structure Yielded (st : BandedRegion V) (boundary : Rect) (item : Rect × V) : Prop where
  proper : item.1.isEmpty = false
  inside : ∀ p, item.1.Contains p → boundary.Contains p
  uniform : Uniform st item.1 item.2

lemma length_lt_bound {v : SpanView ℤ T W} {tr : RbTree T Unit} {t : CTree (ℕ × T)} (hs : SpanTree v tr t)
    {before after : List (ℕ × T)} {x : ℕ × T} (h : t.toList = before ++ x :: after) :
    after.length < tr.heap.bound := by
  have h1 := hs.valid.lt_bound
  have h2 : t.toList.length = t.size := CTree.toList_length t
  rw [h, List.length_append, List.length_cons] at h2
  omega

/-- A step of the draining iterator. -/
lemma Sound.drainNext [DecidableEq V] (hs : Sound st tb []) (hready : Ready st boundary cursor) :
    (∃ cursor', st.drainNext boundary cursor = .ok (none,cursor',st) ∧ Ready st boundary cursor' ∧
      ∀ p, boundary.Contains p → st.value p = none) ∨
    ∃ item cursor' st' tb', st.drainNext boundary cursor = .ok (some item,cursor',st') ∧ Yielded st boundary item ∧
      Ready st' boundary cursor' ∧ Sound st' tb' [] ∧
      (∀ p, st'.value p = if item.1.Contains p then none else st.value p) ∧ st.remove item.1 = .ok st' := by
  rcases hs.findNextLoop _ hready (later_lt_bound hs.bands cursor.y) with
    ⟨cursor',hf,hready',hnone⟩ | ⟨cursor',hready',hy',b,hb,r,hr,rect,hf,hrect,hne⟩
  · refine Or.inl ⟨cursor',?_,hready',hnone⟩
    simp only [BandedRegion.drainNext, BandedRegion.findNextRect, hf, bind, Except.bind]
    rfl
  · have hregs := hs.regions hb
    obtain ⟨before,after,hlist⟩ := List.append_of_mem hr
    obtain ⟨bbefore,bafter,hblist⟩ := List.append_of_mem hb
    obtain ⟨m,_,hm,hmv,_⟩ := hregs.valid.node_of_mem hr
    have hm : st.mem.get? r.1 = some m := hm
    obtain ⟨hpx,hpy⟩ := rect.proper hne
    have hholds : Holds (row st.mem b.2.regions) rect.tl.x rect.br.x r.2.value := fun x h1 h2 => by
      rw [hrect] at h1 h2
      simp only [Rect.new] at h1 h2
      exact hregs.denote_of_mem hr (show r.2.xStart ≤ x by omega) (show x < r.2.xEnd by omega)
    obtain ⟨x,hg1,hg2,hg3,hg4,_⟩ := growXLoop_ok boundary hregs st.mem.bound hlist
      (by rw [hrect]; exact min_comm _ _) hholds (length_lt_bound hregs hlist)
    have huni : Uniform st ⟨rect.tl,⟨x,rect.br.y⟩⟩ r.2.value := fun p hp => by
      obtain ⟨h1,h2,h3,h4⟩ := hp
      rw [hrect] at h3 h4
      simp only [Rect.new] at h1 h2 h3 h4
      rw [hs.value_eq, hs.rows_of_mem hb (by omega) (by omega)]
      exact hg4 p.x h1 h2
    obtain ⟨last,hlast,hy1,hy2,hy4,_⟩ := hs.growYLoop boundary ⟨rect.tl,⟨x,rect.br.y⟩⟩ st.bands.heap.bound r.2.value true
      hblist (by rw [hrect]; exact min_comm _ _) huni (length_lt_bound hs.bands hblist)
    have hbot : rect.br.y ≤ min boundary.br.y last.2.yEnd := by
      have hlp : last.2.yStart < last.2.yEnd := hs.bands.proper hlast
      rw [hrect]
      simp only [Rect.new]
      rcases hy2 with rfl | hy2 <;> omega
    set y := min boundary.br.y last.2.yEnd
    have hyb : y ≤ boundary.br.y := min_le_left _ _
    have hne' : (⟨rect.tl,⟨x,y⟩⟩ : Rect).isEmpty = false := by
      rw [Rect.isEmpty, decide_eq_false_iff_not]
      simp only
      omega
    obtain ⟨st',tb',hu1,hu2,hu3⟩ := hs.update_value hne' fun _ => none
    refine Or.inr ⟨(⟨rect.tl,⟨x,y⟩⟩,r.2.value),cursor',st',tb',?_,⟨hne',fun p hp => ?_,hy4⟩,
      ⟨hready'.column,hready'.line,fun p hp hpy => ?_⟩,hu2,hu3,hu1⟩
    · have hrem : st.remove ⟨rect.tl,⟨x,y⟩⟩ = .ok st' := hu1
      simp only [BandedRegion.drainNext, BandedRegion.findNextRect, hf, bind, Except.bind, deref_eq hm, hmv,
        BandedRegion.rectGrowX, hg1, BandedRegion.rectGrowY, hy1, hrem]
      rfl
    · obtain ⟨h1,h2,h3,h4⟩ := hp
      rw [hrect] at h1 h3
      simp only [Rect.new] at h1 h2 h3 h4
      exact ⟨by omega,by omega,by omega,by omega⟩
    · rw [hu3]
      split_ifs
      · rfl
      · exact hready'.cleared p hp hpy

/-- The points of a rectangle that have a value. -/
noncomputable def valued (st : BandedRegion V) (rect : Rect) : Finset (ℤ × ℤ) :=
  (Finset.Ico rect.tl.x rect.br.x ×ˢ Finset.Ico rect.tl.y rect.br.y).filter fun q => (st.value ⟨q.1,q.2⟩).isSome

lemma mem_valued {q : ℤ × ℤ} : q ∈ valued st rect ↔ rect.Contains ⟨q.1,q.2⟩ ∧ (st.value ⟨q.1,q.2⟩).isSome := by
  simp only [valued, Finset.mem_filter, Finset.mem_product, Finset.mem_Ico, Rect.Contains]
  tauto

lemma valued_card_le (st : BandedRegion V) (rect : Rect) :
    (valued st rect).card ≤ rect.width.toNat * rect.height.toNat := by
  apply (Finset.card_filter_le _ _).trans
  rw [Finset.card_product, Int.card_Ico, Int.card_Ico]
  rfl

/-- Every step of the iterator takes out at least one point. -/
lemma Yielded.valued_lt {item : Rect × V} (h : Yielded st boundary item) {st' : BandedRegion V}
    (hv : ∀ p, st'.value p = if item.1.Contains p then none else st.value p) :
    (valued st' boundary).card < (valued st boundary).card := by
  obtain ⟨hx,hy⟩ := item.1.proper h.proper
  have htl : item.1.Contains item.1.tl := ⟨le_rfl,hx,le_rfl,hy⟩
  apply Finset.card_lt_card
  rw [Finset.ssubset_iff_of_subset]
  · refine ⟨(item.1.tl.x,item.1.tl.y),mem_valued.mpr ⟨h.inside _ htl,?_⟩,fun hm => ?_⟩
    · rw [h.uniform _ htl]
      rfl
    · have := (mem_valued.mp hm).2
      rw [hv, if_pos htl] at this
      simp at this
  · intro q hq
    obtain ⟨h1,h2⟩ := mem_valued.mp hq
    rw [hv] at h2
    split_ifs at h2 with hc
    · simp at h2
    · exact mem_valued.mpr ⟨h1,h2⟩

/-- What the iterator yields when it runs to its end: disjoint rectangles of one value each, which
cover all points of the boundary that have a value. No other point is taken out. -/
structure Drained (st : BandedRegion V) (boundary : Rect) (items : List (Rect × V)) (st' : BandedRegion V) : Prop where
  yielded : ∀ item ∈ items, Yielded st boundary item
  disjoint : items.Pairwise fun a b => ∀ p, a.1.Contains p → ¬b.1.Contains p
  covers : ∀ p, boundary.Contains p → (st.value p).isSome → ∃ item ∈ items, item.1.Contains p
  value : ∀ p, st'.value p = if boundary.Contains p then none else st.value p

/-- A rectangle that is yielded after another one was taken out. -/
lemma Yielded.later {item item' : Rect × V} {st' : BandedRegion V}
    (hv : ∀ p, st'.value p = if item.1.Contains p then none else st.value p) (h : Yielded st' boundary item') :
    Yielded st boundary item' ∧ ∀ p, item.1.Contains p → ¬item'.1.Contains p := by
  have hout : ∀ p, item'.1.Contains p → ¬item.1.Contains p ∧ st.value p = some item'.2 := fun p hp => by
    have huni := h.uniform p hp
    rw [hv] at huni
    split_ifs at huni with hc
    exact ⟨hc,huni⟩
  exact ⟨⟨h.proper,h.inside,fun p hp => (hout p hp).2⟩,fun p hp hp' => (hout p hp').1 hp⟩

/-- A step that found nothing: nothing is left. -/
lemma Drained.done (h : ∀ p, boundary.Contains p → st.value p = none) : Drained st boundary [] st := by
  refine ⟨by simp,List.Pairwise.nil,fun p hp hsome => ?_,fun p => ?_⟩
  · rw [h p hp] at hsome
    simp at hsome
  · split_ifs with hp
    · exact h p hp
    · rfl

/-- A step that took out a rectangle, and what follows it. -/
lemma Drained.cons {item : Rect × V} {items : List (Rect × V)} {st1 st2 : BandedRegion V}
    (hyield : Yielded st boundary item) (hv : ∀ p, st1.value p = if item.1.Contains p then none else st.value p)
    (hd : Drained st1 boundary items st2) : Drained st boundary (item :: items) st2 := by
  refine ⟨fun i hi => ?_,?_,fun p hp hsome => ?_,fun p => ?_⟩
  · rcases List.mem_cons.mp hi with rfl | hi
    · exact hyield
    · exact (Yielded.later hv (hd.yielded i hi)).1
  · exact List.pairwise_cons.mpr ⟨fun i hi => (Yielded.later hv (hd.yielded i hi)).2,hd.disjoint⟩
  · by_cases hc : item.1.Contains p
    · exact ⟨item,List.mem_cons_self,hc⟩
    · obtain ⟨i,hi,hip⟩ := hd.covers p hp (by rw [hv, if_neg hc]; exact hsome)
      exact ⟨i,List.mem_cons_of_mem _ hi,hip⟩
  · rw [hd.value]
    by_cases hp : boundary.Contains p
    · rw [if_pos hp, if_pos hp]
    · rw [if_neg hp, if_neg hp, hv, if_neg fun hc => hp (hyield.inside p hc)]

/-- What holds of a region and is kept by every `remove` that the iterator makes. -/
def Kept (P : BandedRegion V → Prop) (boundary : Rect) : Prop :=
  ∀ ⦃st st' : BandedRegion V⦄ ⦃item : Rect × V⦄, P st → Yielded st boundary item → st.remove item.1 = .ok st' → P st'

variable {P : BandedRegion V → Prop}

lemma Sound.drainLoop [DecidableEq V] (fuel : ℕ) (hs : Sound st tb []) (hready : Ready st boundary cursor)
    (hf : (valued st boundary).card < fuel) (hP : Kept P boundary) (h0 : P st) :
    ∃ items st' tb', BandedRegion.drainLoop boundary fuel st cursor = .ok (items,st') ∧ Sound st' tb' [] ∧
      Drained st boundary items st' ∧ P st' := by
  induction fuel generalizing st tb cursor with
  | zero => omega
  | succ fuel ih =>
    unfold BandedRegion.drainLoop
    rcases hs.drainNext hready with ⟨_,h1,_,hnone⟩ | ⟨item,cursor',st1,tb1,h1,hyield,hready',hs1,hv,hrem⟩
    · simp only [h1, bind, Except.bind]
      exact ⟨[],st,tb,rfl,hs,Drained.done hnone,h0⟩
    · have hcard := hyield.valued_lt hv
      obtain ⟨items,st2,tb2,h2,hs2,hd,hp⟩ := ih hs1 hready' (by omega) (hP h0 hyield hrem)
      simp only [h1, bind, Except.bind, h2]
      exact ⟨item :: items,st2,tb2,rfl,hs2,hd.cons hyield hv,hp⟩

/-- Draining a region to the end. -/
theorem Sound.drain [DecidableEq V] (hs : Sound st tb []) (boundary : Rect) :
    ∃ items st' tb', st.drain boundary = .ok (items,st') ∧ Sound st' tb' [] ∧ Drained st boundary items st' := by
  have hcard := valued_card_le st boundary
  obtain ⟨items,st',tb',h1,h2,h3,_⟩ := hs.drainLoop _ (.start st boundary) (Nat.lt_succ_of_le hcard)
    (P := fun _ => True) (fun _ _ _ _ _ _ => trivial) trivial
  exact ⟨items,st',tb',h1,h2,h3⟩

/-- The steps of the iterator and then its drop. -/
lemma Sound.drainSteps [DecidableEq V] (n : ℕ) (hs : Sound st tb []) (hready : Ready st boundary cursor)
    (hP : Kept P boundary) (h0 : P st) :
    ∃ items cursor' st1 rest st' tb', BandedRegion.drainSteps boundary n st cursor = .ok (items,cursor',st1) ∧
      BandedRegion.drainLoop boundary (boundary.width.toNat * boundary.height.toNat + 1) st1 cursor' = .ok (rest,st') ∧
      Sound st' tb' [] ∧ Drained st boundary (items.reduceOption ++ rest) st' ∧ P st' := by
  induction n generalizing st tb cursor with
  | zero =>
    obtain ⟨rest,st',tb',h1,h2,h3,h4⟩ :=
      hs.drainLoop _ hready (Nat.lt_succ_of_le (valued_card_le st boundary)) hP h0
    exact ⟨[],cursor,st,rest,st',tb',rfl,h1,h2,h3,h4⟩
  | succ n ih =>
    unfold BandedRegion.drainSteps
    rcases hs.drainNext hready with ⟨cursor',h1,hready',_⟩ | ⟨item,cursor',st1,tb1,h1,hyield,hready',hs1,hv,hrem⟩
    · obtain ⟨items,cursor2,st2,rest,st',tb',h2,h3,h4,h5,h6⟩ := ih hs hready' h0
      refine ⟨none :: items,cursor2,st2,rest,st',tb',?_,h3,h4,h5,h6⟩
      simp only [h1, h2, bind, Except.bind]
      rfl
    · obtain ⟨items,cursor2,st2,rest,st',tb',h2,h3,h4,h5,h6⟩ := ih hs1 hready' (hP h0 hyield hrem)
      refine ⟨some item :: items,cursor2,st2,rest,st',tb',?_,h3,h4,h5.cons hyield hv,h6⟩
      simp only [h1, h2, bind, Except.bind]
      rfl

/-- A draining iterator that is dropped after any number of steps. -/
theorem Sound.drainDropped [DecidableEq V] (hs : Sound st tb []) (boundary : Rect) (n : ℕ)
    (hP : Kept P boundary) (h0 : P st) :
    ∃ items rest st' tb', st.drainDropped boundary n = .ok (items,rest,st') ∧ Sound st' tb' [] ∧
      Drained st boundary (items.reduceOption ++ rest) st' ∧ P st' := by
  obtain ⟨items,cursor,st1,rest,st',tb',h1,h2,h3,h4,h5⟩ := hs.drainSteps n (.start st boundary) hP h0
  refine ⟨items,rest,st',tb',?_,h3,h4,h5⟩
  simp only [BandedRegion.drainDropped, h1, h2, bind, Except.bind]
  rfl

end Lilith.Draw
