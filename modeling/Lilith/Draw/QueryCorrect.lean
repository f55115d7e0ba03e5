import Lilith.Draw.Query

/-! The iteration of `query`: a step yields the points between two cursors, and all steps together those of the boundary. The
rectangles are inside the boundary unless the band of its top line starts above it and has more than one run. -/
namespace Lilith.Draw
open Theory PtrGraph CTree Rbtree

variable {V : Type} [DecidableEq V] {st : BandedRegion V} {tb : CTree (ℕ × Band)} {boundary : Rect} {cursor : Point}

/-- The rectangle that a step yields for a region that was found. -/
lemma Sound.grow (hs : Sound st tb []) {c : Point} (ht : OnTrack tb boundary c) {b : ℕ × Band} (hbm : b ∈ tb.toList)
    (hb : FirstBand tb boundary c b.2) {r : ℕ × Region V} (hr : FirstRegion st boundary c b.2 r)
    (hfind : st.findNextRect boundary cursor = .ok (c,some (b.1,r.1,foundRect boundary c b.2 r.2))) :
    ∃ x last, Grown st tb boundary c b.2 r x last ∧ st.queryNext boundary cursor =
      .ok (some (grownRect boundary c b.2 r.2 x last,r.2.value),⟨x,last.yStart⟩) := by
  have hregs := hs.regions hbm
  obtain ⟨before,after,hlist⟩ := List.append_of_mem hr.mem
  obtain ⟨bbefore,bafter,hblist⟩ := List.append_of_mem hbm
  obtain ⟨m,_,hm,hmv,_⟩ := hregs.valid.node_of_mem hr.mem
  have hm : st.mem.get? r.1 = some m := hm
  have hrp : r.2.xStart < r.2.xEnd := hregs.proper hr.mem
  set rect := foundRect boundary c b.2 r.2 with hrect
  have hholds : Holds (row st.mem b.2.regions) rect.tl.x rect.br.x r.2.value := fun x h1 h2 => by
    simp only [hrect, foundRect, Rect.new] at h1 h2
    exact hregs.denote_of_mem hr.mem (show r.2.xStart ≤ x by omega) (show x < r.2.xEnd by omega)
  obtain ⟨x,hg1,hg2,hg3,hg4,hg5⟩ := growXLoop_ok boundary hregs st.mem.bound hlist (min_comm _ _) hholds
    (length_lt_bound hregs hlist)
  have huni : Uniform st ⟨rect.tl,⟨x,rect.br.y⟩⟩ r.2.value := fun p hp => by
    obtain ⟨h1,h2,h3,h4⟩ := hp
    simp only [hrect, foundRect, Rect.new] at h3 h4
    rw [hs.value_eq, hs.rows_of_mem hbm (by omega) (by omega)]
    exact hg4 p.x h1 h2
  obtain ⟨last,hlast,hy1,hy2,hy3,hy4⟩ := hs.growYLoop boundary ⟨rect.tl,⟨x,rect.br.y⟩⟩ st.bands.heap.bound r.2.value false
    hblist (min_comm _ _) huni (length_lt_bound hs.bands hblist)
  obtain ⟨hright,hleft⟩ := hy4 rfl
  refine ⟨x,last.2,⟨ht,hb,hr,hrp,mem_values hlast,?_,hg2,hg3,hg5,hy3,hright,hleft⟩,?_⟩
  · rcases hy2 with rfl | hy2
    · exact Or.inl rfl
    · exact Or.inr hy2
  · simp only [BandedRegion.queryNext, hfind, bind, Except.bind, deref_eq hm, hmv, BandedRegion.rectGrowX, hg1,
      BandedRegion.rectGrowY, hy1]
    rfl

/-- A step of the iterator. -/
lemma Sound.queryNext (hs : Sound st tb []) (ht : OnTrack tb boundary cursor) :
    (∃ c, st.queryNext boundary cursor = .ok (none,c) ∧ ∀ p, st.value p ≠ none → ¬Ahead tb boundary cursor p) ∨
    ∃ c b r x last, Grown st tb boundary c b r x last ∧ (Past st tb boundary cursor → Past st tb boundary c) ∧
      (∀ p, st.value p ≠ none → (Ahead tb boundary cursor p ↔ Ahead tb boundary c p)) ∧
      st.queryNext boundary cursor = .ok (some (grownRect boundary c b r.2 x last,r.2.value),⟨x,last.yStart⟩) := by
  rcases hs.findAhead _ ht (later_lt_bound hs.bands cursor.y) with
    ⟨c,hf,hnone⟩ | ⟨c,htc,hpast,hsame,b,hbm,hb,r,hr,hf⟩
  · refine Or.inl ⟨c,?_,hnone⟩
    simp only [BandedRegion.queryNext, BandedRegion.findNextRect, hf, bind, Except.bind]
    rfl
  · obtain ⟨x,last,hg,hq⟩ := hs.grow htc hbm hb hr hf
    exact Or.inr ⟨c,b.2,r,x,last,hg,hpast,hsame,hq⟩

/-- What the iterator is for: disjoint rectangles of one value each inside the boundary, which cover exactly its points with
a value. -/
structure Queried (st : BandedRegion V) (boundary : Rect) (items : List (Rect × V)) : Prop where
  yielded : ∀ item ∈ items, Yielded st boundary item
  disjoint : items.Pairwise fun a b => ∀ p, a.1.Contains p → ¬b.1.Contains p
  covers : ∀ p, boundary.Contains p → ((∃ item ∈ items, item.1.Contains p) ↔ st.value p ≠ none)

open Classical in
/-- The points with a value that are ahead of the cursor. -/
noncomputable def aheadSet (st : BandedRegion V) (tb : CTree (ℕ × Band)) (boundary : Rect) (cursor : Point) : Finset (ℤ × ℤ) :=
  (valued st boundary).filter fun q => Ahead tb boundary cursor ⟨q.1,q.2⟩

omit [DecidableEq V] in
lemma mem_aheadSet {q : ℤ × ℤ} : q ∈ aheadSet st tb boundary cursor ↔
    st.value ⟨q.1,q.2⟩ ≠ none ∧ Ahead tb boundary cursor ⟨q.1,q.2⟩ := by
  simp only [aheadSet, Finset.mem_filter, mem_valued, Option.isSome_iff_ne_none]
  exact ⟨fun h => ⟨h.1.2,h.2⟩,fun h => ⟨⟨h.2.1,h.1⟩,h.2⟩⟩

omit [DecidableEq V] in
/-- A rectangle leaves fewer points ahead. -/
lemma Grown.card_lt {c : Point} {b last : Band} {r : ℕ × Region V} {x : ℤ} (h : Grown st tb boundary c b r x last)
    (hs : Sound st tb []) (hsame : ∀ p, st.value p ≠ none → (Ahead tb boundary cursor p ↔ Ahead tb boundary c p)) :
    (aheadSet st tb boundary ⟨x,last.yStart⟩).card < (aheadSet st tb boundary cursor).card := by
  apply Finset.card_lt_card
  rw [Finset.ssubset_iff_of_subset]
  · obtain ⟨p,hp1,hp2⟩ := h.meets hs
    have hv : st.value p ≠ none := by
      rw [h.uniform p hp2]
      simp
    refine ⟨(p.x,p.y),mem_aheadSet.mpr ⟨hv,?_⟩,fun hm => h.not_ahead hs hp2 (mem_aheadSet.mp hm).2⟩
    rw [hsame _ hv, h.ahead_iff hs hp1 hv]
    exact Or.inl hp2
  · intro q hq
    obtain ⟨hv,hq⟩ := mem_aheadSet.mp hq
    refine mem_aheadSet.mpr ⟨hv,?_⟩
    rw [hsame _ hv, h.ahead_iff hs hq.1 hv]
    exact Or.inr hq

/-- The iterator from a cursor on. -/
lemma Sound.queryLoop (hs : Sound st tb []) (fuel : ℕ) (ht : OnTrack tb boundary cursor)
    (hf : (aheadSet st tb boundary cursor).card < fuel) :
    ∃ items, st.queryLoop boundary fuel cursor = .ok items ∧
      (∀ p, boundary.Contains p → ((∃ item ∈ items, item.1.Contains p) ↔ st.value p ≠ none ∧ Ahead tb boundary cursor p)) ∧
      (Past st tb boundary cursor → TopRun st boundary → (∀ item ∈ items, Yielded st boundary item) ∧
        items.Pairwise fun a b => ∀ p, a.1.Contains p → ¬b.1.Contains p) := by
  induction fuel generalizing cursor with
  | zero => omega
  | succ fuel ih =>
    rcases hs.queryNext ht with ⟨c,h1,hnone⟩ | ⟨c,b,r,x,last,hg,hpast,hsame,h1⟩
    · refine ⟨[],?_,fun p _ => ?_,fun _ _ => ⟨by simp,List.Pairwise.nil⟩⟩
      · simp only [BandedRegion.queryLoop, h1, bind, Except.bind]
        rfl
      · simp only [List.not_mem_nil, false_and, exists_false, false_iff, not_and]
        exact hnone p
    · have hcard := hg.card_lt hs hsame
      obtain ⟨items,h2,hcov,hgood⟩ := ih (hg.onTrack hs) (by omega)
      have hcovers : ∀ p, boundary.Contains p → ((∃ item ∈ (grownRect boundary c b r.2 x last,r.2.value) :: items,
          item.1.Contains p) ↔ st.value p ≠ none ∧ Ahead tb boundary cursor p) := fun p hp => by
        constructor
        · rintro ⟨item,hi,hip⟩
          rcases List.mem_cons.mp hi with rfl | hi
          · have hv : st.value p ≠ none := by
              rw [hg.uniform p hip]
              simp
            exact ⟨hv,(hsame p hv).mpr ((hg.ahead_iff hs hp hv).mpr (Or.inl hip))⟩
          · obtain ⟨hv,ha⟩ := (hcov p hp).mp ⟨item,hi,hip⟩
            exact ⟨hv,(hsame p hv).mpr ((hg.ahead_iff hs hp hv).mpr (Or.inr ha))⟩
        · rintro ⟨hv,ha⟩
          rcases (hg.ahead_iff hs hp hv).mp ((hsame p hv).mp ha) with hip | ha
          · exact ⟨_,List.mem_cons_self,hip⟩
          · obtain ⟨item,hi,hip⟩ := (hcov p hp).mpr ⟨hv,ha⟩
            exact ⟨item,List.mem_cons_of_mem _ hi,hip⟩
      refine ⟨(grownRect boundary c b r.2 x last,r.2.value) :: items,?_,hcovers,fun hp hrun => ?_⟩
      · simp only [BandedRegion.queryLoop, h1, h2, bind, Except.bind]
        rfl
      · obtain ⟨hy,hd⟩ := hgood (hg.past hs hrun) hrun
        have hyield : Yielded st boundary (grownRect boundary c b r.2 x last,r.2.value) :=
          ⟨hg.proper hs,fun p hip => hg.inside hs (hpast hp) hip,hg.uniform⟩
        refine ⟨fun item hi => ?_,List.pairwise_cons.mpr ⟨fun item hi p hp1 hp2 => ?_,hd⟩⟩
        · rcases List.mem_cons.mp hi with rfl | hi
          · exact hyield
          · exact hy item hi
        · exact hg.not_ahead hs hp1 ((hcov p ((hy item hi).inside p hp2)).mp ⟨item,hi,hp2⟩).2

omit [DecidableEq V] in
/-- All points of the boundary with a value are ahead of its corner. -/
lemma Sound.ahead_first (hs : Sound st tb []) {p : Point} (hp : boundary.Contains p) (hv : st.value p ≠ none) :
    Ahead tb boundary boundary.tl p := by
  obtain ⟨b,hb,hbp,_⟩ := hs.band_of_value hv
  exact ⟨hp,b,hb,hbp,hp.2.2.1.trans_lt hbp.2,fun _ => hp.1⟩

omit [DecidableEq V] in
lemma aheadSet_card_lt (st : BandedRegion V) (tb : CTree (ℕ × Band)) (boundary : Rect) (cursor : Point) :
    (aheadSet st tb boundary cursor).card < boundary.width.toNat * boundary.height.toNat + 1 := by
  classical
  exact Nat.lt_succ_of_le ((Finset.card_filter_le _ _).trans (valued_card_le st boundary))

/-- The iterator returns, and on a boundary with one run on its top line it does what it is for. -/
lemma Sound.query (hs : Sound st tb []) (boundary : Rect) : ∃ items, st.query boundary = .ok items ∧
    (TopRun st boundary → Queried st boundary items) := by
  obtain ⟨items,h1,h2,h3⟩ := hs.queryLoop _ (.first tb boundary) (aheadSet_card_lt st tb boundary boundary.tl)
  refine ⟨items,h1,fun hrun => ?_⟩
  obtain ⟨h4,h5⟩ := h3 (fun hlt => absurd hlt (lt_irrefl _)) hrun
  exact ⟨h4,h5,fun p hp => (h2 p hp).trans ⟨fun h => h.1,fun hv => ⟨hv,hs.ahead_first hp hv⟩⟩⟩

/-- A step from a cursor in a band that has a region to the right of it. -/
lemma Sound.queryNext_here (hs : Sound st tb []) (ht : OnTrack tb boundary cursor) {b : Band} (hb : b ∈ values tb)
    (hhas : b.Has cursor.y) (hline : cursor.y < boundary.br.y) {y : ℤ} (hy1 : cursor.x ≤ y) (hy2 : y < boundary.br.x)
    (hrow : row st.mem b.regions y ≠ none) : ∃ r x last, Grown st tb boundary cursor b r x last ∧
      st.queryNext boundary cursor = .ok (some (grownRect boundary cursor b r.2 x last,r.2.value),⟨x,last.yStart⟩) := by
  rcases hs.findNextLoop_cases (2*st.bands.heap.cells.length+1) boundary cursor with
    ⟨_,hnone⟩ | ⟨c,hcm,hc,⟨_,hno⟩ | ⟨r,hr,h1⟩⟩
  · have hd : denote bandView tb cursor.y = some b.regions := hs.bands.wf.lookup_of_mem hb hhas
    rw [hnone _ le_rfl hline] at hd
    simp at hd
  · obtain rfl := hc.eq hs hb hhas
    exact absurd (hno y hy1 hy2) hrow
  · obtain rfl := hc.eq hs hb hhas
    obtain ⟨x,last,hg,hq⟩ := hs.grow ht hcm hc hr h1
    exact ⟨r,x,last,hg,hq⟩

/-- Where the top line of the boundary has more than one run and its band starts above the boundary, the second rectangle is not
inside the boundary. -/
lemma Sound.query_outside (hs : Sound st tb []) (hrun : ¬TopRun st boundary) {items : List (Rect × V)}
    (hq : st.query boundary = .ok items) : ∃ item ∈ items, ∃ p, item.1.Contains p ∧ ¬boundary.Contains p := by
  simp only [TopRun, not_forall] at hrun
  obtain ⟨hbr,⟨b,hbm,hb1,hb2⟩,x1,x2,hx1,hx2,hv1,hv2,x,hxl,hxr,hne⟩ := hrun
  rw [hs.toTree_eq] at hbm
  obtain ⟨⟨i,b⟩,hbi,rfl⟩ := List.mem_map.mp hbm
  simp only at hb1 hb2
  have hrow : ∀ z, st.value ⟨z,boundary.tl.y⟩ = row st.mem b.regions z := fun z => by
    rw [hs.value_eq, hs.rows_of_mem hbi hb1.le hb2]
  simp only [hrow] at hv1 hv2 hne
  -- the first step ends before the last run
  obtain ⟨r,x',last,hg,hn⟩ := hs.queryNext_here (.first tb boundary) hbm ⟨hb1.le,hb2⟩ hbr hx1 (by omega) hv1
  have hstart : max r.2.xStart boundary.tl.x ≤ x1 := by
    by_contra hlt
    exact hv1 (hg.region.gap x1 hx1 (by omega))
  have hx' : x' ≤ x2 := by
    by_contra hlt
    apply hne
    rw [hg.row_eq hs (by omega) (by omega), hg.row_eq hs (by omega) (by omega)]
  have hlast : last = b := by
    rcases hg.below with h | h
    · exact h
    · have hbp : b.yStart < b.yEnd := hs.bands.proper hbi
      have h : b.yEnd ≤ last.yStart := h
      have hnone := hg.right ⟨x2,b.yStart⟩ le_rfl (by simp only; omega) hx' hx2
      rw [hs.value_eq, hs.rows_of_mem hbi le_rfl hbp] at hnone
      exact absurd hnone hv2
  subst hlast
  -- the second one starts at the start of the band
  have hlp : last.yStart < last.yEnd := hs.bands.proper hbi
  obtain ⟨r2,x2',last2,hg2,hn2⟩ := hs.queryNext_here (hg.onTrack hs) hbm ⟨le_rfl,hlp⟩ (by simp only; omega) hx' hx2 hv2
  obtain ⟨fuel,hfuel⟩ : ∃ k, boundary.width.toNat * boundary.height.toNat + 1 = k + 2 := by
    have hw : 0 < boundary.width := by
      simp only [Rect.width]
      omega
    have hh : 0 < boundary.height := by
      simp only [Rect.height]
      omega
    have := Nat.mul_pos (by omega : 0 < boundary.width.toNat) (by omega : 0 < boundary.height.toNat)
    exact ⟨boundary.width.toNat * boundary.height.toNat - 1,by omega⟩
  rw [BandedRegion.query, hfuel] at hq
  simp only [BandedRegion.queryLoop, hn, hn2, bind, Except.bind] at hq
  cases hrest : st.queryLoop boundary fuel ⟨x2',last2.yStart⟩ with
  | error e =>
    rw [hrest] at hq
    simp at hq
  | ok rest =>
    rw [hrest] at hq
    obtain rfl := Except.ok.inj hq
    obtain ⟨h1,h2⟩ := Rect.proper (hg2.proper hs)
    refine ⟨_,List.mem_cons_of_mem _ List.mem_cons_self,_,⟨le_rfl,h1,le_rfl,h2⟩,fun hin => ?_⟩
    have h3 := hin.2.2.1
    simp only [grownRect, foundRect, Rect.new, max_self] at h3
    omega

/-- `query` of a reachable region returns. It yields disjoint rectangles inside the boundary that cover exactly the points with
a value exactly when the boundary is empty, its top line is not inside a band, or the points with a value on this line are one
run of one value. -/
theorem query_iff_topRun (h : Reachable st) (boundary : Rect) : (∃ items, st.query boundary = .ok items) ∧
    ((∃ items, st.query boundary = .ok items ∧ Queried st boundary items) ↔ TopRun st boundary) := by
  obtain ⟨tb,hs⟩ := h.sound
  obtain ⟨items,h1,h2⟩ := hs.query boundary
  refine ⟨⟨items,h1⟩,fun ⟨items',h3,h4⟩ => ?_,fun hrun => ⟨items,h1,h2 hrun⟩⟩
  by_contra hrun
  obtain ⟨item,hi,p,hp,hout⟩ := hs.query_outside hrun h3
  exact hout ((h4.yielded item hi).inside p hp)

/-- A region with one rectangle. -/
theorem query_iff_topRun_one : ∃ st : BandedRegion ℕ,
    (BandedRegion.new ⟨[]⟩ ⟨[]⟩).insert ⟨⟨0,0⟩,⟨4,4⟩⟩ 7 = .ok st ∧ (∃ items, st.query ⟨⟨1,1⟩,⟨9,9⟩⟩ = .ok items) ∧
    ((∃ items, st.query ⟨⟨1,1⟩,⟨9,9⟩⟩ = .ok items ∧ Queried st ⟨⟨1,1⟩,⟨9,9⟩⟩ items) ↔ TopRun st ⟨⟨1,1⟩,⟨9,9⟩⟩) := by
  obtain ⟨st,h1,h2⟩ := (Reachable.new ⟨[]⟩ ⟨[]⟩).insert_ok (show Rect.isEmpty ⟨⟨0,0⟩,⟨4,4⟩⟩ = false by decide) 7
  exact ⟨st,h1,query_iff_topRun h2 _⟩

/-- Two rectangles beside each other, and a boundary that starts below their top: the second rectangle that is yielded starts
above the boundary. -/
theorem query_not_inside : ¬ ∀ (st : BandedRegion ℕ) (boundary : Rect), Reachable st →
    ∃ items, st.query boundary = .ok items ∧ Queried st boundary items := by
  intro h
  obtain ⟨st1,h1,h2⟩ := (Reachable.new ⟨[]⟩ ⟨[]⟩).insert_ok (show Rect.isEmpty ⟨⟨0,0⟩,⟨1,2⟩⟩ = false by decide) 7
  obtain ⟨st,h3,h4⟩ := h2.insert_ok (show Rect.isEmpty ⟨⟨2,0⟩,⟨3,2⟩⟩ = false by decide) 7
  have hrun : (do
      let st ← (BandedRegion.new ⟨[]⟩ ⟨[]⟩ : BandedRegion ℕ).insert ⟨⟨0,0⟩,⟨1,2⟩⟩ 7
      (← st.insert ⟨⟨2,0⟩,⟨3,2⟩⟩ 7).query ⟨⟨0,1⟩,⟨3,2⟩⟩) = .ok [(⟨⟨0,1⟩,⟨1,2⟩⟩,7),(⟨⟨2,0⟩,⟨3,2⟩⟩,7)] := by
    decide +kernel
  obtain ⟨items,h5,h6⟩ := h st ⟨⟨0,1⟩,⟨3,2⟩⟩ h4
  simp only [h1, h3, h5, bind, Except.bind] at hrun
  obtain rfl := Except.ok.inj hrun
  have hin := (h6.yielded _ (List.mem_cons_of_mem _ List.mem_cons_self)).inside ⟨2,0⟩ (by decide)
  exact absurd hin (by decide)

end Lilith.Draw
