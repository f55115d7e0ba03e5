import Lilith.Draw.Runs

/-! Iterating over the rectangles of a banded region (`query`). The cursor goes through the bands from top to bottom and
through each band from left to right. After a step it is moved to the start of a band, which may be above the boundary; the
rectangles that are then found in this band are not inside the boundary. -/
namespace Lilith.Draw
open Rbtree

namespace BandedRegion
variable {V : Type} [DecidableEq V]

/-- `next` of the iterator: the rectangle and its value, with the new cursor. -/
def queryNext (self : BandedRegion V) (boundary : Rect) (cursor : Point) : Except Fault (Option (Rect × V) × Point) := do
  match ← self.findNextRect boundary cursor with
  | (cursor,none) => return (none,cursor)
  | (_,some (bandNode,regionNode,rect)) => do
    let value := (← self.mem.deref (some regionNode)).value.value
    let rect ← self.rectGrowX boundary regionNode rect
    let (y,rect) ← self.rectGrowY boundary bandNode rect value false
    return (some (rect,value),⟨rect.br.x,y⟩)

def queryLoop (self : BandedRegion V) (boundary : Rect) : ℕ → Point → Except Fault (List (Rect × V))
  | 0, _ => .error .diverge
  | fuel+1, cursor => do
    match ← self.queryNext boundary cursor with
    | (none,_) => return []
    | (some item,cursor) => return item :: (← queryLoop self boundary fuel cursor)

/-- All rectangles that `query(boundary)` yields. Each one has a point of the boundary that no other one has. -/
def query (self : BandedRegion V) (boundary : Rect) : Except Fault (List (Rect × V)) :=
  self.queryLoop boundary (boundary.width.toNat * boundary.height.toNat + 1) boundary.tl

end BandedRegion

open Theory PtrGraph CTree

variable {V : Type} {st : BandedRegion V} {tb : CTree (ℕ × Band)} {boundary rect : Rect} {cursor : Point}

/-- A band with a line. -/
def Band.Has (b : Band) (y : ℤ) : Prop := b.yStart ≤ y ∧ y < b.yEnd

/-- The point is in the boundary, in a band that ends below the cursor, and in the band of the cursor it is not left of it. -/
def Ahead (tb : CTree (ℕ × Band)) (boundary : Rect) (cursor p : Point) : Prop :=
  boundary.Contains p ∧ ∃ b ∈ values tb, b.Has p.y ∧ cursor.y < b.yEnd ∧ (b.yStart ≤ cursor.y → cursor.x ≤ p.x)

/-- Where the cursor can be. -/
structure OnTrack (tb : CTree (ℕ × Band)) (boundary : Rect) (cursor : Point) : Prop where
  left : boundary.tl.x ≤ cursor.x
  band : cursor.x = boundary.tl.x ∨ ∃ b ∈ values tb, b.Has cursor.y
  start : cursor.y = boundary.tl.y ∨ ∀ b ∈ values tb, b.Has cursor.y → b.yStart = cursor.y
  line : boundary.tl.y ≤ cursor.y ∨
    boundary.tl.y < boundary.br.y ∧ ∃ b ∈ values tb, b.Has cursor.y ∧ boundary.tl.y < b.yEnd

/-- Where the cursor is above the boundary, there is nothing more to find in its band. -/
def Past (st : BandedRegion V) (tb : CTree (ℕ × Band)) (boundary : Rect) (cursor : Point) : Prop :=
  cursor.y < boundary.tl.y → ∀ b ∈ values tb, b.Has cursor.y → ∀ x, cursor.x ≤ x → x < boundary.br.x →
    row st.mem b.regions x = none

lemma OnTrack.first (tb : CTree (ℕ × Band)) (boundary : Rect) : OnTrack tb boundary boundary.tl :=
  ⟨le_rfl,Or.inl rfl,Or.inl rfl,Or.inl le_rfl⟩

/-- Two bands with a common line are the same. -/
lemma Sound.band_unique (hs : Sound st tb []) {b c : Band} (hb : b ∈ values tb) (hc : c ∈ values tb) {y : ℤ} (h1 : b.Has y)
    (h2 : c.Has y) : b = c := hs.bands.wf.unique hb hc h1 h2

/-- Bands that start in order end in order. -/
lemma Sound.band_le (hs : Sound st tb []) {b c : Band} (hb : b ∈ values tb) (hc : c ∈ values tb) :
    b = c ∨ b.yEnd ≤ c.yStart ∨ c.yEnd ≤ b.yStart := by
  have hbp : b.yStart < b.yEnd := hs.bands.wf.proper b hb
  have hcp : c.yStart < c.yEnd := hs.bands.wf.proper c hc
  by_cases h : b.yEnd ≤ c.yStart ∨ c.yEnd ≤ b.yStart
  · exact Or.inr h
  · refine Or.inl (hs.band_unique hb hc (y := max b.yStart c.yStart) ?_ ?_) <;> unfold Band.Has <;> omega

/-- A point with a value is on a line of a band. -/
lemma Sound.band_of_value (hs : Sound st tb []) {p : Point} (hv : st.value p ≠ none) :
    ∃ b ∈ values tb, b.Has p.y ∧ row st.mem b.regions p.x ≠ none := by
  rw [hs.value_eq, rows] at hv
  cases hd : denote bandView tb p.y with
  | none => simp [hd] at hv
  | some r =>
    obtain ⟨b,hb,hc,rfl⟩ := hs.bands.wf.lookup_eq_some.mp hd
    simp only [hd, Option.elim_some] at hv
    exact ⟨b,hb,hc,hv⟩

/-- The first band below the cursor that overlaps the boundary. -/
structure FirstBand (tb : CTree (ℕ × Band)) (boundary : Rect) (cursor : Point) (b : Band) : Prop where
  mem : b ∈ values tb
  inside : cursor.y < boundary.br.y
  ends : cursor.y < b.yEnd
  starts : b.yStart < boundary.br.y
  gap : ∀ y, cursor.y ≤ y → y < b.yStart → denote bandView tb y = none

/-- A band that ends below the cursor is the first one or below it. -/
lemma FirstBand.le {b c : Band} (hb : FirstBand tb boundary cursor b) (hs : Sound st tb []) (hc : c ∈ values tb)
    (hend : cursor.y < c.yEnd) : c = b ∨ b.yEnd ≤ c.yStart := by
  have hcp : c.yStart < c.yEnd := hs.bands.wf.proper c hc
  rcases hs.band_le hb.mem hc with h | h | h
  · exact Or.inl h.symm
  · exact Or.inr h
  · -- its last lines would be in the gap
    have hlast := hb.gap (c.yEnd - 1) (by omega) (by omega)
    have hsome : denote bandView tb (c.yEnd - 1) = some c.regions :=
      hs.bands.wf.lookup_of_mem hc ⟨show c.yStart ≤ c.yEnd - 1 by omega,show c.yEnd - 1 < c.yEnd by omega⟩
    rw [hlast] at hsome
    simp at hsome

/-- The band of the cursor is the first one. -/
lemma FirstBand.eq {b c : Band} (hb : FirstBand tb boundary cursor b) (hs : Sound st tb []) (hc : c ∈ values tb)
    (hhas : c.Has cursor.y) : c = b := by
  rcases hb.le hs hc hhas.2 with h | h
  · exact h
  · have := hb.ends
    have := hhas.1
    omega

/-- A point ahead in the first band is not left of the cursor. -/
lemma FirstBand.column {b : Band} (hb : FirstBand tb boundary cursor b) (hs : Sound st tb [])
    (ht : OnTrack tb boundary cursor) {p : Point} (hp : Ahead tb boundary cursor p) (hbp : b.Has p.y) : cursor.x ≤ p.x := by
  obtain ⟨hin,c,hc,hcp,_,hx⟩ := hp
  obtain rfl := hs.band_unique hc hb.mem hcp hbp
  by_cases hstart : c.yStart ≤ cursor.y
  · exact hx hstart
  · rcases ht.band with h | ⟨d,hd,hdc⟩
    · rw [h]
      exact hin.1
    · obtain rfl := hb.eq hs hd hdc
      exact absurd hdc.1 hstart

/-- The cursor behind a band in which nothing was found. -/
lemma FirstBand.skip {b : Band} (hb : FirstBand tb boundary cursor b) (hs : Sound st tb []) (ht : OnTrack tb boundary cursor)
    (hrow : ∀ x, cursor.x ≤ x → x < boundary.br.x → row st.mem b.regions x = none) :
    OnTrack tb boundary ⟨boundary.tl.x,b.yEnd⟩ ∧ boundary.tl.y ≤ b.yEnd ∧
    ∀ p, st.value p ≠ none → (Ahead tb boundary cursor p ↔ Ahead tb boundary ⟨boundary.tl.x,b.yEnd⟩ p) := by
  have hbp : b.yStart < b.yEnd := hs.bands.wf.proper b hb.mem
  have hline : boundary.tl.y ≤ b.yEnd := by
    rcases ht.line with h | ⟨_,c,hc,hhas,h⟩
    · exact h.trans hb.ends.le
    · obtain rfl := hb.eq hs hc hhas
      exact h.le
  refine ⟨⟨le_rfl,Or.inl rfl,Or.inr fun c hc hhas => ?_,Or.inl hline⟩,hline,fun p hv => ⟨fun hp => ?_,fun hp => ?_⟩⟩
  · obtain ⟨h1,h2⟩ := hhas
    simp only at h1 h2 ⊢
    rcases hs.band_le hb.mem hc with rfl | h | h <;> omega
  · obtain ⟨hin,c,hc,hcp,hend,hx⟩ := hp
    rcases hb.le hs hc hend with rfl | h
    · -- the band has no value there
      have hcol := hb.column hs ht ⟨hin,c,hc,hcp,hend,hx⟩ hcp
      obtain ⟨d,hd,hdp,hrowd⟩ := hs.band_of_value hv
      obtain rfl := hs.band_unique hd hc hdp hcp
      exact absurd (hrow p.x hcol hin.2.1) hrowd
    · refine ⟨hin,c,hc,hcp,?_,fun _ => hin.1⟩
      have := hs.bands.wf.proper c hc
      have hcp' : c.yStart < c.yEnd := this
      simp only
      omega
  · obtain ⟨hin,c,hc,hcp,hend,_⟩ := hp
    have hcends := hb.ends
    simp only at hend
    rcases hs.band_le hb.mem hc with rfl | h | h
    · omega
    · exact ⟨hin,c,hc,hcp,by omega,fun hx => by omega⟩
    · have hcp' : c.yStart < c.yEnd := hs.bands.wf.proper c hc
      omega

/-- The first region of a band from a column on. -/
structure FirstRegion (st : BandedRegion V) (boundary : Rect) (cursor : Point) (b : Band) (r : ℕ × Region V) : Prop where
  mem : r ∈ (regionTree st.mem b.regions).toList
  inside : cursor.x < boundary.br.x
  ends : cursor.x < r.2.xEnd
  starts : r.2.xStart < boundary.br.x
  gap : ∀ x, cursor.x ≤ x → x < r.2.xStart → row st.mem b.regions x = none

/-- The part of a region of a band behind the cursor. -/
def foundRect (boundary : Rect) (cursor : Point) (b : Band) (r : Region V) : Rect :=
  .new (max r.xStart cursor.x) (max b.yStart cursor.y) (min r.xEnd boundary.br.x) (min b.yEnd boundary.br.y)

/-- A round of the loop of `find_next_rect`. -/
lemma Sound.findNextLoop_cases (hs : Sound st tb []) (fuel : ℕ) (boundary : Rect) (cursor : Point) :
    (st.findNextLoop boundary (fuel+1) cursor = .ok (⟨cursor.x,boundary.br.y⟩,none) ∧
      ∀ y, cursor.y ≤ y → y < boundary.br.y → denote bandView tb y = none) ∨
    ∃ b ∈ tb.toList, FirstBand tb boundary cursor b.2 ∧
      ((st.findNextLoop boundary (fuel+1) cursor = st.findNextLoop boundary fuel ⟨boundary.tl.x,b.2.yEnd⟩ ∧
          ∀ x, cursor.x ≤ x → x < boundary.br.x → row st.mem b.2.regions x = none) ∨
        ∃ r, FirstRegion st boundary cursor b.2 r ∧
          st.findNextLoop boundary (fuel+1) cursor = .ok (cursor,some (b.1,r.1,foundRect boundary cursor b.2 r.2))) := by
  rcases firstBand_ok hs cursor.y boundary.br.y with ⟨hb,hnone⟩ | ⟨b,hbm,hb,hlt,hend,hstart,hgap⟩
  · refine Or.inl ⟨?_,hnone⟩
    simp only [BandedRegion.findNextLoop, hb, bind, Except.bind]
    rfl
  · refine Or.inr ⟨b,hbm,⟨mem_values hbm,hlt,hend,hstart,hgap⟩,?_⟩
    obtain ⟨n,_,hn,hnv,_⟩ := hs.bands.valid.node_of_mem hbm
    have hregs := hs.regions hbm
    rcases firstRegion_ok hregs cursor.x boundary.br.x with ⟨hr,hrnone⟩ | ⟨r,hrm,hr,hrlt,hrend,hrstart,hrgap⟩
    · refine Or.inl ⟨?_,hrnone⟩
      simp only [BandedRegion.findNextLoop, hb, bind, Except.bind, deref_eq hn, hnv, BandedRegion.regionsOf, hr]
    · obtain ⟨m,_,hm,hmv,_⟩ := hregs.valid.node_of_mem hrm
      have hm : st.mem.get? r.1 = some m := hm
      have hbp : b.2.yStart < b.2.yEnd := hs.bands.proper hbm
      have hrp : r.2.xStart < r.2.xEnd := hregs.proper hrm
      have hint : (Rect.new r.2.xStart b.2.yStart r.2.xEnd b.2.yEnd).intersect ⟨cursor,boundary.br⟩ =
          some (foundRect boundary cursor b.2 r.2) := by
        unfold Rect.intersect
        refine (if_pos ?_).trans rfl
        simp only [Rect.new]
        omega
      refine Or.inr ⟨r,⟨hrm,hrlt,hrend,hrstart,hrgap⟩,?_⟩
      simp only [BandedRegion.findNextLoop, hb, bind, Except.bind, deref_eq hn, hnv, BandedRegion.regionsOf, hr,
        deref_eq hm, hmv, hint]
      rfl

/-- What the search finds from a cursor on: nothing if there is no point ahead, or else the first region ahead. -/
lemma Sound.findAhead (hs : Sound st tb []) (fuel : ℕ) (ht : OnTrack tb boundary cursor)
    (hf : (bandView.later cursor.y (values tb)).card < fuel) :
    (∃ cursor', st.findNextLoop boundary fuel cursor = .ok (cursor',none) ∧
      ∀ p, st.value p ≠ none → ¬Ahead tb boundary cursor p) ∨
    ∃ cursor', OnTrack tb boundary cursor' ∧ (Past st tb boundary cursor → Past st tb boundary cursor') ∧
      (∀ p, st.value p ≠ none → (Ahead tb boundary cursor p ↔ Ahead tb boundary cursor' p)) ∧
      ∃ b ∈ tb.toList, FirstBand tb boundary cursor' b.2 ∧ ∃ r, FirstRegion st boundary cursor' b.2 r ∧
        st.findNextLoop boundary fuel cursor = .ok (cursor',some (b.1,r.1,foundRect boundary cursor' b.2 r.2)) := by
  induction fuel generalizing cursor with
  | zero => omega
  | succ fuel ih =>
    rcases hs.findNextLoop_cases fuel boundary cursor with ⟨h1,hnone⟩ | ⟨b,hbm,hb,⟨h1,hrow⟩ | ⟨r,hr,h1⟩⟩
    · refine Or.inl ⟨_,h1,fun p hv hp => ?_⟩
      obtain ⟨hin,b,hb,hbp,hend,_⟩ := hp
      -- some line of the band is between the cursor and the end of the boundary
      have hd : denote bandView tb (max p.y cursor.y) = some b.regions :=
        hs.bands.wf.lookup_of_mem hb ⟨hbp.1.trans (le_max_left _ _),max_lt hbp.2 hend⟩
      by_cases hc : cursor.y < boundary.br.y
      · rw [hnone _ (le_max_right _ _) (max_lt hin.2.2.2 hc)] at hd
        simp at hd
      · have h2 := hin.2.2.1
        have h3 := hin.2.2.2
        have h4 := hbp.1
        rcases ht.start with h | h
        · omega
        · have := h b hb ⟨by omega,hend⟩
          omega
    · obtain ⟨ht',hline,hsame⟩ := hb.skip hs ht hrow
      have hcard : (bandView.later b.2.yEnd (values tb)).card < (bandView.later cursor.y (values tb)).card :=
        SpanView.later_lt hb.mem hb.ends fun z hz _ => hz
      rw [h1]
      rcases @ih ⟨boundary.tl.x,b.2.yEnd⟩ ht' (hcard.trans_le (by omega)) with
        ⟨c',h2,h3⟩ | ⟨c',h2,h3,h4,h5⟩
      · exact Or.inl ⟨c',h2,fun p hv hp => h3 p hv ((hsame p hv).mp hp)⟩
      · exact Or.inr ⟨c',h2,fun _ => h3 fun hlt => absurd hlt hline.not_gt,
          fun p hv => (hsame p hv).trans (h4 p hv),h5⟩
    · exact Or.inr ⟨cursor,ht,id,fun _ _ => Iff.rfl,b,hbm,hb,r,hr,h1⟩

/-- A rectangle that was found in the region `r` of the band `b` and has grown to the column `x` and into the band `last`. -/
structure Grown (st : BandedRegion V) (tb : CTree (ℕ × Band)) (boundary : Rect) (cursor : Point) (b : Band) (r : ℕ × Region V)
    (x : ℤ) (last : Band) : Prop where
  track : OnTrack tb boundary cursor
  band : FirstBand tb boundary cursor b
  region : FirstRegion st boundary cursor b r
  width : r.2.xStart < r.2.xEnd
  mem : last ∈ values tb
  below : last = b ∨ b.yEnd ≤ last.yStart
  reach : min r.2.xEnd boundary.br.x ≤ x
  bound : x ≤ boundary.br.x
  full : x = boundary.br.x ∨ row st.mem b.regions x ≠ some r.2.value
  uniform : Uniform st ⟨(foundRect boundary cursor b r.2).tl,⟨x,min boundary.br.y last.yEnd⟩⟩ r.2.value
  right : ∀ p, b.yStart ≤ p.y → p.y < last.yStart → x ≤ p.x → p.x < boundary.br.x → st.value p = none
  left : ∀ p, b.yEnd ≤ p.y → p.y < last.yEnd → boundary.tl.x ≤ p.x → p.x < max r.2.xStart cursor.x → st.value p = none

/-- The rectangle that is yielded. -/
def grownRect (boundary : Rect) (cursor : Point) (b : Band) (r : Region V) (x : ℤ) (last : Band) : Rect :=
  ⟨(foundRect boundary cursor b r).tl,⟨x,min boundary.br.y last.yEnd⟩⟩

namespace Grown
variable {b last : Band} {r : ℕ × Region V} {x : ℤ}

lemma contains_iff {p : Point} : (grownRect boundary cursor b r.2 x last).Contains p ↔
    (max r.2.xStart cursor.x ≤ p.x ∧ p.x < x) ∧ max b.yStart cursor.y ≤ p.y ∧ p.y < min boundary.br.y last.yEnd := by
  simp only [grownRect, foundRect, Rect.Contains, Rect.new]
  tauto

/-- The last band is the first one or below it. -/
lemma ends (h : Grown st tb boundary cursor b r x last) (hs : Sound st tb []) : b.yStart ≤ last.yStart ∧ b.yEnd ≤ last.yEnd := by
  have hbp : b.yStart < b.yEnd := hs.bands.wf.proper b h.band.mem
  have hlp : last.yStart < last.yEnd := hs.bands.wf.proper last h.mem
  rcases h.below with rfl | h <;> omega

lemma column_lt (h : Grown st tb boundary cursor b r x last) : max r.2.xStart cursor.x < x := by
  have h1 := h.region.inside
  have h2 := h.region.ends
  have h3 := h.region.starts
  have h4 := h.width
  have h5 := h.reach
  omega

lemma proper (h : Grown st tb boundary cursor b r x last) (hs : Sound st tb []) :
    (grownRect boundary cursor b r.2 x last).isEmpty = false := by
  have hbp : b.yStart < b.yEnd := hs.bands.wf.proper b h.band.mem
  have h1 := h.column_lt
  have h2 := h.band.inside
  have h3 := h.band.ends
  have h4 := h.band.starts
  have h5 := h.ends hs
  rw [Rect.isEmpty, decide_eq_false_iff_not]
  simp only [grownRect, foundRect, Rect.new]
  omega

/-- The band of a point of the rectangle. -/
lemma band_of_mem (h : Grown st tb boundary cursor b r x last) (hs : Sound st tb []) {p : Point}
    (hp : (grownRect boundary cursor b r.2 x last).Contains p) :
    ∃ c ∈ values tb, c.Has p.y ∧ (c = b ∨ b.yEnd ≤ c.yStart) ∧ (c = last ∨ c.yEnd ≤ last.yStart) := by
  have hv : st.value p ≠ none := by
    rw [h.uniform p hp]
    simp
  obtain ⟨c,hc,hcp,_⟩ := hs.band_of_value hv
  obtain ⟨_,h1,h2⟩ := contains_iff.mp hp
  obtain ⟨h3,h4⟩ := hcp
  refine ⟨c,hc,⟨h3,h4⟩,?_,?_⟩
  · rcases hs.band_le hc h.band.mem with h5 | h5 | h5
    · exact Or.inl h5
    · omega
    · exact Or.inr h5
  · rcases hs.band_le hc h.mem with h5 | h5 | h5
    · exact Or.inl h5
    · exact Or.inr h5
    · omega

/-- The boundary starts above its end and above the end of the first band. -/
lemma line_lt (h : Grown st tb boundary cursor b r x last) (hs : Sound st tb []) :
    boundary.tl.y < boundary.br.y ∧ boundary.tl.y < b.yEnd := by
  have h1 := h.band.ends
  have h2 := h.band.inside
  rcases h.track.line with h3 | ⟨h3,c,hc,hhas,h4⟩
  · exact ⟨by omega,by omega⟩
  · obtain rfl := h.band.eq hs hc hhas
    exact ⟨h3,h4⟩

/-- The cursor behind the rectangle. -/
lemma onTrack (h : Grown st tb boundary cursor b r x last) (hs : Sound st tb []) : OnTrack tb boundary ⟨x,last.yStart⟩ := by
  have hlp : last.yStart < last.yEnd := hs.bands.wf.proper last h.mem
  have h1 := h.column_lt
  have h2 := h.track.left
  have hhas : last.Has last.yStart := ⟨le_rfl,hlp⟩
  refine ⟨by simp only; omega,Or.inr ⟨last,h.mem,hhas⟩,Or.inr fun c hc hcl => ?_,?_⟩
  · rw [hs.band_unique hc h.mem hcl hhas]
  · obtain ⟨h3,h4⟩ := h.line_lt hs
    exact Or.inr ⟨h3,last,h.mem,hhas,h4.trans_le (h.ends hs).2⟩

/-- The points ahead of the cursor are those of the rectangle and those ahead of the next cursor. -/
lemma ahead_iff (h : Grown st tb boundary cursor b r x last) (hs : Sound st tb []) {p : Point} (hin : boundary.Contains p)
    (hv : st.value p ≠ none) : Ahead tb boundary cursor p ↔
      (grownRect boundary cursor b r.2 x last).Contains p ∨ Ahead tb boundary ⟨x,last.yStart⟩ p := by
  obtain ⟨c,hc,hcp,hrow⟩ := hs.band_of_value hv
  have hlp : last.yStart < last.yEnd := hs.bands.wf.proper last h.mem
  have hcproper : c.yStart < c.yEnd := hs.bands.wf.proper c hc
  have hends := h.ends hs
  have hbends := h.band.ends
  have hx := h.column_lt
  constructor
  · intro hp
    obtain ⟨_,c',hc',hcp',hend,_⟩ := hp
    obtain rfl := hs.band_unique hc' hc hcp' hcp
    by_cases hnext : last.yStart < c'.yEnd ∧ (c'.yStart ≤ last.yStart → x ≤ p.x)
    · exact Or.inr ⟨hin,c',hc,hcp,hnext.1,hnext.2⟩
    · -- the point is in a band up to the last one, and there left of `x`
      have hle : c'.yStart ≤ last.yStart := by
        rcases hs.band_le hc h.mem with rfl | h1 | h1
        · exact le_rfl
        · omega
        · exact absurd ⟨by omega,fun h2 => by omega⟩ hnext
      have hpx : p.x < x := by
        by_contra hge
        have h1 : ¬last.yStart < c'.yEnd := fun h2 => hnext ⟨h2,fun _ => not_lt.mp hge⟩
        have hbc : b.yStart ≤ c'.yStart := by
          rcases h.band.le hs hc hend with rfl | h2
          · exact le_rfl
          · have hbp : b.yStart < b.yEnd := hs.bands.wf.proper b h.band.mem
            omega
        exact hv (h.right p (hbc.trans hcp.1) (hcp.2.trans_le (not_lt.mp h1)) (not_lt.mp hge) hin.2.1)
      have hcl : c'.yEnd ≤ last.yEnd := by
        rcases hs.band_le hc h.mem with rfl | h1 | h1
        · exact le_rfl
        · omega
        · omega
      have hpy := hcp.2
      have hpx' : max r.2.xStart cursor.x ≤ p.x := by
        by_contra hlt
        rcases h.band.le hs hc hend with rfl | h1
        · have hcol := h.band.column hs h.track ⟨hin,c',hc,hcp,hend,by assumption⟩ hcp
          exact hrow (h.region.gap p.x hcol (by omega))
        · exact hv (h.left p (h1.trans hcp.1) (by omega) hin.1 (not_le.mp hlt))
      have hpy' : max b.yStart cursor.y ≤ p.y := by
        have h1 := hcp.1
        have h2 := hin.2.2.1
        rcases h.band.le hs hc hend with rfl | h3
        · rcases h.track.start with h4 | h4
          · omega
          · by_cases h5 : c'.yStart ≤ cursor.y
            · have := h4 c' hc ⟨h5,hend⟩
              omega
            · omega
        · have hbp : b.yStart < b.yEnd := hs.bands.wf.proper b h.band.mem
          omega
      exact Or.inl (contains_iff.mpr ⟨⟨hpx',hpx⟩,hpy',by have := hin.2.2.2; omega⟩)
  · rintro (hp | hp)
    · obtain ⟨⟨h1,h2⟩,h3,h4⟩ := contains_iff.mp hp
      refine ⟨hin,c,hc,hcp,?_,fun _ => by omega⟩
      have := hcp.2
      omega
    · obtain ⟨_,c',hc',hcp',hend,hcol⟩ := hp
      obtain rfl := hs.band_unique hc' hc hcp' hcp
      simp only at hend hcol
      refine ⟨hin,c',hc,hcp,?_,fun h1 => ?_⟩
      · rcases hs.band_le hc h.mem with rfl | h2 | h2
        · omega
        · omega
        · omega
      · -- the band of the cursor is the first one
        by_cases h2 : c'.yStart ≤ last.yStart
        · have := hcol h2
          omega
        · rcases hs.band_le hc h.mem with rfl | h3 | h3 <;> omega

/-- The rectangle is behind the next cursor. -/
lemma not_ahead (h : Grown st tb boundary cursor b r x last) (hs : Sound st tb []) {p : Point}
    (hp : (grownRect boundary cursor b r.2 x last).Contains p) : ¬Ahead tb boundary ⟨x,last.yStart⟩ p := by
  rintro ⟨_,c,hc,hcp,hend,hcol⟩
  obtain ⟨d,hd,hdp,_,hdl⟩ := h.band_of_mem hs hp
  obtain rfl := hs.band_unique hd hc hdp hcp
  obtain ⟨⟨_,h1⟩,_⟩ := contains_iff.mp hp
  simp only at hend hcol
  rcases hdl with rfl | hdl
  · have := hcol le_rfl
    omega
  · omega

/-- The first column of the rectangle has its value in the first band. -/
lemma row_eq (h : Grown st tb boundary cursor b r x last) (hs : Sound st tb []) {y : ℤ} (h1 : max r.2.xStart cursor.x ≤ y)
    (h2 : y < x) : row st.mem b.regions y = some r.2.value := by
  have hbp : b.yStart < b.yEnd := hs.bands.wf.proper b h.band.mem
  have h3 := h.band.ends
  have h4 := h.band.inside
  have h5 := h.band.starts
  have h6 := h.ends hs
  have hp : (grownRect boundary cursor b r.2 x last).Contains ⟨y,max b.yStart cursor.y⟩ :=
    contains_iff.mpr ⟨⟨h1,h2⟩,le_rfl,by simp only; omega⟩
  obtain ⟨⟨i,c⟩,hc,rfl⟩ := List.mem_map.mp h.band.mem
  rw [← h.uniform _ hp, hs.value_eq, hs.rows_of_mem hc (le_max_left _ _) (max_lt hbp h3)]

/-- Every rectangle has a point of the boundary. -/
lemma meets (h : Grown st tb boundary cursor b r x last) (hs : Sound st tb []) :
    ∃ p, boundary.Contains p ∧ (grownRect boundary cursor b r.2 x last).Contains p := by
  obtain ⟨h1,h2⟩ := h.line_lt hs
  have hbp : b.yStart < b.yEnd := hs.bands.wf.proper b h.band.mem
  have h3 := h.band.ends
  have h4 := h.band.inside
  have h5 := h.band.starts
  have h6 := h.ends hs
  have h7 := h.column_lt
  have h8 := h.bound
  have h9 := h.track.left
  refine ⟨⟨max r.2.xStart cursor.x,max (max b.yStart cursor.y) boundary.tl.y⟩,⟨?_,?_,?_,?_⟩,contains_iff.mpr ⟨⟨le_rfl,h7⟩,?_,?_⟩⟩
  all_goals
    simp only
    omega

/-- The rectangle is inside the boundary, unless the cursor is above it. -/
lemma inside (h : Grown st tb boundary cursor b r x last) (hs : Sound st tb []) (hpast : Past st tb boundary cursor)
    {p : Point} (hp : (grownRect boundary cursor b r.2 x last).Contains p) : boundary.Contains p := by
  obtain ⟨⟨h1,h2⟩,h3,h4⟩ := contains_iff.mp hp
  have h5 := h.bound
  have h6 := h.track.left
  have hline : boundary.tl.y ≤ cursor.y := by
    by_contra hlt
    rcases h.track.line with h7 | ⟨_,c,hc,hhas,_⟩
    · exact hlt h7
    · obtain rfl := h.band.eq hs hc hhas
      have h8 := hpast (not_le.mp hlt) c hc hhas (max r.2.xStart cursor.x) (le_max_right _ _) (h.column_lt.trans_le h5)
      rw [h.row_eq hs le_rfl h.column_lt] at h8
      simp at h8
  exact ⟨by omega,by omega,by omega,by omega⟩

end Grown

/-- The points with a value on the top line of the boundary are next to each other and have one value, or no band goes on above
this line. -/
def TopRun (st : BandedRegion V) (boundary : Rect) : Prop :=
  boundary.tl.y < boundary.br.y → (∃ b ∈ values st.bands.toTree, b.yStart < boundary.tl.y ∧ boundary.tl.y < b.yEnd) →
    ∀ x1 x2, boundary.tl.x ≤ x1 → x2 < boundary.br.x → st.value ⟨x1,boundary.tl.y⟩ ≠ none →
      st.value ⟨x2,boundary.tl.y⟩ ≠ none → ∀ x, x1 ≤ x → x ≤ x2 → st.value ⟨x,boundary.tl.y⟩ = st.value ⟨x1,boundary.tl.y⟩

/-- Behind a rectangle that covers the only run of its band there is nothing more to find. -/
lemma Grown.past {b last : Band} {r : ℕ × Region V} {x : ℤ} (h : Grown st tb boundary cursor b r x last) (hs : Sound st tb [])
    (hrun : TopRun st boundary) : Past st tb boundary ⟨x,last.yStart⟩ := by
  intro hlt c hc hhas y hy1 hy2
  have hlp : last.yStart < last.yEnd := hs.bands.wf.proper last h.mem
  obtain rfl := hs.band_unique hc h.mem hhas ⟨le_rfl,hlp⟩
  obtain ⟨hbr,hline⟩ := h.line_lt hs
  have hcol := h.column_lt
  have hleft := h.track.left
  simp only at hlt hy1
  have hcb : c = b := by
    rcases h.below with h1 | h1
    · exact h1
    · omega
  subst hcb
  obtain ⟨⟨i,d⟩,hd,rfl⟩ := List.mem_map.mp hc
  have hrow : ∀ z, st.value ⟨z,boundary.tl.y⟩ = row st.mem d.regions z := fun z => by
    rw [hs.value_eq, hs.rows_of_mem hd hlt.le hline]
  by_contra hne
  have hone := hrun hbr ⟨d,hs.toTree_eq ▸ hc,hlt,hline⟩ (max r.2.xStart cursor.x) y (by omega) hy2
  rw [hrow, hrow, h.row_eq hs le_rfl hcol] at hone
  rcases h.full with h1 | h1
  · omega
  · have h2 := hone (by simp) hne x hcol.le hy1
    rw [hrow] at h2
    exact h1 h2

end Lilith.Draw
