import Lilith.Draw.Pixels

/-! `blit` with any clipping, between two images or within one. -/
namespace Lilith.Draw

variable {s src : Surface} {m m' : Images} {rect : Rect} {p q : Point}

attribute [ext] Point

@[simp] lemma Point.add_x (p q : Point) : (p + q).x = p.x + q.x := rfl
@[simp] lemma Point.add_y (p q : Point) : (p + q).y = p.y + q.y := rfl
@[simp] lemma Point.sub_x (p q : Point) : (p - q).x = p.x - q.x := rfl
@[simp] lemma Point.sub_y (p q : Point) : (p - q).y = p.y - q.y := rfl

/-- Copying within one image. The order of the rows keeps every row of the source until it is copied. -/
lemma blitUnsafe_self_ok (hf : s.Fits) (hw : rect.Within s.rect) (hne : rect.isEmpty = false) {start : Point}
    (hsrc : ∀ p, rect.Contains p → s.rect.Contains (start + (p - rect.tl))) (m : Images) :
    Painted s rect (fun p => s.pixel m (start + (p - rect.tl))) m
      (s.blitUnsafe rect.tl s start rect.width rect.height m) := by
  obtain ⟨hx,hy⟩ := rect.proper hne
  have htl : s.rect.Contains (start + (rect.tl - rect.tl)) := hsrc _ ⟨le_rfl,hx,le_rfl,hy⟩
  obtain ⟨h1,_⟩ := htl
  obtain ⟨h2,_,_⟩ := hw.corners hne
  -- a list of rows such that no row is read after it was written
  have hrows : ∀ ys : List ℕ, (∀ y, y ∈ ys ↔ y < rect.height.toNat) →
      (∀ (l : List ℕ) (y : ℕ) (l' : List ℕ), ys = l ++ y :: l' → ∀ y' ∈ l, start.y + y ≠ rect.tl.y + y') →
      Painted s rect (fun p => s.pixel m (start + (p - rect.tl))) m
        (ys.foldl (s.blitRow rect.tl s start rect.width) m) := by
    intro ys hmem hsafe
    have hcontains : ∀ p, rect.InRows ys p ↔ rect.Contains p := by
      intro p
      rw [← Rect.firstRows_height hne, ← Rect.inRows_range, Rect.firstRows_height hne]
      simp only [Rect.InRows, hmem, List.mem_range]
    have h := @foldl_rows s m rect (fun p => s.pixel m (start + (p - rect.tl)))
      (s.blitRow rect.tl s start rect.width) ys fun l y l' m' he _ hold => ?_
    · refine ⟨h.1,fun p hp => ?_⟩
      split_ifs with hc
      · exact (h.2 p hp).1 ((hcontains p).mpr hc)
      · exact (h.2 p hp).2 fun hin => hc ((hcontains p).mp hin)
    · refine ⟨fun i hi => ?_,fun p hp => ?_⟩
      · funext o
        simp [Surface.blitRow, Images.copy, hi]
      · simp only [Surface.pixel, Surface.blitRow, Images.copy, true_and]
        simp only [hf.slot_iff hw hne hp]
        split_ifs with hc
        · have hrow : rect.Contains p := (hcontains p).mp ⟨y,by simp [he],hc⟩
          rw [offset_add h1 h2 hc.1 hc.2.1]
          apply hold _ (hsrc p hrow)
          rintro ⟨y',hy',hin,_⟩
          have hsum : start.y + (p.y - rect.tl.y) = rect.tl.y + y' := hin
          exact hsafe l y l' he y' hy' (by omega)
        · rfl
  unfold Surface.blitUnsafe
  split_ifs with hc
  · apply hrows
    · simp
    · intro l y l' he y' hy'
      have hsorted : (List.range rect.height.toNat).reverse.Pairwise (· > ·) :=
        List.pairwise_reverse.mpr List.pairwise_lt_range
      rw [he] at hsorted
      have hgt := (List.pairwise_append.mp hsorted).2.2 y' hy' y List.mem_cons_self
      omega
  · apply hrows
    · simp
    · intro l y l' he y' hy'
      have hsorted : (List.range rect.height.toNat).Pairwise (· < ·) := List.pairwise_lt_range
      rw [he] at hsorted
      have hlt := (List.pairwise_append.mp hsorted).2.2 y' hy' y List.mem_cons_self
      simp only [true_and, not_lt] at hc
      omega

lemma blitUnsafe_any_ok (hf : s.Fits) (hw : rect.Within s.rect) (hne : rect.isEmpty = false) {start : Point}
    (hsrc : ∀ p, rect.Contains p → src.rect.Contains (start + (p - rect.tl))) (hd : s.image ≠ src.image ∨ src = s)
    (m : Images) : Painted s rect (fun p => src.pixel m (start + (p - rect.tl))) m
      (s.blitUnsafe rect.tl src start rect.width rect.height m) := by
  rcases hd with hd | rfl
  · exact blitUnsafe_ok hf hw hne hsrc hd m
  · exact blitUnsafe_self_ok hf hw hne hsrc m

/-- A fill that is left out where its rectangle is empty. -/
lemma fillIf_ok {c : Prop} [Decidable c] (hf : s.Fits) (hw : rect.Within s.rect) (hc : c ↔ rect.isEmpty = false)
    (color : Color) (m : Images) :
    Painted s rect (fun _ => color) m (if c then s.fillUnsafe rect color m else m) := by
  split_ifs with h
  · exact fillUnsafe_ok hf hw (hc.mp h) color m
  · refine ⟨fun _ _ => rfl,fun p _ => ?_⟩
    have hempty : rect.isEmpty = true := by
      cases hr : rect.isEmpty with
      | true => rfl
      | false => exact absurd (hc.mpr hr) h
    rw [if_neg]
    simp only [Rect.isEmpty, decide_eq_true_eq] at hempty
    simp only [Rect.Contains]
    omega

/-- A rectangle that is not empty, and lies in another one. -/
structure Rect.Nested (inner outer : Rect) : Prop where
  nonempty : inner.isEmpty = false
  left : outer.tl.x ≤ inner.tl.x
  top : outer.tl.y ≤ inner.tl.y
  right : inner.br.x ≤ outer.br.x
  bottom : inner.br.y ≤ outer.br.y

/-- The four fills colour what is around the inner rectangle. -/
lemma fillAround_ok {inner : Rect} (hf : s.Fits) (hw : rect.Within s.rect) (hin : inner.Nested rect) (color : Color)
    (m : Images) :
    (∀ i, i ≠ s.image → (s.fillAround rect inner.tl inner.br color m).pixels i = m.pixels i) ∧
    ∀ p, s.rect.Contains p → s.pixel (s.fillAround rect inner.tl inner.br color m) p =
      if rect.Contains p ∧ ¬inner.Contains p then color else s.pixel m p := by
  obtain ⟨hne,h1,h2,h3,h4⟩ := hin
  obtain ⟨hx,hy⟩ := inner.proper hne
  have hwithin : ∀ x0 y0 x1 y1, rect.tl.x ≤ x0 → rect.tl.y ≤ y0 → x1 ≤ rect.br.x → y1 ≤ rect.br.y →
      (Rect.new x0 y0 x1 y1).Within s.rect := by
    intro x0 y0 x1 y1 _ _ _ _ p ⟨hp1,hp2,hp3,hp4⟩
    apply hw p
    simp only [Rect.new] at hp1 hp2 hp3 hp4
    simp only [Rect.Contains]
    omega
  have hfill : ∀ (c : Prop) [Decidable c] (x0 y0 x1 y1 : ℤ) (m : Images), rect.tl.x ≤ x0 → rect.tl.y ≤ y0 →
      x1 ≤ rect.br.x → y1 ≤ rect.br.y → (c ↔ x0 < x1 ∧ y0 < y1) →
      Painted s (.new x0 y0 x1 y1) (fun _ => color) m
        (if c then s.fillUnsafe (.new x0 y0 x1 y1) color m else m) := by
    intro c _ x0 y0 x1 y1 m g1 g2 g3 g4 hc
    apply fillIf_ok hf (hwithin x0 y0 x1 y1 g1 g2 g3 g4)
    rw [hc, Rect.isEmpty, decide_eq_false_iff_not]
    simp only [Rect.new]
    omega
  have ha := hfill (rect.tl.y < inner.tl.y) rect.tl.x rect.tl.y rect.br.x inner.tl.y m
    (by omega) (by omega) (by omega) (by omega) (by omega)
  unfold Surface.fillAround
  generalize (if rect.tl.y < inner.tl.y then
    s.fillUnsafe (.new rect.tl.x rect.tl.y rect.br.x inner.tl.y) color m else m) = m1 at ha ⊢
  have hb := hfill (rect.tl.x < inner.tl.x) rect.tl.x inner.tl.y inner.tl.x inner.br.y m1
    (by omega) (by omega) (by omega) (by omega) (by omega)
  dsimp only
  generalize (if rect.tl.x < inner.tl.x then
    s.fillUnsafe (.new rect.tl.x inner.tl.y inner.tl.x inner.br.y) color m1 else m1) = m2 at hb ⊢
  have hc := hfill (inner.br.x < rect.br.x) inner.br.x inner.tl.y rect.br.x inner.br.y m2
    (by omega) (by omega) (by omega) (by omega) (by omega)
  generalize (if inner.br.x < rect.br.x then
    s.fillUnsafe (.new inner.br.x inner.tl.y rect.br.x inner.br.y) color m2 else m2) = m3 at hc ⊢
  have hd := hfill (inner.br.y < rect.br.y) rect.tl.x inner.br.y rect.br.x rect.br.y m3
    (by omega) (by omega) (by omega) (by omega) (by omega)
  generalize (if inner.br.y < rect.br.y then
    s.fillUnsafe (.new rect.tl.x inner.br.y rect.br.x rect.br.y) color m3 else m3) = m4 at hd ⊢
  refine ⟨fun i hi => ?_,fun p hp => ?_⟩
  · rw [hd.others i hi, hc.others i hi, hb.others i hi, ha.others i hi]
  · rw [hd.pixel p hp, hc.pixel p hp, hb.pixel p hp, ha.pixel p hp]
    split_ifs
    all_goals first
      | rfl
      | simp only [Rect.Contains, Rect.new] at *
        omega

/-- The part `inner` of the destination `r` whose source, from `start` on, is the part `b` of `source`. -/
structure Placed (r : Rect) (start : Point) (source b inner : Rect) : Prop where
  nested : inner.Nested r
  width : b.width = inner.width
  height : b.height = inner.height
  back : ∀ p : Point, b.tl + (p - inner.tl) = start + (p - r.tl)
  contains : ∀ p, inner.Contains p ↔ r.Contains p ∧ source.Contains (start + (p - r.tl))

lemma contains_moved {r : Rect} {start p : Point} :
    (Rect.mk start (start + r.size)).Contains (start + (p - r.tl)) ↔ r.Contains p := by
  simp only [Rect.Contains, Rect.size, Rect.width, Rect.height, Point.add_x, Point.add_y, Point.sub_x, Point.sub_y]
  omega

lemma placed_of_intersect {r b source : Rect} {start : Point}
    (hb : (Rect.mk start (start + r.size)).intersect source = some b) :
    Placed r start source b ⟨r.tl + (b.tl - start),r.tl + (b.tl - start) + b.size⟩ := by
  obtain ⟨hne,hb⟩ := Rect.intersect_some hb
  obtain ⟨hx,hy⟩ := b.proper hne
  have hcorners := Rect.Within.corners (fun p hp => ((hb p).mp hp).1) hne
  simp only [Rect.size, Rect.width, Rect.height, Point.add_x, Point.add_y] at hcorners
  have hback : ∀ p : Point, b.tl + (p - (r.tl + (b.tl - start))) = start + (p - r.tl) := by
    intro p
    ext
    · simp only [Point.add_x, Point.sub_x]
      omega
    · simp only [Point.add_y, Point.sub_y]
      omega
  have hcontains : ∀ p, (Rect.mk (r.tl + (b.tl - start)) (r.tl + (b.tl - start) + b.size)).Contains p ↔
      r.Contains p ∧ source.Contains (start + (p - r.tl)) := by
    intro p
    rw [← @contains_moved r start, ← hb, ← hback]
    simp only [Rect.Contains, Rect.size, Rect.width, Rect.height, Point.add_x, Point.add_y, Point.sub_x, Point.sub_y]
    omega
  refine ⟨⟨?_,?_,?_,?_,?_⟩,?_,?_,hback,hcontains⟩
  · rw [Rect.isEmpty, decide_eq_false_iff_not]
    simp only [Rect.size, Rect.width, Rect.height, Point.add_x, Point.add_y, Point.sub_x, Point.sub_y]
    omega
  all_goals
    simp only [Rect.size, Rect.width, Rect.height, Point.add_x, Point.add_y, Point.sub_x, Point.sub_y]
    omega

/-- The pixels that `blit` copies: those of the source, and its fill colour elsewhere. -/
def Surface.sample (src : Surface) (m : Images) (q : Point) : Color :=
  if src.rect.Contains q then src.pixel m q else src.fill

/-- `blit` writes the points of `dst_rect`, whatever part of it either surface has. -/
lemma blit_painted (hf : s.Fits) (hd : s.image ≠ src.image ∨ src = s) (dstRect : Rect) (srcStart : Point) (m : Images) :
    Painted s dstRect (fun p => src.sample m (p - dstRect.tl + srcStart)) m (s.blit dstRect src srcStart m) := by
  unfold Surface.blit
  cases hr : dstRect.intersect s.rect with
  | none =>
    refine ⟨fun _ _ => rfl,fun p hp => ?_⟩
    rw [if_neg fun hc => Rect.intersect_none hr p ⟨hc,hp⟩]
  | some r =>
    obtain ⟨hne,hr⟩ := Rect.intersect_some hr
    have hw : r.Within s.rect := fun p hp => ((hr p).mp hp).2
    have hmem : ∀ p, s.rect.Contains p → (r.Contains p ↔ dstRect.Contains p) :=
      fun p hp => (hr p).trans (and_iff_left hp)
    dsimp only
    -- the place in the source of the first point that is written
    generalize hstart : srcStart + (r.tl - dstRect.tl) = start
    have hmove : ∀ p : Point, p - dstRect.tl + srcStart = start + (p - r.tl) := by
      intro p
      rw [← hstart]
      ext
      · simp only [Point.add_x, Point.sub_x]
        omega
      · simp only [Point.add_y, Point.sub_y]
        omega
    simp only [hmove]
    cases hb : (Rect.mk start (start + r.size)).intersect src.rect with
    | none =>
      have hfill := fillUnsafe_ok hf hw hne src.fill m
      refine ⟨hfill.others,fun p hp => ?_⟩
      rw [hfill.pixel p hp]
      simp only [hmem p hp]
      split_ifs with hc
      · have hout := Rect.intersect_none hb (start + (p - r.tl))
        rw [contains_moved, hmem p hp] at hout
        exact (if_neg fun h => hout ⟨hc,h⟩).symm
      · rfl
    | some b =>
      have hpl := placed_of_intersect hb
      generalize hinner : Rect.mk (r.tl + (b.tl - start)) (r.tl + (b.tl - start) + b.size) = inner at hpl
      have hblit := blitUnsafe_any_ok hf (fun p hp => hw p ((hpl.contains p).mp hp).1) hpl.nested.nonempty
        (fun p hp => hpl.back p ▸ ((hpl.contains p).mp hp).2) hd m
      rw [← hpl.width, ← hpl.height] at hblit
      simp only [hpl.back] at hblit
      have htl : r.tl + (b.tl - start) = inner.tl := congrArg Rect.tl hinner
      have hbr : r.tl + (b.tl - start) + b.size = inner.br := congrArg Rect.br hinner
      dsimp only
      rw [hbr, htl]
      obtain ⟨hothers,hpixel⟩ := fillAround_ok hf hw hpl.nested src.fill
        (s.blitUnsafe inner.tl src b.tl b.width b.height m)
      refine ⟨fun i hi => (hothers i hi).trans (hblit.others i hi),fun p hp => ?_⟩
      rw [hpixel p hp, hblit.pixel p hp]
      simp only [Surface.sample, ← hmem p hp, hpl.contains]
      split_ifs <;> tauto

/-! The accesses to memory. -/

/-- The filling of a slice of pixels, or the copying of one slice to another. -/
inductive PixelOp where
  | fill (image start width : ℕ) (color : Color)
  | copy (src srcStart dst dstStart width : ℕ)

namespace PixelOp

def run (m : Images) : PixelOp → Images
  | fill image start width color => m.fillSlice image start width color
  | copy src srcStart dst dstStart width => m.copy src srcStart dst dstStart width

/-- All places that are read or written are inside of their images, of the lengths `len`. -/
def InBounds (len : ℕ → ℕ) : PixelOp → Prop
  | fill image start width _ => start + width ≤ len image
  | copy src srcStart dst dstStart width => srcStart + width ≤ len src ∧ dstStart + width ≤ len dst

end PixelOp

namespace Surface

def fillOps (self : Surface) (dstRect : Rect) (color : Color) : List PixelOp :=
  (List.range dstRect.height.toNat).map fun (y : ℕ) =>
    .fill self.image (self.offset ⟨dstRect.tl.x,dstRect.tl.y + y⟩) dstRect.width.toNat color

def blitRowOp (self : Surface) (dstStart : Point) (src : Surface) (srcStart : Point) (width : ℤ) (y : ℕ) : PixelOp :=
  .copy src.image (src.offset ⟨srcStart.x,srcStart.y + y⟩) self.image
    (self.offset ⟨dstStart.x,dstStart.y + y⟩) width.toNat

def blitUnsafeOps (self : Surface) (dstStart : Point) (src : Surface) (srcStart : Point) (width height : ℤ) :
    List PixelOp :=
  if self.image = src.image ∧ dstStart.y > srcStart.y then
    (List.range height.toNat).reverse.map (self.blitRowOp dstStart src srcStart width)
  else (List.range height.toNat).map (self.blitRowOp dstStart src srcStart width)

def fillAroundOps (self : Surface) (dstRect : Rect) (tl br : Point) (color : Color) : List PixelOp :=
  (if dstRect.tl.y < tl.y then self.fillOps (.new dstRect.tl.x dstRect.tl.y dstRect.br.x tl.y) color else []) ++
  (if dstRect.tl.x < tl.x then self.fillOps (.new dstRect.tl.x tl.y tl.x br.y) color else []) ++
  (if br.x < dstRect.br.x then self.fillOps (.new br.x tl.y dstRect.br.x br.y) color else []) ++
  (if br.y < dstRect.br.y then self.fillOps (.new dstRect.tl.x br.y dstRect.br.x dstRect.br.y) color else [])

/-- What `blit` does to the memory, in its order. -/
def blitOps (self : Surface) (dstRect : Rect) (src : Surface) (srcStart : Point) : List PixelOp :=
  match dstRect.intersect self.rect with
  | none => []
  | some r =>
    let srcStart := srcStart + (r.tl - dstRect.tl)
    match (Rect.mk srcStart (srcStart + r.size)).intersect src.rect with
    | none => self.fillOps r src.fill
    | some b =>
      let tl := r.tl + (b.tl - srcStart)
      self.blitUnsafeOps tl src b.tl b.width b.height ++ self.fillAroundOps r tl (tl + b.size) src.fill

/-- Every pixel of the surface has a place in its image. -/
def InImage (self : Surface) (len : ℕ → ℕ) : Prop := ∀ p, self.rect.Contains p → self.offset p < len self.image

end Surface

lemma run_fillOps (s : Surface) (rect : Rect) (color : Color) (m : Images) :
    (s.fillOps rect color).foldl PixelOp.run m = s.fillUnsafe rect color m := by
  rw [Surface.fillOps, List.foldl_map]
  rfl

lemma run_blitUnsafeOps (s : Surface) (tl : Point) (src : Surface) (start : Point) (w h : ℤ) (m : Images) :
    (s.blitUnsafeOps tl src start w h).foldl PixelOp.run m = s.blitUnsafe tl src start w h m := by
  unfold Surface.blitUnsafeOps Surface.blitUnsafe
  split_ifs
  all_goals
    rw [List.foldl_map]
    rfl

lemma run_fillIfOps (c : Prop) [Decidable c] (s : Surface) (rect : Rect) (color : Color) (m : Images) :
    (if c then s.fillOps rect color else []).foldl PixelOp.run m = if c then s.fillUnsafe rect color m else m := by
  split_ifs
  · exact run_fillOps s rect color m
  · rfl

lemma run_fillAroundOps (s : Surface) (rect : Rect) (tl br : Point) (color : Color) (m : Images) :
    (s.fillAroundOps rect tl br color).foldl PixelOp.run m = s.fillAround rect tl br color m := by
  simp only [Surface.fillAroundOps, Surface.fillAround, List.foldl_append, run_fillIfOps]

/-- `blit` is the run of these operations. -/
lemma run_blitOps (s : Surface) (dstRect : Rect) (src : Surface) (srcStart : Point) (m : Images) :
    (s.blitOps dstRect src srcStart).foldl PixelOp.run m = s.blit dstRect src srcStart m := by
  unfold Surface.blitOps Surface.blit
  cases dstRect.intersect s.rect with
  | none => rfl
  | some r =>
    dsimp only
    cases (Rect.mk (srcStart + (r.tl - dstRect.tl)) (srcStart + (r.tl - dstRect.tl) + r.size)).intersect src.rect with
    | none => exact run_fillOps s r src.fill m
    | some b =>
      dsimp only
      rw [List.foldl_append, run_blitUnsafeOps, run_fillAroundOps]

/-- A row of a rectangle in a surface is a slice of its image. -/
lemma Surface.InImage.row_le {len : ℕ → ℕ} (h : s.InImage len) {x y w : ℤ} (hw : 0 < w)
    (hrow : ∀ x', x ≤ x' → x' < x + w → s.rect.Contains ⟨x',y⟩) : s.offset ⟨x,y⟩ + w.toNat ≤ len s.image := by
  obtain ⟨h1,_,_,_⟩ := hrow x le_rfl (by omega)
  have hlast := h ⟨x + w - 1,y⟩ (hrow _ (by omega) (by omega))
  have hnext : s.offset ⟨x + w - 1,y⟩ + 1 = s.offset ⟨x,y⟩ + w.toNat := by
    simp only [Surface.offset] at h1 ⊢
    omega
  omega

lemma fillOps_inBounds {len : ℕ → ℕ} (h : s.InImage len) (hw : rect.Within s.rect) (hne : rect.isEmpty = false)
    (color : Color) : ∀ op ∈ s.fillOps rect color, op.InBounds len := by
  intro op hop
  obtain ⟨y,hy,rfl⟩ := List.mem_map.mp hop
  obtain ⟨hx,_⟩ := rect.proper hne
  rw [List.mem_range] at hy
  simp only [Rect.height] at hy
  apply h.row_le (by simp only [Rect.width]; omega)
  intro x h1 h2
  apply hw
  simp only [Rect.width] at h2
  simp only [Rect.Contains]
  omega

lemma blitUnsafeOps_inBounds {len : ℕ → ℕ} (h : s.InImage len) (h' : src.InImage len) (hw : rect.Within s.rect)
    (hne : rect.isEmpty = false) {start : Point}
    (hsrc : ∀ p, rect.Contains p → src.rect.Contains (start + (p - rect.tl))) :
    ∀ op ∈ s.blitUnsafeOps rect.tl src start rect.width rect.height, op.InBounds len := by
  intro op hop
  obtain ⟨hx,_⟩ := rect.proper hne
  obtain ⟨y,hy,rfl⟩ : ∃ y : ℕ, y < rect.height.toNat ∧ s.blitRowOp rect.tl src start rect.width y = op := by
    unfold Surface.blitUnsafeOps at hop
    split_ifs at hop
    all_goals simpa using hop
  simp only [Rect.height] at hy
  have hwidth : 0 < rect.width := by simp only [Rect.width]; omega
  have hrow : ∀ x, rect.tl.x ≤ x → x < rect.tl.x + rect.width → rect.Contains ⟨x,rect.tl.y + y⟩ := by
    intro x h1 h2
    simp only [Rect.width] at h2
    simp only [Rect.Contains]
    omega
  refine ⟨h'.row_le hwidth ?_,h.row_le hwidth fun x h1 h2 => hw _ (hrow x h1 h2)⟩
  intro x h1 h2
  have hmoved := hsrc ⟨rect.tl.x + (x - start.x),rect.tl.y + y⟩ (hrow _ (by omega) (by omega))
  have hpoint : start + (Point.mk (rect.tl.x + (x - start.x)) (rect.tl.y + y) - rect.tl) = ⟨x,start.y + y⟩ := by
    ext
    · simp only [Point.add_x, Point.sub_x]
      omega
    · simp only [Point.add_y, Point.sub_y]
      omega
  rw [hpoint] at hmoved
  exact hmoved

lemma fillAroundOps_inBounds {len : ℕ → ℕ} {inner : Rect} (h : s.InImage len) (hw : rect.Within s.rect)
    (hin : inner.Nested rect) (color : Color) :
    ∀ op ∈ s.fillAroundOps rect inner.tl inner.br color, op.InBounds len := by
  obtain ⟨hne,h1,h2,h3,h4⟩ := hin
  obtain ⟨hx,hy⟩ := inner.proper hne
  have hfill : ∀ (c : Prop) [Decidable c] (x0 y0 x1 y1 : ℤ), rect.tl.x ≤ x0 → rect.tl.y ≤ y0 →
      x1 ≤ rect.br.x → y1 ≤ rect.br.y → (c → x0 < x1 ∧ y0 < y1) →
      ∀ op ∈ (if c then s.fillOps (.new x0 y0 x1 y1) color else []), op.InBounds len := by
    intro c _ x0 y0 x1 y1 g1 g2 g3 g4 hc op hop
    split_ifs at hop with hcc
    · apply fillOps_inBounds h ?_ ?_ color op hop
      · intro p ⟨hp1,hp2,hp3,hp4⟩
        apply hw p
        simp only [Rect.new] at hp1 hp2 hp3 hp4
        simp only [Rect.Contains]
        omega
      · have hlt := hc hcc
        rw [Rect.isEmpty, decide_eq_false_iff_not]
        simp only [Rect.new]
        omega
    · exact absurd hop List.not_mem_nil
  intro op hop
  unfold Surface.fillAroundOps at hop
  simp only [List.mem_append, or_assoc] at hop
  rcases hop with hop | hop | hop | hop
  · exact hfill _ _ _ _ _ (by omega) (by omega) (by omega) (by omega) (by omega) op hop
  · exact hfill _ _ _ _ _ (by omega) (by omega) (by omega) (by omega) (by omega) op hop
  · exact hfill _ _ _ _ _ (by omega) (by omega) (by omega) (by omega) (by omega) op hop
  · exact hfill _ _ _ _ _ (by omega) (by omega) (by omega) (by omega) (by omega) op hop

lemma blitOps_inBounds {len : ℕ → ℕ} (h : s.InImage len) (h' : src.InImage len) (dstRect : Rect) (srcStart : Point) :
    ∀ op ∈ s.blitOps dstRect src srcStart, op.InBounds len := by
  intro op hop
  unfold Surface.blitOps at hop
  cases hr : dstRect.intersect s.rect with
  | none =>
    rw [hr] at hop
    exact absurd hop List.not_mem_nil
  | some r =>
    obtain ⟨hne,hcontains⟩ := Rect.intersect_some hr
    have hw : r.Within s.rect := fun p hp => ((hcontains p).mp hp).2
    simp only [hr] at hop
    generalize srcStart + (r.tl - dstRect.tl) = start at hop
    cases hb : (Rect.mk start (start + r.size)).intersect src.rect with
    | none =>
      rw [hb] at hop
      exact fillOps_inBounds h hw hne src.fill op hop
    | some b =>
      have hpl := placed_of_intersect hb
      rw [hb] at hop
      rcases List.mem_append.mp hop with hop | hop
      · rw [hpl.width, hpl.height] at hop
        exact blitUnsafeOps_inBounds h h' (fun p hp => hw p ((hpl.contains p).mp hp).1) hpl.nested.nonempty
          (fun p hp => hpl.back p ▸ ((hpl.contains p).mp hp).2) op hop
      · exact fillAroundOps_inBounds h hw hpl.nested src.fill op hop

/-! The two calls. -/

/-- A call of `blit` with another surface, or of `self_blit`. -/
inductive BlitCall where
  | blit (src : Surface)
  | selfBlit
  deriving DecidableEq

namespace BlitCall

def source (s : Surface) : BlitCall → Surface
  | blit src => src
  | selfBlit => s

def run (s : Surface) (dstRect : Rect) (srcStart : Point) (m : Images) : BlitCall → Images
  | blit src => s.blit dstRect src srcStart m
  | selfBlit => s.selfBlit dstRect srcStart m

/-- The other surface has an image of its own, with all of its pixels. -/
def Ok (len : ℕ → ℕ) (s : Surface) : BlitCall → Prop
  | blit src => s.image ≠ src.image ∧ src.InImage len
  | selfBlit => True

end BlitCall

/-- What is asked of a blit: the points of `dst_rect` in the destination get the pixels that the source had before, or its
fill colour where it has none; no other pixel of any image changes; no place outside of the images is accessed; and the
memory of the image is still that of the destination. -/
structure Blitted (len : ℕ → ℕ) (s src : Surface) (dstRect : Rect) (srcStart : Point) (m m' : Images) : Prop where
  held : s.image ∉ m'.frees
  pixel : ∀ p, s.rect.Contains p → s.pixel m' p =
    if dstRect.Contains p then
      if src.rect.Contains (p - dstRect.tl + srcStart) then src.pixel m (p - dstRect.tl + srcStart) else src.fill
    else s.pixel m p
  others : ∀ i, i ≠ s.image → m'.pixels i = m.pixels i
  accesses : m' = (s.blitOps dstRect src srcStart).foldl PixelOp.run m ∧
    ∀ op ∈ s.blitOps dstRect src srcStart, op.InBounds len

variable {len : ℕ → ℕ}

lemma blit_blitted (hf : s.Fits) (h : s.InImage len) (hheld : s.image ∉ m.frees) (h' : src.InImage len)
    (hd : s.image ≠ src.image ∨ src = s) (dstRect : Rect) (srcStart : Point) :
    Blitted len s src dstRect srcStart m (s.blit dstRect src srcStart m) := by
  have hpaint := blit_painted hf hd dstRect srcStart m
  refine ⟨?_,hpaint.pixel,hpaint.others,(run_blitOps ..).symm,blitOps_inBounds h h' dstRect srcStart⟩
  rw [(SameFrees.blit s dstRect src srcStart m).2]
  exact hheld

/-- `self_blit` copies within the image as it should, in any direction, and then gives the image away. -/
lemma selfBlit_copies (hf : s.Fits) (h : s.InImage len) (hheld : s.image ∉ m.frees) (dstRect : Rect) (srcStart : Point) :
    ∃ m1, Blitted len s s dstRect srcStart m m1 ∧ s.selfBlit dstRect srcStart m = m1.kernelFree s.image :=
  ⟨_,blit_blitted hf h hheld h (Or.inr rfl) dstRect srcStart,rfl⟩

/-- A blit does what is asked of it if and only if it is not a `self_blit`, whose second surface gives the memory of the
image back to the allocators. -/
theorem blit_pixels_iff (hf : s.Fits) (h : s.InImage len) (hheld : s.image ∉ m.frees) (call : BlitCall)
    (hcall : call.Ok len s) (dstRect : Rect) (srcStart : Point) :
    Blitted len s (call.source s) dstRect srcStart m (call.run s dstRect srcStart m) ↔ call ≠ .selfBlit := by
  cases call with
  | blit src =>
    obtain ⟨hd,h'⟩ := hcall
    exact iff_of_true (blit_blitted hf h hheld h' (Or.inl hd) dstRect srcStart) (by simp)
  | selfBlit =>
    refine iff_of_false (fun hblit => hblit.held ?_) (by simp)
    obtain ⟨m1,_,hrun⟩ := selfBlit_copies hf h hheld dstRect srcStart
    show s.image ∈ (s.selfBlit dstRect srcStart m).frees
    rw [hrun]
    exact List.mem_append_right _ List.mem_cons_self

/-- A surface of three by two pixels. -/
def smallSurface : Surface := ⟨0,⟨⟨0,0⟩,⟨3,2⟩⟩,3,.BLACK⟩

lemma smallSurface_inImage : smallSurface.InImage fun _ => 6 := by
  intro p ⟨h1,h2,h3,h4⟩
  simp only [smallSurface, Surface.offset] at h1 h2 h3 h4 ⊢
  omega

/-- A white pixel and its row are copied to it, with a part that the source does not have. -/
theorem blit_pixels_iff_other : ∃ (src : Surface) (m : Images), src.rect = ⟨⟨0,0⟩,⟨1,2⟩⟩ ∧ src.fill = .BLACK ∧
    smallSurface.pixel (smallSurface.blit ⟨⟨1,0⟩,⟨3,2⟩⟩ src ⟨0,0⟩ m) ⟨1,1⟩ = .WHITE ∧
    smallSurface.pixel (smallSurface.blit ⟨⟨1,0⟩,⟨3,2⟩⟩ src ⟨0,0⟩ m) ⟨2,1⟩ = .BLACK := by
  let src : Surface := ⟨1,⟨⟨0,0⟩,⟨1,2⟩⟩,1,.BLACK⟩
  let m : Images := ⟨fun _ _ => .WHITE,2,[],fun _ _ => none,fun _ _ => .BLACK⟩
  have h' : src.InImage fun _ => 6 := by
    intro p ⟨h1,h2,h3,h4⟩
    simp only [src, Surface.offset] at h1 h2 h3 h4 ⊢
    omega
  have hblit : Blitted (fun _ => 6) smallSurface src ⟨⟨1,0⟩,⟨3,2⟩⟩ ⟨0,0⟩ m _ :=
    (blit_pixels_iff (m := m) le_rfl smallSurface_inImage List.not_mem_nil (.blit src) ⟨by decide,h'⟩ ⟨⟨1,0⟩,⟨3,2⟩⟩ ⟨0,0⟩).mpr
      (by simp)
  refine ⟨src,m,rfl,rfl,?_,?_⟩
  · exact (hblit.pixel ⟨1,1⟩ (by decide)).trans (by decide)
  · exact (hblit.pixel ⟨2,1⟩ (by decide)).trans (by decide)

/-- Memory whose only image is an object of a slab. The link to the next free object, at `0xFFFF800001000018`, is written
over its first two pixels when it is freed. -/
def slabMemory : Images := ⟨fun _ _ => .BLACK,0,[],fun _ _ => none,fun _ o =>
  if o = 0 then ⟨0x18,0,0,1⟩ else if o = 1 then ⟨0,0x80,0xff,0xff⟩ else .BLACK⟩

/-- A black surface is shifted to the right, and its first pixel is not black any more. -/
theorem selfBlit_overwrites : ∃ m, Surface.new smallSurface.rect .BLACK slabMemory = .ok (smallSurface,m) ∧
    smallSurface.pixel m ⟨0,0⟩ = .BLACK ∧
    smallSurface.pixel (smallSurface.selfBlit ⟨⟨1,0⟩,⟨3,2⟩⟩ ⟨0,0⟩ m) ⟨0,0⟩ = ⟨0x18,0,0,1⟩ ∧
    ¬Blitted (fun _ => 6) smallSurface smallSurface ⟨⟨1,0⟩,⟨3,2⟩⟩ ⟨0,0⟩ m
      (smallSurface.selfBlit ⟨⟨1,0⟩,⟨3,2⟩⟩ ⟨0,0⟩ m) := by
  refine ⟨_,rfl,by decide,by decide,fun hblit => ?_⟩
  have hpixel := hblit.pixel ⟨0,0⟩ (by decide)
  revert hpixel
  decide

end Lilith.Draw
