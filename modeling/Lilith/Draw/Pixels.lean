import Lilith.Draw.Correct
import Lilith.Draw.Text

/-! What the operations on surfaces do to their pixels. -/
namespace Lilith.Draw

variable {s src : Surface} {m : Images} {rect : Rect} {p q : Point}

namespace Surface

def pixel (self : Surface) (m : Images) (p : Point) : Color := m.pixels self.image (self.offset p)

/-- The rows of the image do not overlap. -/
def Fits (self : Surface) : Prop := self.rect.width ≤ self.stride

end Surface

def Rect.Within (self outer : Rect) : Prop := ∀ p, self.Contains p → outer.Contains p

/-- Places in rows of the length `stride`. -/
lemma row_slot {stride a b r c w : ℕ} (hb : b < stride) (hc : c + w ≤ stride) :
    r * stride + c ≤ a * stride + b ∧ a * stride + b < r * stride + c + w ↔ a = r ∧ c ≤ b ∧ b < c + w := by
  constructor
  · intro ⟨h1,h2⟩
    have hle : a ≤ r := by
      by_contra hlt
      have := Nat.mul_le_mul_right stride (not_le.mp hlt)
      rw [Nat.succ_mul] at this
      omega
    have hge : r ≤ a := by
      by_contra hlt
      have := Nat.mul_le_mul_right stride (not_le.mp hlt)
      rw [Nat.succ_mul] at this
      omega
    obtain rfl : a = r := le_antisymm hle hge
    omega
  · intro ⟨h1,h2,h3⟩
    subst h1
    omega

/-- The corners of a rectangle that is not empty. -/
lemma Rect.Within.corners {outer : Rect} (h : rect.Within outer) (hne : rect.isEmpty = false) :
    outer.tl.x ≤ rect.tl.x ∧ outer.tl.y ≤ rect.tl.y ∧ rect.br.x ≤ outer.br.x ∧ rect.br.y ≤ outer.br.y := by
  obtain ⟨hx,hy⟩ := rect.proper hne
  obtain ⟨h1,_,h2,_⟩ := h rect.tl ⟨le_rfl,hx,le_rfl,hy⟩
  obtain ⟨_,h3,_,h4⟩ := h ⟨rect.br.x - 1,rect.br.y - 1⟩ ⟨by simp only; omega,by simp,by simp only; omega,by simp⟩
  simp only at h3 h4
  omega

/-- The places of one row of a rectangle. -/
lemma Surface.Fits.slot_iff (hf : s.Fits) (hw : rect.Within s.rect) (hne : rect.isEmpty = false)
    (hp : s.rect.Contains p) (y : ℕ) :
    s.offset ⟨rect.tl.x,rect.tl.y + y⟩ ≤ s.offset p ∧
      s.offset p < s.offset ⟨rect.tl.x,rect.tl.y + y⟩ + rect.width.toNat ↔
    p.y = rect.tl.y + y ∧ rect.tl.x ≤ p.x ∧ p.x < rect.br.x := by
  obtain ⟨h1,h2,h3,h4⟩ := hw.corners hne
  obtain ⟨hx1,hx2,hy1,hy2⟩ := hp
  obtain ⟨hx,_⟩ := rect.proper hne
  simp only [Surface.Fits, Rect.width] at hf ⊢
  simp only [Surface.offset]
  rw [row_slot (by omega) (by omega)]
  omega

/-- The rows of a rectangle up to one of them. -/
def Rect.firstRows (self : Rect) (k : ℕ) : Rect := ⟨self.tl,⟨self.br.x,self.tl.y + k⟩⟩

lemma Rect.firstRows_height (h : rect.isEmpty = false) : rect.firstRows rect.height.toNat = rect := by
  obtain ⟨_,hy⟩ := rect.proper h
  rcases rect with ⟨⟨a,b⟩,⟨c,d⟩⟩
  simp only [Rect.firstRows, Rect.height, Rect.mk.injEq, Point.mk.injEq, true_and] at hy ⊢
  omega

/-- The point is in the columns of the rectangle and in one of the rows. -/
def Rect.InRows (self : Rect) (ys : List ℕ) (p : Point) : Prop :=
  ∃ y ∈ ys, p.y = self.tl.y + y ∧ self.tl.x ≤ p.x ∧ p.x < self.br.x

lemma Rect.inRows_range {k : ℕ} : rect.InRows (List.range k) p ↔ (rect.firstRows k).Contains p := by
  simp only [Rect.InRows, Rect.firstRows, Rect.Contains, List.mem_range]
  constructor
  · rintro ⟨y,hy,h1,h2,h3⟩
    omega
  · rintro ⟨h1,h2,h3,h4⟩
    exact ⟨(p.y - rect.tl.y).toNat,by omega,by omega,h1,h2⟩

/-- An operation that writes `color` at the points of one row after the other. Each row may rely on the
points of the rows that were not yet written. -/
lemma foldl_rows (color : Point → Color) {f : Images → ℕ → Images} (ys : List ℕ)
    (hrow : ∀ l y l' m', ys = l ++ y :: l' → (∀ i, i ≠ s.image → m'.pixels i = m.pixels i) →
      (∀ p, s.rect.Contains p → ¬rect.InRows l p → s.pixel m' p = s.pixel m p) →
      (∀ i, i ≠ s.image → (f m' y).pixels i = m'.pixels i) ∧
      ∀ p, s.rect.Contains p → s.pixel (f m' y) p =
        if p.y = rect.tl.y + y ∧ rect.tl.x ≤ p.x ∧ p.x < rect.br.x then color p else s.pixel m' p) :
    (∀ i, i ≠ s.image → (ys.foldl f m).pixels i = m.pixels i) ∧
    ∀ p, s.rect.Contains p → (rect.InRows ys p → s.pixel (ys.foldl f m) p = color p) ∧
      (¬rect.InRows ys p → s.pixel (ys.foldl f m) p = s.pixel m p) := by
  induction ys using List.reverseRecOn with
  | nil => exact ⟨fun _ _ => rfl,fun p _ => ⟨fun ⟨y,hy,_⟩ => absurd hy List.not_mem_nil,fun _ => rfl⟩⟩
  | append_singleton ys y ih =>
    obtain ⟨h1,h2⟩ := ih fun l y' l' m' he => hrow l y' (l' ++ [y]) m' (by rw [he]; simp)
    obtain ⟨h3,h4⟩ := hrow ys y [] (ys.foldl f m) rfl h1 fun p hp => (h2 p hp).2
    rw [List.foldl_append, List.foldl_cons, List.foldl_nil]
    refine ⟨fun i hi => (h3 i hi).trans (h1 i hi),fun p hp => ⟨?_,?_⟩⟩
    · intro ⟨y',hy',hin⟩
      rw [h4 p hp]
      split_ifs with hc
      · rfl
      · rcases List.mem_append.mp hy' with hy' | hy'
        · exact (h2 p hp).1 ⟨y',hy',hin⟩
        · exact absurd (List.mem_singleton.mp hy' ▸ hin) hc
    · intro hout
      rw [h4 p hp, if_neg fun hc => hout ⟨y,by simp,hc⟩]
      exact (h2 p hp).2 fun ⟨y',hy',hin⟩ => hout ⟨y',List.mem_append_left _ hy',hin⟩

/-- An operation on the rows of a rectangle that writes `color` at its points. -/
lemma rows_ok (color : Point → Color) {f : Images → ℕ → Images}
    (hrow : ∀ (m' : Images) (y : ℕ), (∀ i, i ≠ s.image → m'.pixels i = m.pixels i) →
      (∀ i, i ≠ s.image → (f m' y).pixels i = m'.pixels i) ∧
      ∀ p, s.rect.Contains p → s.pixel (f m' y) p =
        if p.y = rect.tl.y + y ∧ rect.tl.x ≤ p.x ∧ p.x < rect.br.x then color p else s.pixel m' p)
    (k : ℕ) : (∀ i, i ≠ s.image → ((List.range k).foldl f m).pixels i = m.pixels i) ∧
    ∀ p, s.rect.Contains p → s.pixel ((List.range k).foldl f m) p =
      if (rect.firstRows k).Contains p then color p else s.pixel m p := by
  obtain ⟨h1,h2⟩ := @foldl_rows s m rect color f (List.range k) fun l y l' m' _ hold _ => hrow m' y hold
  refine ⟨h1,fun p hp => ?_⟩
  split_ifs with hc
  · exact (h2 p hp).1 (Rect.inRows_range.mpr hc)
  · exact (h2 p hp).2 fun hin => hc (Rect.inRows_range.mp hin)

/-- What changed: the points of a rectangle of one surface. -/
structure Painted (s : Surface) (rect : Rect) (color : Point → Color) (m m' : Images) : Prop where
  others : ∀ i, i ≠ s.image → m'.pixels i = m.pixels i
  pixel : ∀ p, s.rect.Contains p → s.pixel m' p = if rect.Contains p then color p else s.pixel m p

lemma fillUnsafe_ok (hf : s.Fits) (hw : rect.Within s.rect) (hne : rect.isEmpty = false) (color : Color) (m : Images) :
    Painted s rect (fun _ => color) m (s.fillUnsafe rect color m) := by
  have h := @rows_ok s m rect (fun _ => color) (fun m y =>
    m.fillSlice s.image (s.offset ⟨rect.tl.x,rect.tl.y + y⟩) rect.width.toNat color) (fun m' y _ => ?_)
    rect.height.toNat
  · rw [Rect.firstRows_height hne] at h
    unfold Surface.fillUnsafe
    exact ⟨h.1,h.2⟩
  · refine ⟨fun i hi => ?_,fun p hp => ?_⟩
    · funext o
      simp [Images.fillSlice, hi]
    · simp only [Surface.pixel, Images.fillSlice, true_and]
      simp only [hf.slot_iff hw hne hp]

/-- The place of a point in a row that is copied. -/
lemma offset_add {tl start : Point} {y : ℕ} (h1 : src.rect.tl.x ≤ (start + (tl - tl)).x) (h2 : s.rect.tl.x ≤ tl.x)
    (hy : p.y = tl.y + y) (hx : tl.x ≤ p.x) :
    src.offset ⟨start.x,start.y + y⟩ + (s.offset p - s.offset ⟨tl.x,tl.y + y⟩) = src.offset (start + (p - tl)) := by
  have h1 : src.rect.tl.x ≤ start.x + (tl.x - tl.x) := h1
  have hadd : start + (p - tl) = ⟨start.x + (p.x - tl.x),start.y + y⟩ := by
    show Point.mk (start.x + (p.x - tl.x)) (start.y + (p.y - tl.y)) = _
    rw [Point.mk.injEq]
    omega
  rw [hadd]
  simp only [Surface.offset, hy]
  omega

/-- Copying between two images. -/
lemma blitUnsafe_ok (hf : s.Fits) (hw : rect.Within s.rect) (hne : rect.isEmpty = false) {start : Point}
    (hsrc : ∀ p, rect.Contains p → src.rect.Contains (start + (p - rect.tl))) (hd : s.image ≠ src.image) (m : Images) :
    Painted s rect (fun p => src.pixel m (start + (p - rect.tl))) m
      (s.blitUnsafe rect.tl src start rect.width rect.height m) := by
  obtain ⟨hx,hy⟩ := rect.proper hne
  have htl : src.rect.Contains (start + (rect.tl - rect.tl)) := hsrc _ ⟨le_rfl,hx,le_rfl,hy⟩
  obtain ⟨h1,_⟩ := htl
  obtain ⟨h2,h3,_⟩ := hw.corners hne
  have h := @rows_ok s m rect (fun p => src.pixel m (start + (p - rect.tl)))
    (s.blitRow rect.tl src start rect.width) (fun m' y hold => ?_) rect.height.toNat
  · rw [Rect.firstRows_height hne] at h
    rw [Surface.blitUnsafe, if_neg fun h => hd h.1]
    exact ⟨h.1,h.2⟩
  · refine ⟨fun i hi => ?_,fun p hp => ?_⟩
    · funext o
      simp [Surface.blitRow, Images.copy, hi]
    · simp only [Surface.pixel, Surface.blitRow, Images.copy, true_and]
      simp only [hf.slot_iff hw hne hp]
      split_ifs with hc
      · rw [hold _ hd.symm]
        congr 1
        exact offset_add h1 h2 hc.1 hc.2.1
      · rfl

lemma Rect.intersect_within {outer : Rect} (h : rect.Within outer) (hne : rect.isEmpty = false) :
    rect.intersect outer = some rect := by
  obtain ⟨h1,h2,h3,h4⟩ := h.corners hne
  obtain ⟨hx,hy⟩ := rect.proper hne
  rcases rect with ⟨⟨a,b⟩,⟨c,d⟩⟩
  simp only [Rect.intersect, Rect.new] at *
  rw [max_eq_left h1, max_eq_left h2, min_eq_left h3, min_eq_left h4, if_pos ⟨hx,hy⟩]

lemma Rect.intersect_some {outer r : Rect} (h : rect.intersect outer = some r) :
    r.isEmpty = false ∧ ∀ p, r.Contains p ↔ rect.Contains p ∧ outer.Contains p := by
  simp only [Rect.intersect, Rect.new] at h
  split_ifs at h with hc
  obtain rfl := Option.some.inj h
  refine ⟨?_,fun p => ?_⟩
  · simp only [Rect.isEmpty, decide_eq_false_iff_not]
    omega
  · simp only [Rect.Contains]
    omega

lemma Rect.intersect_none {outer : Rect} (h : rect.intersect outer = none) (p : Point) :
    ¬(rect.Contains p ∧ outer.Contains p) := by
  simp only [Rect.intersect] at h
  split_ifs at h with hc
  simp only [Rect.Contains]
  omega

lemma fillRect_ok (hf : s.Fits) (hw : rect.Within s.rect) (hne : rect.isEmpty = false) (color : Color) (m : Images) :
    Painted s rect (fun _ => color) m (s.fillRect rect color m) := by
  rw [Surface.fillRect, Rect.intersect_within hw hne]
  exact fillUnsafe_ok hf hw hne color m

/-- `blit` of a part of both surfaces to the same place. -/
lemma blit_ok (hf : s.Fits) (hw : rect.Within s.rect) (hsrc : rect.Within src.rect) (hne : rect.isEmpty = false)
    (hd : s.image ≠ src.image) (m : Images) :
    Painted s rect (src.pixel m) m (s.blit rect src rect.tl m) := by
  have hstart : rect.tl + (rect.tl - rect.tl) = rect.tl := by
    show Point.mk (rect.tl.x + (rect.tl.x - rect.tl.x)) (rect.tl.y + (rect.tl.y - rect.tl.y)) = rect.tl
    simp
  have hend : rect.tl + rect.size = rect.br := by
    show Point.mk (rect.tl.x + (rect.br.x - rect.tl.x)) (rect.tl.y + (rect.br.y - rect.tl.y)) = rect.br
    simp
  have hmove : ∀ p : Point, rect.tl + (p - rect.tl) = p := fun p => by
    show Point.mk (rect.tl.x + (p.x - rect.tl.x)) (rect.tl.y + (p.y - rect.tl.y)) = p
    simp
  have h := blitUnsafe_ok hf hw hne (fun p hp => (hmove p).symm ▸ hsrc p hp) hd m
  simp only [hmove] at h
  simp only [Surface.blit, Rect.intersect_within hw hne, hstart, hend, Rect.intersect_within hsrc hne]
  simpa only [Surface.fillAround, lt_irrefl, if_false] using h

/-- Drawing into a part of a surface: no pixel outside of it changes. -/
structure Drawn (s : Surface) (rect : Rect) (m m' : Images) : Prop where
  next : m'.next = m.next
  others : ∀ i, i ≠ s.image → m'.pixels i = m.pixels i
  outside : ∀ p, s.rect.Contains p → ¬rect.Contains p → s.pixel m' p = s.pixel m p

/-- `fill` draws. -/
lemma drawn_fillRect (hf : s.Fits) (rect : Rect) (color : Color) (m : Images) :
    Drawn s rect m (s.fillRect rect color m) := by
  refine ⟨(SameFrees.fillRect s rect color m).1,?_,?_⟩
  all_goals
    unfold Surface.fillRect
    cases hi : rect.intersect s.rect with
    | none => exact fun _ _ => by simp
    | some r => ?_
  · obtain ⟨h1,h2⟩ := Rect.intersect_some hi
    exact (fillUnsafe_ok hf (fun p hp => ((h2 p).mp hp).2) h1 color m).others
  · obtain ⟨h1,h2⟩ := Rect.intersect_some hi
    intro p hp hout
    have h3 := (fillUnsafe_ok hf (fun p hp => ((h2 p).mp hp).2) h1 color m).pixel p hp
    rw [if_neg fun hc => hout ((h2 p).mp hc).1] at h3
    exact h3

end Lilith.Draw
