import Lilith.Draw.Pixels

/-! What the text writer leaves on a screen: the text, set in rows of as many characters as the screen is wide, until
there are more rows than the screen has. Scrolling then gives the memory of the screen away. -/
namespace Lilith.Draw
open TextWriter

variable {s : Surface} {m : Images} {p pos : Point} {ch : UInt8} {font : ℕ → UInt8}

/-- The text in rows. The last row is the one that is being written. -/
structure Typeset where
  above : List (List UInt8)
  line : List UInt8

namespace Typeset

/-- A row ends with a newline, or when it has `cols` characters. -/
def put (cols : ℕ) (t : Typeset) (b : UInt8) : Typeset :=
  if b = NEWLINE then ⟨t.above ++ [t.line],[]⟩
  else if cols ≤ t.line.length + 1 then ⟨t.above ++ [t.line ++ [b]],[]⟩
  else ⟨t.above,t.line ++ [b]⟩

def ofBytes (cols : ℕ) (bs : List UInt8) : Typeset := bs.foldl (put cols) ⟨[],[]⟩

def rows (t : Typeset) : List (List UInt8) := t.above ++ [t.line]

end Typeset

/-- The dot of a character in column `i` and row `j` of its cell. The characters for boxes are stretched
to the height of the cell. -/
def glyph (font : ℕ → UInt8) (ch : UInt8) (i j : ℕ) : Bool :=
  (j < 14 ∨ (0xb0 ≤ ch ∧ ch ≤ 0xdf)) ∧ (font (14 * ch.toNat + min j 13)).toNat.testBit (7 - i)

/-- The dot at a place of the screen that shows `rows`, in cells of 8 by 16. -/
def shows (font : ℕ → UInt8) (rows : List (List UInt8)) (x y : ℕ) : Bool :=
  match rows[y/16]?.bind (·[x/8]?) with
  | some ch => glyph font ch (x%8) (y%16)
  | none => false

/-! The pixels of one character. -/

lemma foldl_paint {α : Type} {P : α → Prop} {f : Images → α → Images} {color : Color} (l : List α)
    [∀ a, Decidable (P a)] (hf : ∀ m, ∀ a ∈ l, s.pixel (f m a) p = if P a then color else s.pixel m p) (m : Images) :
    s.pixel (l.foldl f m) p = if ∃ a ∈ l, P a then color else s.pixel m p := by
  induction l generalizing m with
  | nil => simp
  | cons a l ih =>
    rw [List.foldl_cons, ih (fun m b hb => hf m b (List.mem_cons_of_mem a hb)), hf m a List.mem_cons_self]
    by_cases ha : P a
    · simp [ha]
    · simp [ha]

lemma Surface.Fits.offset_inj {q : Point} (hf : s.Fits) (hp : s.rect.Contains p) (hq : s.rect.Contains q)
    (h : s.offset p = s.offset q) : p = q := by
  obtain ⟨h1,h2,h3,h4⟩ := hp
  obtain ⟨g1,g2,g3,g4⟩ := hq
  simp only [Surface.Fits, Rect.width] at hf
  simp only [Surface.offset] at h
  have hslot := (@row_slot s.stride (p.y - s.rect.tl.y).toNat (p.x - s.rect.tl.x).toNat
    (q.y - s.rect.tl.y).toNat (q.x - s.rect.tl.x).toNat 1 (by omega) (by omega)).mp (by omega)
  rcases p with ⟨px,py⟩
  rcases q with ⟨qx,qy⟩
  simp only [Point.mk.injEq] at *
  omega

/-- `render_char` sets the dots of the character that are on the surface. -/
lemma renderChar_pixel (hf : s.Fits) (hp : s.rect.Contains p) (color : Color) (m : Images) :
    s.pixel (s.renderChar font pos ch color m) p =
      if pos.x ≤ p.x ∧ p.x < pos.x + 8 ∧ pos.y ≤ p.y ∧ p.y < pos.y + 16 ∧
        glyph font ch (p.x - pos.x).toNat (p.y - pos.y).toNat then color else s.pixel m p := by
  have hdot : ∀ (m : Images) (j i : ℕ), s.pixel (
      if s.rect.containsPoint ⟨pos.x + i,pos.y + j⟩ then
        if (j < 14 ∨ decide (0xb0 ≤ ch ∧ ch ≤ 0xdf) = true) ∧
            (font (14 * ch.toNat + min j 13)).toNat.testBit (7 - i) = true then
          m.fillSlice s.image (s.offset ⟨pos.x + i,pos.y + j⟩) 1 color else m
      else m) p = if p = ⟨pos.x + i,pos.y + j⟩ ∧ glyph font ch i j then color else s.pixel m p := by
    intro m j i
    set q : Point := ⟨pos.x + i,pos.y + j⟩ with hq
    by_cases hin : s.rect.containsPoint q = true
    · have hqin : s.rect.Contains q := by simpa [Rect.containsPoint, Rect.Contains] using hin
      have hoff : s.offset q ≤ s.offset p ∧ s.offset p < s.offset q + 1 ↔ p = q :=
        ⟨fun h => hf.offset_inj hp hqin (by omega),fun h => by rw [h]; omega⟩
      rw [if_pos hin]
      by_cases hg : glyph font ch i j = true
      · have hg' := hg
        simp only [glyph, decide_eq_true_eq] at hg'
        rw [if_pos (by simpa using hg')]
        simp only [Surface.pixel, Images.fillSlice, true_and, hoff, hg, and_true]
      · have hg' := hg
        simp only [glyph, decide_eq_true_eq] at hg'
        rw [if_neg (by simpa using hg'), if_neg fun h => hg h.2]
    · have hne : p ≠ q := by
        rintro rfl
        exact hin (by simpa [Rect.containsPoint, Rect.Contains] using hp)
      rw [if_neg hin, if_neg fun h => hne h.1]
  have hrow : ∀ (m : Images) (j : ℕ), s.pixel ((List.range 8).foldl (fun m (i : ℕ) =>
      if s.rect.containsPoint ⟨pos.x + i,pos.y + j⟩ then
        if (j < 14 ∨ decide (0xb0 ≤ ch ∧ ch ≤ 0xdf) = true) ∧
            (font (14 * ch.toNat + min j 13)).toNat.testBit (7 - i) = true then
          m.fillSlice s.image (s.offset ⟨pos.x + i,pos.y + j⟩) 1 color else m
      else m) m) p =
      if ∃ i ∈ List.range 8, p = ⟨pos.x + i,pos.y + j⟩ ∧ glyph font ch i j then color else s.pixel m p :=
    fun m j => foldl_paint (List.range 8) (fun m i _ => hdot m j i) m
  have hall : s.pixel ((s.renderChar font pos ch color) m) p = _ := foldl_paint
    (P := fun j : ℕ => ∃ i ∈ List.range 8, p = ⟨pos.x + i,pos.y + j⟩ ∧ glyph font ch i j) (List.range 16)
    (fun m j _ => hrow m j) m
  refine hall.trans (if_congr ?_ rfl rfl)
  constructor
  · rintro ⟨j,hj,i,hi,rfl,hg⟩
    rw [List.mem_range] at hi hj
    have hx : (pos.x + i - pos.x).toNat = i := by omega
    have hy : (pos.y + j - pos.y).toNat = j := by omega
    rw [hx, hy]
    exact ⟨by simp only; omega,by simp only; omega,by simp only; omega,by simp only; omega,hg⟩
  · rintro ⟨h1,h2,h3,h4,hg⟩
    refine ⟨(p.y - pos.y).toNat,List.mem_range.mpr (by omega),(p.x - pos.x).toNat,List.mem_range.mpr (by omega),?_,hg⟩
    rcases p with ⟨px,py⟩
    simp only [Point.mk.injEq] at *
    omega

/-! The dots of rows of text. -/

lemma shows_append_nil (font : ℕ → UInt8) (rows : List (List UInt8)) (x y : ℕ) :
    shows font (rows ++ [[]]) x y = shows font rows x y := by
  unfold shows
  rcases lt_trichotomy (y/16) rows.length with hlt | heq | hgt
  · rw [List.getElem?_append_left hlt]
  · rw [heq]
    simp
  · rw [List.getElem?_eq_none (by simp; omega), List.getElem?_eq_none hgt.le]

/-- A character more in the last row. -/
lemma shows_put (font : ℕ → UInt8) (rows : List (List UInt8)) (line : List UInt8) (b : UInt8) (x y : ℕ) :
    shows font (rows ++ [line ++ [b]]) x y =
      if y/16 = rows.length ∧ x/8 = line.length then glyph font b (x%8) (y%16)
      else shows font (rows ++ [line]) x y := by
  unfold shows
  rcases lt_trichotomy (y/16) rows.length with hlt | heq | hgt
  · rw [List.getElem?_append_left hlt, List.getElem?_append_left hlt, if_neg (by omega)]
  · rw [heq]
    simp only [List.getElem?_concat_length, Option.bind_some, true_and]
    split_ifs with hx
    · rw [hx]
      simp
    · rcases lt_or_gt_of_ne hx with hlt | hgt
      · rw [List.getElem?_append_left hlt]
      · rw [List.getElem?_eq_none (by simp; omega), List.getElem?_eq_none hgt.le]
  · rw [List.getElem?_eq_none (by simp; omega), List.getElem?_eq_none (by simp; omega), if_neg (by omega)]

/-- Nothing is shown at the end of the last row. -/
lemma shows_end (font : ℕ → UInt8) {rows : List (List UInt8)} {line : List UInt8} {x y : ℕ} (hy : y/16 = rows.length)
    (hx : x/8 = line.length) : shows font (rows ++ [line]) x y = false := by
  unfold shows
  rw [hy, hx]
  simp

namespace Typeset
variable {cols : ℕ} {t : Typeset} {b : UInt8}

@[simp] lemma length_rows (t : Typeset) : t.rows.length = t.above.length + 1 := List.length_append

lemma length_rows_put (cols : ℕ) (t : Typeset) (b : UInt8) : t.rows.length ≤ (t.put cols b).rows.length := by
  unfold put
  split_ifs <;> simp

end Typeset

/-! The screen while text is written. -/

/-- The number of characters that begin in a row of the surface. -/
def Surface.cols (self : Surface) : ℕ := (self.rect.br.x.toNat + 7) / 8

/-- A surface at the origin, with room for `n` rows of text. -/
structure Surface.IsScreen (s : Surface) (n : ℕ) : Prop where
  fits : s.Fits
  origin : s.rect.tl = Point.ZERO
  width : 0 < s.rect.br.x
  height : s.rect.br.y = 16*n
  rows : 0 < n

def Displays (font : ℕ → UInt8) (s : Surface) (m : Images) (rows : List (List UInt8)) : Prop :=
  ∀ p, s.rect.Contains p → s.pixel m p = if shows font rows p.x.toNat p.y.toNat then .WHITE else s.fill

/-- The screen while the text fits on it. -/
structure Console (font : ℕ → UInt8) (s : Surface) (t : Typeset) (st : Point × Images) : Prop where
  displays : Displays font s st.2 t.rows
  x : st.1.x = 8 * t.line.length
  y : st.1.y + 16 = 16 * t.rows.length
  short : t.line.length < s.cols
  held : s.image ∉ st.2.frees

/-- The text is on the screen, unless it has too many rows and the memory of the screen was given away. -/
def OnScreen (font : ℕ → UInt8) (s : Surface) (n : ℕ) (t : Typeset) (st : Point × Images) : Prop :=
  t.rows.length ≤ n ∧ Console font s t st ∨ n < t.rows.length ∧ s.image ∈ st.2.frees

variable {n : ℕ} {t : Typeset} {b : UInt8}

lemma Surface.IsScreen.contains (h : s.IsScreen n) :
    s.rect.Contains p ↔ 0 ≤ p.x ∧ p.x < s.rect.br.x ∧ 0 ≤ p.y ∧ p.y < 16*n := by
  simp only [Rect.Contains, h.origin, Point.ZERO, h.height]

/-- A character is added to the last row. -/
lemma Console.ink (h : Console font s t (pos,m)) (hs : s.IsScreen n) (b : UInt8) :
    Displays font s (s.renderChar font pos b .WHITE m) (t.above ++ [t.line ++ [b]]) := by
  intro p hp
  obtain ⟨hx0,_,hy0,_⟩ := hs.contains.mp hp
  have hx := h.x
  have hy := h.y
  have hd := h.displays p hp
  rw [Typeset.length_rows] at hy
  simp only at hx hy hd
  rw [renderChar_pixel hs.fits hp, hd, shows_put]
  by_cases hcell : p.y.toNat / 16 = t.above.length ∧ p.x.toNat / 8 = t.line.length
  · have hi : (p.x - pos.x).toNat = p.x.toNat % 8 := by omega
    have hj : (p.y - pos.y).toNat = p.y.toNat % 16 := by omega
    rw [if_pos hcell, Typeset.rows, shows_end font hcell.1 hcell.2, hi, hj]
    refine if_congr ⟨fun hg => hg.2.2.2.2,fun hg => ⟨?_,?_,?_,?_,hg⟩⟩ rfl rfl <;> omega
  · rw [if_neg hcell, if_neg fun hg => hcell ?_]
    · rfl
    · omega

/-- The writer goes to the next row, and scrolls if there is none. -/
lemma OnScreen.newRow {above : List (List UInt8)} {line : List UInt8} {y : ℤ} (hs : s.IsScreen n)
    (hd : Displays font s m (above ++ [line])) (hy : y = 16 * (above.length + 1 : ℕ)) (hheld : s.image ∉ m.frees) :
    OnScreen font s n ⟨above ++ [line],[]⟩
      (if y ≥ s.rect.br.y then (⟨s.rect.tl.x,y - 16⟩,s.selfBlit s.rect ⟨0,16⟩ m) else (⟨s.rect.tl.x,y⟩,m)) := by
  have hcols : 0 < s.cols := by
    have := hs.width
    unfold Surface.cols
    omega
  have hx0 : s.rect.tl.x = 0 := by rw [hs.origin]; rfl
  rw [hs.height]
  split_ifs with hscroll
  · refine Or.inr ⟨?_,?_⟩
    · simp only [Typeset.length_rows, List.length_append, List.length_singleton]
      omega
    · rw [(s.selfBlit_frees s.rect ⟨0,16⟩ m).2]
      exact List.mem_append_right _ List.mem_cons_self
  · refine Or.inl ⟨?_,⟨fun p hp => ?_,by simpa using hx0,?_,hcols,hheld⟩⟩
    · simp only [Typeset.length_rows, List.length_append, List.length_singleton]
      omega
    · rw [Typeset.rows, shows_append_nil]
      exact hd p hp
    · simp only [Typeset.length_rows, List.length_append, List.length_singleton]
      omega

/-- One byte of text that fits so far. -/
lemma Console.writeByte (h : Console font s t (pos,m)) (hs : s.IsScreen n) (hfits : t.rows.length ≤ n) (b : UInt8) :
    OnScreen font s n (t.put s.cols b) (TextWriter.writeByte font s (pos,m) b) := by
  have hx := h.x
  have hy := h.y
  have hshort := h.short
  have hwidth := hs.width
  rw [Typeset.length_rows] at hy hfits
  simp only at hx hy
  unfold Surface.cols at hshort
  by_cases hnl : b = NEWLINE
  · have hrow := OnScreen.newRow (y := pos.y + 16) hs h.displays (by rw [hy]) h.held
    simp only [Typeset.put, TextWriter.writeByte, advance, hnl, if_true]
    exact hrow
  · have hink := h.ink hs b
    have hheld : s.image ∉ (s.renderChar font pos b .WHITE m).frees := by
      rw [(SameFrees.renderChar font s pos b .WHITE m).2]
      exact h.held
    by_cases hfull : s.cols ≤ t.line.length + 1
    · have hwrap : pos.x + 8 ≥ s.rect.br.x := by
        unfold Surface.cols at hfull
        omega
      have hrow := OnScreen.newRow (y := pos.y + 16) hs hink (by rw [hy]) hheld
      simp only [Typeset.put, TextWriter.writeByte, advance, hnl, if_false, if_pos hfull, if_pos hwrap]
      exact hrow
    · have hwrap : ¬ pos.x + 8 ≥ s.rect.br.x := by
        unfold Surface.cols at hfull
        omega
      have hstay : ¬ pos.y ≥ s.rect.br.y := by
        rw [hs.height]
        omega
      simp only [Typeset.put, TextWriter.writeByte, advance, hnl, if_false, if_neg hfull, if_neg hwrap, if_neg hstay]
      refine Or.inl ⟨by simpa using hfits,⟨hink,?_,?_,?_,hheld⟩⟩
      · simp only [List.length_append, List.length_singleton]
        omega
      · simp only [Typeset.length_rows]
        exact hy
      · simp only [List.length_append, List.length_singleton]
        omega

/-- One byte of text. What was given away stays so. -/
lemma OnScreen.writeByte {st : Point × Images} (h : OnScreen font s n t st) (hs : s.IsScreen n) (b : UInt8) :
    OnScreen font s n (t.put s.cols b) (TextWriter.writeByte font s st b) := by
  rcases h with ⟨hfits,h⟩ | ⟨hmany,hfreed⟩
  · exact h.writeByte hs hfits b
  · refine Or.inr ⟨hmany.trans_le (t.length_rows_put s.cols b),?_⟩
    rcases writeByte_frees font s st.1 st.2 b with ⟨_,_,hsame⟩ | ⟨_,_,hf⟩
    · rw [hsame.2]
      exact hfreed
    · rw [hf]
      exact List.mem_append_left _ hfreed

lemma OnScreen.foldl (bs : List UInt8) {st : Point × Images} (h : OnScreen font s n t st) (hs : s.IsScreen n) :
    OnScreen font s n (bs.foldl (Typeset.put s.cols) t) (bs.foldl (TextWriter.writeByte font s) st) := by
  induction bs generalizing t st with
  | nil => exact h
  | cons b bs ih => exact ih (h.writeByte hs b)

lemma write_flatMap (writes : List (List (String × Bool))) (st : Point × Images) :
    writes.foldl (fun st chunks => TextWriter.write font s chunks st) st =
      (writes.flatMap bytesOf).foldl (TextWriter.writeByte font s) st := by
  induction writes generalizing st with
  | nil => rfl
  | cons w ws ih =>
    rw [List.foldl_cons, ih, List.flatMap_cons, List.foldl_append]
    rfl

/-- Whatever text is written, in any number of calls, to a blank screen at the origin that is `n` rows high: the memory of
the screen is given away exactly if the text has more than `n` rows. Otherwise the screen shows all rows of the text, as
the font draws them, and nothing else, and the writer is at the end of the last row, inside of the screen. -/
theorem console_shows_text (font : ℕ → UInt8) (hs : s.IsScreen n) (hheld : s.image ∉ m.frees)
    (hblank : ∀ p, s.rect.Contains p → s.pixel m p = s.fill) (writes : List (List (String × Bool))) :
    let t := Typeset.ofBytes s.cols (writes.flatMap bytesOf)
    let st := writes.foldl (fun st chunks => TextWriter.write font s chunks st) (Point.ZERO,m)
    (s.image ∈ st.2.frees ↔ n < t.rows.length) ∧
    (t.rows.length ≤ n →
      (∀ p, s.rect.Contains p → s.pixel st.2 p = if shows font t.rows p.x.toNat p.y.toNat then .WHITE else s.fill) ∧
      st.1 = ⟨8 * t.line.length,16 * t.above.length⟩ ∧ s.rect.Contains st.1) := by
  intro t st
  have hwidth := hs.width
  have hstart : Console font s ⟨[],[]⟩ (Point.ZERO,m) := by
    refine ⟨fun p hp => ?_,rfl,rfl,?_,hheld⟩
    · have hnone : shows font ([] ++ [[]]) p.x.toNat p.y.toNat = false := by
        rw [shows_append_nil]
        rfl
      rw [Typeset.rows, hnone]
      exact hblank p hp
    · unfold Surface.cols
      simp only [List.length_nil]
      omega
  have hend : OnScreen font s n t ((writes.flatMap bytesOf).foldl (TextWriter.writeByte font s) (Point.ZERO,m)) :=
    OnScreen.foldl (writes.flatMap bytesOf) (Or.inl ⟨hs.rows,hstart⟩) hs
  rw [← write_flatMap] at hend
  change OnScreen font s n t st at hend
  rcases hend with ⟨hfits,hend⟩ | ⟨hmany,hfreed⟩
  · refine ⟨iff_of_false hend.held (not_lt.mpr hfits),fun _ => ⟨hend.displays,?_,hs.contains.mpr ?_⟩⟩
    · have hx := hend.x
      have hy := hend.y
      rw [Typeset.length_rows] at hy
      rw [show st.1 = ⟨st.1.x,st.1.y⟩ from rfl, Point.mk.injEq]
      exact ⟨hx,by omega⟩
    · have hx := hend.x
      have hy := hend.y
      have hshort := hend.short
      rw [Typeset.length_rows] at hy hfits
      unfold Surface.cols at hshort
      omega
  · exact ⟨iff_of_true hfreed hmany,fun hfits => absurd hmany (not_lt.mpr hfits)⟩

/-- Two lines on a screen of two rows. -/
theorem console_shows_text_two : ∃ (s : Surface) (m : Images) (font : ℕ → UInt8), s.IsScreen 2 ∧
    (Typeset.ofBytes s.cols ([[("A\n",false)],[("C",false)]].flatMap bytesOf)).rows = [[0x41],[0x43]] ∧
    s.pixel ([[("A\n",false)],[("C",false)]].foldl (fun st chunks => TextWriter.write font s chunks st)
      (Point.ZERO,m)).2 ⟨0,16⟩ = .WHITE := by
  let s : Surface := ⟨0,⟨⟨0,0⟩,⟨16,32⟩⟩,16,.BLACK⟩
  let m : Images := ⟨fun _ _ => .BLACK,1,[],fun _ _ => none,fun _ _ => .BLACK⟩
  let font : ℕ → UInt8 := fun i => if i = 14*0x43 then 0x80 else 0
  have hs : s.IsScreen 2 := ⟨le_rfl,rfl,by decide,rfl,by decide⟩
  refine ⟨s,m,font,hs,by decide,?_⟩
  have h := (console_shows_text (m := m) font hs List.not_mem_nil (fun _ _ => rfl) [[("A\n",false)],[("C",false)]]).2
    (by decide)
  exact (h.1 ⟨0,16⟩ (by decide)).trans (if_pos (by decide))

end Lilith.Draw
