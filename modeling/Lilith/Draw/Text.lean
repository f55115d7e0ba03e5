import Lilith.Draw.Surface

/-! Text on a surface (`text.rs`), and who frees the images of surfaces: the runs of all operations on
surfaces and of the text writer, with the calls of `kernel_free`. -/
namespace Lilith.Draw

/-- Unicode codepoints in ascending order. -/
def UNICODE_TO_CP437_KEYS : List ℕ := [
  0x00A0,0x00A1,0x00A2,0x00A3,0x00A5,0x00AA,0x00AB,0x00AC,0x00B0,0x00B1,0x00B2,0x00B5,
  0x00B7,0x00BA,0x00BB,0x00BC,0x00BD,0x00BF,0x00C4,0x00C5,0x00C6,0x00C7,0x00C9,0x00D1,
  0x00D6,0x00DC,0x00DF,0x00E0,0x00E1,0x00E2,0x00E4,0x00E5,0x00E6,0x00E7,0x00E8,0x00E9,
  0x00EA,0x00EB,0x00EC,0x00ED,0x00EE,0x00EF,0x00F1,0x00F2,0x00F3,0x00F4,0x00F6,0x00F7,
  0x00F9,0x00FA,0x00FB,0x00FC,0x00FF,0x0192,0x0393,0x0398,0x03A3,0x03A6,0x03A9,0x03B1,
  0x03B4,0x03B5,0x03C0,0x03C3,0x03C4,0x03C6,0x207F,0x20A7,0x2219,0x221A,0x221E,0x2229,
  0x2248,0x2261,0x2264,0x2265,0x2310,0x2320,0x2321,0x2500,0x2502,0x250C,0x2510,0x2514,
  0x2518,0x251C,0x2524,0x252C,0x2534,0x253C,0x2550,0x2551,0x2552,0x2553,0x2554,0x2555,
  0x2556,0x2557,0x2558,0x2559,0x255A,0x255B,0x255C,0x255D,0x255E,0x255F,0x2560,0x2561,
  0x2562,0x2563,0x2564,0x2565,0x2566,0x2567,0x2568,0x2569,0x256A,0x256B,0x256C,0x2580,
  0x2584,0x2588,0x258C,0x2590,0x2591,0x2592,0x2593,0x25A0]

/-- CP437 values corresponding to each entry in `UNICODE_TO_CP437_KEYS`. -/
def UNICODE_TO_CP437_VALS : List UInt8 := [
  0xFF,0xAD,0x9B,0x9C,0x9D,0xA6,0xAE,0xAA,0xF8,0xF1,0xFD,0xE6,0xFA,0xA7,0xAF,0xAC,
  0xAB,0xA8,0x8E,0x8F,0x92,0x80,0x90,0xA5,0x99,0x9A,0xE1,0x85,0xA0,0x83,0x84,0x86,
  0x91,0x87,0x8A,0x82,0x88,0x89,0x8D,0xA1,0x8C,0x8B,0xA4,0x95,0xA2,0x93,0x94,0xF6,
  0x97,0xA3,0x96,0x81,0x98,0x9F,0xE2,0xE9,0xE4,0xE8,0xEA,0xE0,0xEB,0xEE,0xE3,0xE5,
  0xE7,0xED,0xFC,0x9E,0xF9,0xFB,0xEC,0xEF,0xF7,0xF0,0xF3,0xF2,0xA9,0xF4,0xF5,0xC4,
  0xB3,0xDA,0xBF,0xC0,0xD9,0xC3,0xB4,0xC2,0xC1,0xC5,0xCD,0xBA,0xD5,0xD6,0xC9,0xB8,
  0xB7,0xBB,0xD4,0xD3,0xC8,0xBE,0xBD,0xBC,0xC6,0xC7,0xCC,0xB5,0xB6,0xB9,0xD1,0xD2,
  0xCB,0xCF,0xD0,0xCA,0xD8,0xD7,0xCE,0xDF,0xDC,0xDB,0xDD,0xDE,0xB0,0xB1,0xB2,0xFE]

/-- The binary search finds a codepoint if it is there, since they are in ascending order. -/
def unicodeToCp437 (c : Char) : Option UInt8 :=
  let cp := c.toNat
  if cp < 0x80 then some (UInt8.ofNat cp)
  else (UNICODE_TO_CP437_KEYS.idxOf? cp).bind fun i => UNICODE_TO_CP437_VALS[i]?

/-- `render_char` with the bytes of the font. -/
def Surface.renderChar (font : ℕ → UInt8) (self : Surface) (pos : Point) (ch : UInt8) (color : Color)
    (m : Images) : Images :=
  (List.range 16).foldl (fun m (j : ℕ) => (List.range 8).foldl (fun m (i : ℕ) =>
    let p : Point := ⟨pos.x + i,pos.y + j⟩
    if self.rect.containsPoint p then
      let boxDrawing : Bool := 0xb0 ≤ ch ∧ ch ≤ 0xdf
      let bit := (font (14 * ch.toNat + min j 13)).toNat.testBit (7 - i)
      if (j < 14 ∨ boxDrawing) ∧ bit then m.fillSlice self.image (self.offset p) 1 color else m
    else m) m) m

namespace TextWriter

def NEWLINE : UInt8 := 10

/-- Where `write_byte` is after a byte, before it looks whether to scroll. -/
def advance (rect : Rect) (pos : Point) (b : UInt8) : Point :=
  if b = NEWLINE then ⟨rect.tl.x,pos.y + 16⟩
  else if pos.x + 8 ≥ rect.br.x then ⟨rect.tl.x,pos.y + 16⟩
  else ⟨pos.x + 8,pos.y⟩

def writeByte (font : ℕ → UInt8) (surface : Surface) (st : Point × Images) (b : UInt8) : Point × Images :=
  let (pos,m) := st
  let m := if b = NEWLINE then m else surface.renderChar font pos b Color.WHITE m
  let pos := advance surface.rect pos b
  if pos.y ≥ surface.rect.br.y then
    (⟨pos.x,pos.y - 16⟩,surface.selfBlit surface.rect ⟨0,16⟩ m)
  else (pos,m)

/-- The bytes that `write` gives to `write_byte`, for the chunks of `utf8_chunks`: each is valid text,
with a mark if invalid bytes follow. -/
def bytesOf (chunks : List (String × Bool)) : List UInt8 :=
  chunks.flatMap fun (valid,invalid) =>
    valid.toList.map (fun ch => (unicodeToCp437 ch).getD 0xfe) ++ if invalid then [0xfe] else []

def write (font : ℕ → UInt8) (surface : Surface) (chunks : List (String × Bool)) (st : Point × Images) :
    Point × Images :=
  (bytesOf chunks).foldl (writeByte font surface) st

end TextWriter

/-- The surfaces in use, and where the text writer is. -/
structure Surfaces where
  images : Images
  surfaces : List Surface
  pos : Point

inductive SurfaceOp where
  | new (rect : Rect) (fill : Color)
  | fromRaw (rect : Rect) (stride : ℕ) (fill : Color)
  | fill (surface : ℕ) (rect : Rect) (color : Color)
  | blit (dst src : ℕ) (rect : Rect) (srcStart : Point)
  | selfBlit (surface : ℕ) (rect : Rect) (srcStart : Point)
  | drop (surface : ℕ)
  /-- `TextWriter::write` -/
  | write (surface : ℕ) (chunks : List (String × Bool))

namespace Surfaces

/-- No surfaces yet, and memory with anything in it. -/
def init (memory : Images) : Surfaces := ⟨{ memory with next := 0, frees := [] },[],Point.ZERO⟩

/-- The operation, unless it names a surface that is not in use, or has no memory for a new one. -/
def step (font : ℕ → UInt8) (st : Surfaces) : SurfaceOp → Option Surfaces
  | .new rect fill => (Surface.new rect fill st.images).toOption.map fun (surface,images) =>
    { st with images := images, surfaces := st.surfaces ++ [surface] }
  | .fromRaw rect stride fill =>
    let (surface,images) := Surface.fromRaw rect stride fill st.images
    some { st with images := images, surfaces := st.surfaces ++ [surface] }
  | .fill i rect color => st.surfaces[i]?.map fun surface =>
    { st with images := surface.fillRect rect color st.images }
  | .blit i j rect srcStart =>
    -- one of the two references is mutable
    if i = j then none
    else st.surfaces[i]?.bind fun dst => st.surfaces[j]?.map fun src =>
      { st with images := dst.blit rect src srcStart st.images }
  | .selfBlit i rect srcStart => st.surfaces[i]?.map fun surface =>
    { st with images := surface.selfBlit rect srcStart st.images }
  | .drop i => st.surfaces[i]?.map fun surface =>
    { st with images := surface.drop st.images, surfaces := st.surfaces.eraseIdx i }
  | .write i chunks => st.surfaces[i]?.map fun surface =>
    let (pos,images) := TextWriter.write font surface chunks (st.pos,st.images)
    { st with images := images, pos := pos }

def run (font : ℕ → UInt8) (st : Surfaces) : List SurfaceOp → Option Surfaces
  | [] => some st
  | op :: ops => (st.step font op).bind fun st => st.run font ops

/-- Every image whose surface was dropped was freed once, and no other image was. -/
structure FreedByOwner (st : Surfaces) : Prop where
  in_use : ∀ surface ∈ st.surfaces, surface.image ∉ st.images.frees
  dropped : ∀ image < st.images.next, image ∉ st.surfaces.map Surface.image → st.images.frees.count image = 1

end Surfaces

/-! Only `self_blit` frees an image while a surface uses it. -/

/-- Memory whose images and whose calls of `kernel_free` are the same. -/
def SameFrees (m m' : Images) : Prop := m'.next = m.next ∧ m'.frees = m.frees

namespace SameFrees
variable {m m' : Images} {s src : Surface}

lemma refl (m : Images) : SameFrees m m := ⟨rfl,rfl⟩

lemma trans {m1 : Images} (h : SameFrees m m1) (h' : SameFrees m1 m') : SameFrees m m' :=
  ⟨h'.1.trans h.1,h'.2.trans h.2⟩

lemma foldl {α : Type} {f : Images → α → Images} (h : ∀ m a, SameFrees m (f m a)) (as : List α) (m : Images) :
    SameFrees m (as.foldl f m) := by
  induction as generalizing m with
  | nil => exact refl m
  | cons a as ih => exact (h m a).trans (ih _)

lemma fillUnsafe (s : Surface) (rect : Rect) (color : Color) (m : Images) :
    SameFrees m (s.fillUnsafe rect color m) := by
  apply foldl
  exact fun _ _ => ⟨rfl,rfl⟩

lemma fillRect (s : Surface) (rect : Rect) (color : Color) (m : Images) :
    SameFrees m (s.fillRect rect color m) := by
  unfold Surface.fillRect
  split
  · exact fillUnsafe s _ color m
  · exact refl m

lemma blitUnsafe (s : Surface) (p : Point) (src : Surface) (q : Point) (w h : ℤ) (m : Images) :
    SameFrees m (s.blitUnsafe p src q w h m) := by
  unfold Surface.blitUnsafe
  split_ifs
  all_goals
    apply foldl
    exact fun _ _ => ⟨rfl,rfl⟩

lemma fillIf (c : Prop) [Decidable c] (s : Surface) (rect : Rect) (color : Color) (m : Images) :
    SameFrees m (if c then s.fillUnsafe rect color m else m) := by
  split_ifs
  · exact fillUnsafe s rect color m
  · exact refl m

lemma fillAround (s : Surface) (rect : Rect) (p q : Point) (color : Color) (m : Images) :
    SameFrees m (s.fillAround rect p q color m) :=
  (((fillIf _ s _ color m).trans (fillIf _ s _ color _)).trans (fillIf _ s _ color _)).trans
    (fillIf _ s _ color _)

lemma blit (s : Surface) (rect : Rect) (src : Surface) (p : Point) (m : Images) :
    SameFrees m (s.blit rect src p m) := by
  unfold Surface.blit
  split
  · exact refl m
  · simp only
    split
    · exact fillUnsafe s _ _ m
    · exact (blitUnsafe s _ src _ _ _ m).trans (fillAround s _ _ _ _ _)

lemma renderChar (font : ℕ → UInt8) (s : Surface) (pos : Point) (ch : UInt8) (color : Color) (m : Images) :
    SameFrees m (s.renderChar font pos ch color m) := by
  unfold Surface.renderChar
  refine foldl (fun m j => foldl (fun m i => ?_) _ m) _ m
  simp only
  split_ifs
  · exact ⟨rfl,rfl⟩
  · exact refl m
  · exact refl m

end SameFrees

/-- A new surface has the next image. -/
lemma Surface.new_ok {rect : Rect} {fill : Color} {m m' : Images} {s : Surface} (h : Surface.new rect fill m = .ok (s,m')) :
    s.image = m.next ∧ m'.next = m.next + 1 ∧ m'.frees = m.frees := by
  obtain ⟨width,_,h⟩ := bind_ok h
  obtain ⟨height,_,h⟩ := bind_ok h
  obtain ⟨n,_,h⟩ := bind_ok h
  obtain ⟨size,_,h⟩ := bind_ok h
  obtain ⟨⟨image,m1⟩,halloc,h⟩ := bind_ok h
  obtain ⟨rfl,rfl⟩ := Prod.mk.inj (Except.ok.inj h)
  unfold allocImage at halloc
  split at halloc
  · obtain ⟨rfl,rfl⟩ := Prod.mk.inj (Except.ok.inj halloc)
    obtain ⟨h1,h2⟩ := SameFrees.fillUnsafe ⟨m.next,rect,asUsize width,fill⟩ rect fill { m with next := m.next + 1 }
    exact ⟨rfl,h1,h2⟩
  all_goals cases halloc

lemma Surface.selfBlit_frees (s : Surface) (rect : Rect) (p : Point) (m : Images) :
    (s.selfBlit rect p m).next = m.next ∧ (s.selfBlit rect p m).frees = m.frees ++ [s.image] := by
  obtain ⟨h1,h2⟩ := SameFrees.blit s rect s p m
  exact ⟨h1,by rw [← h2]; rfl⟩

namespace TextWriter
variable (font : ℕ → UInt8) (surface : Surface)

/-- The writer does not reach the bottom of the surface. -/
def NoScroll (rect : Rect) : Point → List UInt8 → Prop
  | _, [] => True
  | pos, b :: bs => (advance rect pos b).y < rect.br.y ∧ NoScroll rect (advance rect pos b) bs

/-- A byte is written without scrolling, or with one call of `self_blit`. -/
lemma writeByte_frees (pos : Point) (m : Images) (b : UInt8) :
    ((advance surface.rect pos b).y < surface.rect.br.y ∧
      (writeByte font surface (pos,m) b).1 = advance surface.rect pos b ∧
      SameFrees m (writeByte font surface (pos,m) b).2) ∨
    (surface.rect.br.y ≤ (advance surface.rect pos b).y ∧
      (writeByte font surface (pos,m) b).2.next = m.next ∧
      (writeByte font surface (pos,m) b).2.frees = m.frees ++ [surface.image]) := by
  have hr : SameFrees m (if b = NEWLINE then m else surface.renderChar font pos b Color.WHITE m) := by
    split_ifs
    · exact .refl m
    · exact .renderChar font surface pos b _ m
  by_cases hs : (advance surface.rect pos b).y ≥ surface.rect.br.y
  · obtain ⟨h1,h2⟩ := surface.selfBlit_frees surface.rect ⟨0,16⟩
      (if b = NEWLINE then m else surface.renderChar font pos b Color.WHITE m)
    refine Or.inr ⟨hs,?_⟩
    simp only [writeByte, if_pos hs]
    exact ⟨h1.trans hr.1,h2.trans (by rw [hr.2])⟩
  · refine Or.inl ⟨not_le.mp hs,?_⟩
    simp only [writeByte, if_neg hs]
    exact ⟨trivial,hr⟩

/-- The image is freed as often as the text scrolls. -/
lemma write_frees (bs : List UInt8) (pos : Point) (m : Images) :
    ∃ n, (bs.foldl (writeByte font surface) (pos,m)).2.next = m.next ∧
      (bs.foldl (writeByte font surface) (pos,m)).2.frees = m.frees ++ List.replicate n surface.image ∧
      (n = 0 ↔ NoScroll surface.rect pos bs) := by
  induction bs generalizing pos m with
  | nil => exact ⟨0,rfl,by simp,by simp [NoScroll]⟩
  | cons b bs ih =>
    rw [List.foldl_cons]
    obtain ⟨n,h1,h2,h3⟩ := ih (writeByte font surface (pos,m) b).1 (writeByte font surface (pos,m) b).2
    rcases writeByte_frees font surface pos m b with ⟨hy,hp,hn,hf⟩ | ⟨hy,hn,hf⟩
    · refine ⟨n,h1.trans hn,h2.trans (by rw [hf]),?_⟩
      rw [h3, hp, NoScroll]
      exact ⟨fun h => ⟨hy,h⟩,And.right⟩
    · refine ⟨n + 1,h1.trans hn,h2.trans ?_,?_⟩
      · rw [hf, List.append_assoc, List.replicate_succ]
        rfl
      · rw [NoScroll]
        exact ⟨fun h => by simp at h,fun h => absurd h.1 (not_lt.mpr hy)⟩

end TextWriter

namespace Surfaces
variable {font : ℕ → UInt8} {st st' : Surfaces} {op : SurfaceOp} {ops : List SurfaceOp}

/-- The operation neither is a `self_blit` nor scrolls a text. -/
def Clean (st : Surfaces) : SurfaceOp → Prop
  | .selfBlit _ _ _ => False
  | .write i chunks => ∀ surface, st.surfaces[i]? = some surface →
    TextWriter.NoScroll surface.rect st.pos (TextWriter.bytesOf chunks)
  | _ => True

def CleanRun (font : ℕ → UInt8) (st : Surfaces) : List SurfaceOp → Prop
  | [] => True
  | op :: ops => st.Clean op ∧ ∀ st', st.step font op = some st' → st'.CleanRun font ops

/-- What an operation can do to the surfaces in use and to the calls of `kernel_free`. -/
lemma step_cases (h : st.step font op = some st') :
    (st.Clean op ∧ st'.images.next = st.images.next + 1 ∧ st'.images.frees = st.images.frees ∧
      ∃ surface : Surface, surface.image = st.images.next ∧ st'.surfaces = st.surfaces ++ [surface]) ∨
    (st.Clean op ∧ SameFrees st.images st'.images ∧ st'.surfaces = st.surfaces) ∨
    (st.Clean op ∧ st'.images.next = st.images.next ∧ ∃ i surface, st.surfaces[i]? = some surface ∧
      st'.images.frees = st.images.frees ++ [surface.image] ∧ st'.surfaces = st.surfaces.eraseIdx i) ∨
    (¬st.Clean op ∧ st'.images.next = st.images.next ∧ st'.surfaces = st.surfaces ∧
      ∃ surface ∈ st.surfaces, ∃ n, st'.images.frees = st.images.frees ++ List.replicate (n + 1) surface.image) := by
  cases op with
  | new rect fill =>
    obtain ⟨⟨surface,images⟩,hnew,rfl⟩ := Option.map_eq_some_iff.mp h
    have hnew : Surface.new rect fill st.images = .ok (surface,images) := by
      cases hr : Surface.new rect fill st.images with
      | error e =>
        rw [hr] at hnew
        cases hnew
      | ok r =>
        rw [hr] at hnew
        exact congrArg Except.ok (Option.some.inj hnew)
    obtain ⟨h1,h2,h3⟩ := Surface.new_ok hnew
    exact Or.inl ⟨trivial,h2,h3,surface,h1,rfl⟩
  | fromRaw rect stride fill =>
    obtain rfl := Option.some.inj h
    exact Or.inl ⟨trivial,rfl,rfl,_,rfl,rfl⟩
  | fill i rect color =>
    obtain ⟨surface,_,rfl⟩ := Option.map_eq_some_iff.mp h
    exact Or.inr (Or.inl ⟨trivial,.fillRect surface rect color st.images,rfl⟩)
  | blit i j rect srcStart =>
    simp only [step] at h
    split_ifs at h
    obtain ⟨dst,_,h⟩ := Option.bind_eq_some_iff.mp h
    obtain ⟨src,_,rfl⟩ := Option.map_eq_some_iff.mp h
    exact Or.inr (Or.inl ⟨trivial,.blit dst rect src srcStart st.images,rfl⟩)
  | selfBlit i rect srcStart =>
    obtain ⟨surface,hi,rfl⟩ := Option.map_eq_some_iff.mp h
    obtain ⟨h1,h2⟩ := surface.selfBlit_frees rect srcStart st.images
    exact Or.inr (Or.inr (Or.inr ⟨id,h1,rfl,surface,List.mem_of_getElem? hi,0,h2⟩))
  | drop i =>
    obtain ⟨surface,hi,rfl⟩ := Option.map_eq_some_iff.mp h
    exact Or.inr (Or.inr (Or.inl ⟨trivial,rfl,i,surface,hi,rfl,rfl⟩))
  | write i chunks =>
    obtain ⟨surface,hi,rfl⟩ := Option.map_eq_some_iff.mp h
    have hclean : st.Clean (.write i chunks) ↔
        TextWriter.NoScroll surface.rect st.pos (TextWriter.bytesOf chunks) := by
      simp [Clean, hi]
    obtain ⟨n,h1,h2,h3⟩ := TextWriter.write_frees font surface (TextWriter.bytesOf chunks) st.pos st.images
    rw [← hclean] at h3
    cases n with
    | zero => exact Or.inr (Or.inl ⟨h3.mp rfl,⟨h1,h2.trans (List.append_nil _)⟩,rfl⟩)
    | succ n =>
      refine Or.inr (Or.inr (Or.inr ⟨fun hc => ?_,h1,rfl,surface,List.mem_of_getElem? hi,n,h2⟩))
      simpa using h3.mpr hc

/-- Every surface in use has its own image. -/
structure Inv (st : Surfaces) : Prop where
  nodup : (st.surfaces.map Surface.image).Nodup
  used : ∀ surface ∈ st.surfaces, surface.image < st.images.next
  freed : ∀ image ∈ st.images.frees, image < st.images.next

lemma map_eraseIdx_image {surfaces : List Surface} {i : ℕ} :
    (surfaces.eraseIdx i).map Surface.image = (surfaces.map Surface.image).eraseIdx i :=
  (List.eraseIdx_map _ _ _).symm

lemma Inv.step (h : st.Inv) (hs : st.step font op = some st') : st'.Inv := by
  rcases step_cases hs with ⟨_,hn,hf,s,hs,hl⟩ | ⟨_,⟨hn,hf⟩,hl⟩ | ⟨_,hn,i,s,hi,hf,hl⟩ | ⟨_,hn,hl,s,hs,n,hf⟩
  · refine ⟨?_,fun t ht => ?_,fun image hm => ?_⟩
    · rw [hl, List.map_append, List.nodup_append]
      refine ⟨h.nodup,by simp,fun a ha b hb => ?_⟩
      obtain ⟨t,ht,rfl⟩ := List.mem_map.mp ha
      obtain rfl : b = s.image := by simpa using hb
      exact (hs ▸ h.used t ht).ne
    · rw [hl, List.mem_append, List.mem_singleton] at ht
      rcases ht with ht | rfl
      · exact (h.used t ht).trans (by omega)
      · omega
    · rw [hf] at hm
      exact (h.freed image hm).trans (by omega)
  · exact ⟨hl ▸ h.nodup,fun t ht => hn ▸ h.used t (hl ▸ ht),fun image hm => hn ▸ h.freed image (hf ▸ hm)⟩
  · refine ⟨?_,fun t ht => ?_,fun image hm => ?_⟩
    · rw [hl, map_eraseIdx_image]
      exact h.nodup.sublist (List.eraseIdx_sublist _ _)
    · rw [hl] at ht
      exact hn ▸ h.used t (List.mem_of_mem_eraseIdx ht)
    · rw [hf, List.mem_append, List.mem_singleton] at hm
      rcases hm with hm | rfl
      · exact hn ▸ h.freed image hm
      · exact hn ▸ h.used s (List.mem_of_getElem? hi)
  · refine ⟨hl ▸ h.nodup,fun t ht => hn ▸ h.used t (hl ▸ ht),fun image hm => ?_⟩
    rw [hf, List.mem_append] at hm
    rcases hm with hm | hm
    · exact hn ▸ h.freed image hm
    · exact hn ▸ List.eq_of_mem_replicate hm ▸ h.used s hs

/-- The images of the surfaces in use, after one of them was dropped. -/
lemma Inv.mem_erase (h : st.Inv) {i : ℕ} {surface : Surface} (hi : st.surfaces[i]? = some surface) (image : ℕ) :
    image ∈ (st.surfaces.eraseIdx i).map Surface.image ↔
      image ∈ st.surfaces.map Surface.image ∧ image ≠ surface.image := by
  have hi' : (st.surfaces.map Surface.image)[i]? = some surface.image := by simp [hi]
  obtain ⟨hlt,hget⟩ := List.getElem?_eq_some_iff.mp hi'
  rw [map_eraseIdx_image, ← hget, ← List.Nodup.erase_getElem h.nodup, h.nodup.mem_erase_iff]
  exact and_comm

lemma FreedByOwner.step (h : st.FreedByOwner) (hinv : st.Inv) (hs : st.step font op = some st')
    (hc : st.Clean op) : st'.FreedByOwner := by
  rcases step_cases hs with ⟨_,hn,hf,s,hs,hl⟩ | ⟨_,⟨hn,hf⟩,hl⟩ | ⟨_,hn,i,s,hi,hf,hl⟩ | ⟨hc',_⟩
  · refine ⟨fun t ht => ?_,fun image hlt hnot => ?_⟩
    · rw [hl, List.mem_append, List.mem_singleton] at ht
      rw [hf]
      rcases ht with ht | rfl
      · exact h.in_use t ht
      · exact fun hm => (hinv.freed _ hm).ne hs
    · rw [hl, List.map_append, List.mem_append, not_or] at hnot
      have hne : image ≠ st.images.next := by simpa [hs] using hnot.2
      rw [hf]
      exact h.dropped image (by omega) hnot.1
  · refine ⟨fun t ht => hf ▸ h.in_use t (hl ▸ ht),fun image hlt hnot => ?_⟩
    rw [hf]
    exact h.dropped image (hn ▸ hlt) (hl ▸ hnot)
  · refine ⟨fun t ht => ?_,fun image hlt hnot => ?_⟩
    · have hm := (hinv.mem_erase hi t.image).mp (hl ▸ List.mem_map_of_mem ht)
      obtain ⟨u,hu,hui⟩ := List.mem_map.mp hm.1
      have hnot := h.in_use u hu
      rw [hui] at hnot
      simp [hf, hnot, hm.2]
    · rw [hl, hinv.mem_erase hi] at hnot
      rw [hf, List.count_append]
      by_cases he : image = s.image
      · have := h.in_use s (List.mem_of_getElem? hi)
        simp [he, List.count_eq_zero_of_not_mem this]
      · have := h.dropped image (hn ▸ hlt) fun hm => hnot ⟨hm,he⟩
        simp [this, Ne.symm he]
  · exact absurd hc hc'

/-- An image that was freed too often. -/
def Spoiled (st : Surfaces) : Prop := ∃ image < st.images.next,
  (image ∈ st.surfaces.map Surface.image ∧ 0 < st.images.frees.count image) ∨ 1 < st.images.frees.count image

lemma Spoiled.not_freedByOwner (h : st.Spoiled) : ¬st.FreedByOwner := by
  rintro ⟨huse,hdrop⟩
  obtain ⟨image,hlt,hcases⟩ := h
  by_cases hm : image ∈ st.surfaces.map Surface.image
  · obtain ⟨t,ht,rfl⟩ := List.mem_map.mp hm
    have := List.count_eq_zero_of_not_mem (huse t ht)
    omega
  · have := hdrop image hlt hm
    rcases hcases with ⟨hm',_⟩ | hc
    · exact hm hm'
    · omega

/-- What is spoiled stays so, and becomes so by every step that is not clean. -/
lemma Inv.spoiled_step (hinv : st.Inv) (hs : st.step font op = some st') (h : st.Spoiled ∨ ¬st.Clean op) :
    st'.Spoiled := by
  rcases step_cases hs with ⟨hc,hn,hf,s,hs,hl⟩ | ⟨hc,⟨hn,hf⟩,hl⟩ | ⟨hc,hn,i,s,hi,hf,hl⟩ | ⟨hc,hn,hl,s,hs,n,hf⟩
  · obtain ⟨image,hlt,hcases⟩ := h.resolve_right (not_not.mpr hc)
    exact ⟨image,by omega,hf ▸ hcases.imp_left (And.imp_left fun hm => by simp [hl, List.mem_map.mp hm])⟩
  · obtain ⟨image,hlt,hcases⟩ := h.resolve_right (not_not.mpr hc)
    exact ⟨image,hn ▸ hlt,by rw [hl, hf]; exact hcases⟩
  · obtain ⟨image,hlt,hcases⟩ := h.resolve_right (not_not.mpr hc)
    refine ⟨image,hn ▸ hlt,?_⟩
    rw [hl, hinv.mem_erase hi, hf, List.count_append]
    by_cases he : image = s.image
    · right
      simp only [he, List.count_singleton_self]
      rcases hcases with ⟨_,hc⟩ | hc <;> rw [he] at hc <;> omega
    · rcases hcases with ⟨hm,hc⟩ | hc
      · exact Or.inl ⟨⟨hm,he⟩,by omega⟩
      · exact Or.inr (by omega)
  · refine ⟨s.image,hn ▸ hinv.used s hs,Or.inl ⟨hl ▸ List.mem_map_of_mem hs,?_⟩⟩
    rw [hf, List.count_append, List.count_replicate_self]
    omega

lemma run_freedByOwner (hinv : st.Inv) (hr : st.run font ops = some st') :
    (st.FreedByOwner → st.CleanRun font ops → st'.FreedByOwner) ∧
      (st.Spoiled ∨ ¬st.CleanRun font ops → st'.Spoiled) := by
  induction ops generalizing st with
  | nil =>
    obtain rfl := Option.some.inj hr
    exact ⟨fun h _ => h,fun h => h.resolve_right (not_not.mpr trivial)⟩
  | cons op ops ih =>
    obtain ⟨st1,hs,hr⟩ := Option.bind_eq_some_iff.mp hr
    obtain ⟨h1,h2⟩ := ih (hinv.step hs) hr
    refine ⟨fun h hc => h1 (h.step hinv hs hc.1) (hc.2 st1 hs),fun h => h2 ?_⟩
    by_cases hsp : st.Spoiled ∨ ¬st.Clean op
    · exact Or.inl (hinv.spoiled_step hs hsp)
    · rw [not_or, not_not] at hsp
      refine Or.inr fun hrun => (h.resolve_left hsp.1) ⟨hsp.2,fun st2 hs2 => ?_⟩
      obtain rfl := Option.some.inj (hs.symm.trans hs2)
      exact hrun

/-- After a run every image was freed by its owner alone exactly if no operation of the run was a
`self_blit`, and no text was scrolled by one. -/
theorem freed_by_owner_iff (memory : Images) (hr : (init memory).run font ops = some st) :
    st.FreedByOwner ↔ (init memory).CleanRun font ops := by
  have hinv : (init memory).Inv := ⟨List.nodup_nil,by simp [init],by simp [init]⟩
  have hfree : (init memory).FreedByOwner := ⟨by simp [init],by simp [init]⟩
  obtain ⟨h1,h2⟩ := run_freedByOwner hinv hr
  constructor
  · intro h
    by_contra hc
    exact (h2 (Or.inr hc)).not_freedByOwner h
  · exact h1 hfree

/-- Memory that is black, and enough of it. -/
def blackMemory : Images := ⟨fun _ _ => .BLACK,0,[],fun _ _ => none,fun _ _ => .BLACK⟩

/-- A surface of two lines of text, of which one is written. -/
theorem freed_by_owner_iff_line : ∃ st, (init blackMemory).run (fun _ => 0)
    [.new (.new 0 0 8 32) Color.BLACK,.write 0 [("\n",false)]] = some st ∧ st.FreedByOwner := by
  have hr : (init blackMemory).run (fun _ => 0)
    [.new (.new 0 0 8 32) Color.BLACK,.write 0 [("\n",false)]] = some _ := rfl
  refine ⟨_,hr,(freed_by_owner_iff _ hr).mpr ⟨trivial,fun st1 hs => ⟨?_,fun _ _ => trivial⟩⟩⟩
  obtain rfl := Option.some.inj hs
  intro surface hsurf
  obtain rfl : (⟨0,.new 0 0 8 32,8,Color.BLACK⟩ : Surface) = surface := Option.some.inj hsurf
  exact ⟨by decide,trivial⟩

/-- Scrolling frees the image of a surface that is in use, and its drop frees it again. -/
theorem scroll_frees_twice : ∃ st st', (init blackMemory).run (fun _ => 0)
      [.new (.new 0 0 8 16) Color.BLACK,.write 0 [("\n",false)]] = some st ∧
    (∃ surface ∈ st.surfaces, surface.image ∈ st.images.frees) ∧
    st.run (fun _ => 0) [.drop 0] = some st' ∧ st'.images.frees = [0,0] ∧ ¬st.FreedByOwner ∧ ¬st'.FreedByOwner := by
  refine ⟨_,_,rfl,⟨_,List.mem_singleton_self _,List.mem_singleton_self 0⟩,rfl,rfl,fun h => ?_,fun h => ?_⟩
  · exact h.in_use _ (List.mem_singleton_self _) (List.mem_singleton_self 0)
  · have : List.count 0 [0,0] = 1 := h.dropped 0 Nat.zero_lt_one List.not_mem_nil
    simp at this

end Surfaces

end Lilith.Draw
