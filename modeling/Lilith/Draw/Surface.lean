import Lilith.Draw.Model

/-! Surfaces (`surface.rs`): rectangles of pixels in memory that `kernel_alloc` gave out, filled, copied
and freed. An image is known by the number of its allocation, so that memory that is used again is
another image. Coordinates are integers; the range of `i32` is checked where a new surface is measured. -/
namespace Lilith.Draw

structure Color where
  r : UInt8
  g : UInt8
  b : UInt8
  a : UInt8
  deriving DecidableEq, Repr

def Color.BLACK : Color := ⟨0,0,0,0xff⟩
def Color.WHITE : Color := ⟨0xff,0xff,0xff,0xff⟩

instance : Add Point := ⟨fun p q => ⟨p.x + q.x,p.y + q.y⟩⟩
instance : Sub Point := ⟨fun p q => ⟨p.x - q.x,p.y - q.y⟩⟩

def Point.ZERO : Point := ⟨0,0⟩

namespace Rect

def new (x0 y0 x1 y1 : ℤ) : Rect := ⟨⟨x0,y0⟩,⟨x1,y1⟩⟩

def width (self : Rect) : ℤ := self.br.x - self.tl.x

def height (self : Rect) : ℤ := self.br.y - self.tl.y

def size (self : Rect) : Point := ⟨self.width,self.height⟩

def containsPoint (self : Rect) (pt : Point) : Bool :=
  self.tl.x ≤ pt.x ∧ pt.x < self.br.x ∧ self.tl.y ≤ pt.y ∧ pt.y < self.br.y

def intersect (self boundary : Rect) : Option Rect :=
  let tlX := max self.tl.x boundary.tl.x
  let tlY := max self.tl.y boundary.tl.y
  let brX := min self.br.x boundary.br.x
  let brY := min self.br.y boundary.br.y
  if tlX < brX ∧ tlY < brY then some (new tlX tlY brX brY) else none

end Rect

structure Surface where
  image : ℕ
  rect : Rect
  stride : ℕ
  fill : Color
  deriving DecidableEq, Repr

/-- The memory of all images, and the calls of `kernel_free` on them. What the allocators do is not known here. -/
structure Images where
  pixels : ℕ → ℕ → Color
  /-- the number of images so far -/
  next : ℕ
  frees : List ℕ
  /-- the error of `kernel_alloc` for the image with a number and a size in bytes, if there is no memory for it -/
  refuses : ℕ → ℕ → Option MemoryError
  /-- what `kernel_free` leaves in the memory of an image: links of its free lists, or what the next owner writes -/
  left : ℕ → ℕ → Color

namespace Images

/-- `fill` of a slice of pixels. -/
def fillSlice (m : Images) (image start width : ℕ) (color : Color) : Images :=
  { m with pixels := fun i o => if i = image ∧ start ≤ o ∧ o < start + width then color else m.pixels i o }

/-- `core::ptr::copy`, which reads all of its source first. -/
def copy (m : Images) (src srcStart dst dstStart width : ℕ) : Images :=
  { m with pixels := fun i o =>
      if i = dst ∧ dstStart ≤ o ∧ o < dstStart + width then m.pixels src (srcStart + (o - dstStart))
      else m.pixels i o }

/-- `kernel_free` of an image. The memory belongs to the allocators then, also if they panic since it never was theirs. -/
def kernelFree (m : Images) (image : ℕ) : Images :=
  { m with pixels := fun i o => if i = image then m.left i o else m.pixels i o, frees := m.frees ++ [image] }

end Images

/-- The result of a subtraction of `i32` values. -/
def asI32 (x : ℤ) : Except Fault ℤ := if -2^31 ≤ x ∧ x < 2^31 then .ok x else .error .overflow

/-- The cast of an `i32` to `usize`. -/
def asUsize (x : ℤ) : ℕ := (x % 2^64).toNat

namespace Surface

/-- The place of a pixel in the image, `image_ptr_unsafe`. -/
def offset (self : Surface) (p : Point) : ℕ :=
  (p.y - self.rect.tl.y).toNat * self.stride + (p.x - self.rect.tl.x).toNat

def fillUnsafe (self : Surface) (dstRect : Rect) (color : Color) (m : Images) : Images :=
  (List.range dstRect.height.toNat).foldl (fun m (y : ℕ) =>
    m.fillSlice self.image (self.offset ⟨dstRect.tl.x,dstRect.tl.y + y⟩) dstRect.width.toNat color) m

/-- `fill` -/
def fillRect (self : Surface) (dstRect : Rect) (color : Color) (m : Images) : Images :=
  match dstRect.intersect self.rect with
  | some rect => self.fillUnsafe rect color m
  | none => m

/-- One row of `blit_unsafe`. -/
def blitRow (self : Surface) (dstStart : Point) (src : Surface) (srcStart : Point) (width : ℤ) (m : Images)
    (y : ℕ) : Images :=
  m.copy src.image (src.offset ⟨srcStart.x,srcStart.y + y⟩) self.image
    (self.offset ⟨dstStart.x,dstStart.y + y⟩) width.toNat

def blitUnsafe (self : Surface) (dstStart : Point) (src : Surface) (srcStart : Point) (width height : ℤ)
    (m : Images) : Images :=
  if self.image = src.image ∧ dstStart.y > srcStart.y then
    (List.range height.toNat).reverse.foldl (self.blitRow dstStart src srcStart width) m
  else (List.range height.toNat).foldl (self.blitRow dstStart src srcStart width) m

/-- The four fills around the part of `dst_rect` that has a source. -/
def fillAround (self : Surface) (dstRect : Rect) (tl br : Point) (color : Color) (m : Images) : Images :=
  let m := if dstRect.tl.y < tl.y then
    self.fillUnsafe (.new dstRect.tl.x dstRect.tl.y dstRect.br.x tl.y) color m else m
  let m := if dstRect.tl.x < tl.x then
    self.fillUnsafe (.new dstRect.tl.x tl.y tl.x br.y) color m else m
  let m := if br.x < dstRect.br.x then
    self.fillUnsafe (.new br.x tl.y dstRect.br.x br.y) color m else m
  if br.y < dstRect.br.y then
    self.fillUnsafe (.new dstRect.tl.x br.y dstRect.br.x dstRect.br.y) color m else m

def blit (self : Surface) (dstRect : Rect) (src : Surface) (srcStart : Point) (m : Images) : Images :=
  match dstRect.intersect self.rect with
  | none => m
  | some clampedDstRect =>
    let srcStart := srcStart + (clampedDstRect.tl - dstRect.tl)
    let dstRect := clampedDstRect
    match (Rect.mk srcStart (srcStart + dstRect.size)).intersect src.rect with
    | none => self.fillUnsafe dstRect src.fill m
    | some blitSrc =>
      let blitDstTl := dstRect.tl + (blitSrc.tl - srcStart)
      let blitDstBr := blitDstTl + blitSrc.size
      let m := self.blitUnsafe blitDstTl src blitSrc.tl blitSrc.width blitSrc.height m
      self.fillAround dstRect blitDstTl blitDstBr src.fill m

/-- `Drop for Surface` -/
def drop (self : Surface) (m : Images) : Images := m.kernelFree self.image

/-- `self_blit`, whose second surface over the image is dropped at its end. -/
def selfBlit (self : Surface) (dstRect : Rect) (srcStart : Point) (m : Images) : Images :=
  let src : Surface := ⟨self.image,self.rect,self.stride,self.fill⟩
  src.drop (self.blit dstRect src srcStart m)

/-- The size of `Layout::new::<Color>().repeat(n).unwrap()`. -/
def repeatColor (n : ℕ) : Except Fault ℕ :=
  if 4*n < 2^63 then .ok (4*n)
  else .error (.panic "called `Result::unwrap()` on an `Err` value: LayoutError")

/-- `kernel_alloc(layout).unwrap()` for a new image. -/
def allocImage (m : Images) (size : ℕ) : Except Fault (ℕ × Images) :=
  match m.refuses m.next size with
  | none => .ok (m.next,{ m with next := m.next + 1 })
  | some .outOfMemory => .error (.panic "called `Result::unwrap()` on an `Err` value: OutOfMemory")
  | some .outOfVirtual => .error (.panic "called `Result::unwrap()` on an `Err` value: OutOfVirtual")
  | some .sizeTooBig => .error (.panic "called `Result::unwrap()` on an `Err` value: SizeTooBig")

/-- `Surface::new` -/
def new (rect : Rect) (fill : Color) (m : Images) : Except Fault (Surface × Images) := do
  let width ← asI32 rect.width
  let height ← asI32 rect.height
  let size ← repeatColor (← checkedMul (asUsize width) (asUsize height))
  let (image,m) ← allocImage m size
  let surface : Surface := ⟨image,rect,asUsize width,fill⟩
  return (surface,surface.fillUnsafe rect fill m)

/-- `Surface::from_raw`, which takes ownership of an image that no surface has. -/
def fromRaw (rect : Rect) (stride : ℕ) (fill : Color) (m : Images) : Surface × Images :=
  (⟨m.next,rect,stride,fill⟩,{ m with next := m.next + 1 })

end Surface

end Lilith.Draw
