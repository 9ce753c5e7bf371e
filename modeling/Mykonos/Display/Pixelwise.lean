import Mykonos.Display.Drawing

/-! # Bitmaps pixel by pixel

A bitmap can be drawn one pixel at a time. `writeBitmap` clips the bitmap first and then
takes its rows to be as long as what is left of them, so that both ways draw the same picture
only where nothing of a row that counts is cut off.
-/

namespace Mykonos.Display

open Lib Util

namespace FrameBuffer

variable {frameBuffer : FrameBuffer} {memory memory' memory'' : Nat → UInt8}

/-- A bit of a bitmap with rows of so many bytes. -/
def bitmapBit (bytesPerBitmapLine : Nat) (bitmap : Nat → UInt8) (i j : Nat) : Bool :=
  (bitmap (j * bytesPerBitmapLine + i / 8)).toNat.testBit (7 - i % 8)

def bitmapColour (bytesPerBitmapLine : Nat) (bitmap : Nat → UInt8)
    (foreground background : Pixel) (i j : Nat) :
    Pixel :=
  if bitmapBit bytesPerBitmapLine bitmap i j then foreground else background

/-- Each bit of the bitmap is drawn with `writePixel`. -/
def drawPixels (frameBuffer : FrameBuffer) (x y width height : Nat) (bitmap : Nat → UInt8)
    (foreground background : Pixel) (memory : Nat → UInt8) : Nat → UInt8 :=
  (List.range height).foldl (fun memory j =>
    (List.range width).foldl (fun memory i =>
      frameBuffer.writePixel (x + i) (y + j)
        (bitmapColour ((width + 7) / 8) bitmap foreground background i j) memory)
      memory) memory

theorem coloured_inj {pixel pixel' : Pixel} (old : Nat → UInt8)
    (same : ∀ k < 3, coloured pixel old k = coloured pixel' old k) : pixel = pixel' := by
  have blue : pixel.b = pixel'.b := same 0 (by decide)
  have green : pixel.g = pixel'.g := same 1 (by decide)
  have red : pixel.r = pixel'.r := same 2 (by decide)
  cases pixel
  cases pixel'
  exact Pixel.mk.injEq .. ▸ ⟨red, green, blue⟩

/-- The pixels get colours, and keep their fourth byte if there is one. -/
def Paints (frameBuffer : FrameBuffer) (points : Nat → Nat → Prop) (colour : Nat → Nat → Pixel)
    (memory memory' : Nat → UInt8) : Prop :=
  frameBuffer.Sets points
    (fun x y => coloured (colour x y) fun k =>
      memory (frameBuffer.backBuffer + (frameBuffer.place x y + k))) memory
    memory'

namespace Paints

variable {points points' : Nat → Nat → Prop} {colour colour' : Nat → Nat → Pixel}

theorem congr (paints : frameBuffer.Paints points colour memory memory')
    (points_iff : ∀ x < frameBuffer.width, ∀ y < frameBuffer.height, points x y ↔ points' x y)
    (same : ∀ x < frameBuffer.width, ∀ y < frameBuffer.height, points x y →
      colour x y = colour' x y) :
    frameBuffer.Paints points' colour' memory memory' := by
  refine Sets.congr paints points_iff fun x left y top point k _ => ?_
  rw [same x left y top point]

theorem none (none : ∀ x < frameBuffer.width, ∀ y < frameBuffer.height, ¬ points x y)
    (colour : Nat → Nat → Pixel) (memory : Nat → UInt8) :
    frameBuffer.Paints points colour memory memory :=
  sets_none none _ memory

theorem append (first : frameBuffer.Paints points colour memory memory')
    (second : frameBuffer.Paints points' colour memory' memory'') (placed : frameBuffer.Placed)
    (different : ∀ x y, points x y → ¬ points' x y) :
    frameBuffer.Paints (fun x y => points x y ∨ points' x y) colour memory memory'' := by
  refine Sets.append first (Sets.congr second (fun _ _ _ _ => Iff.rfl) ?_) placed different
  intro x left y top point k byte
  rw [coloured, coloured]
  congr 1
  exact first.other placed (.inl rfl) left top byte fun early => different x y early point

/-- The colours of the pixels can be read back. -/
theorem eq_iff (paints : frameBuffer.Paints points colour memory memory')
    (paints' : frameBuffer.Paints points colour' memory memory'')
    (geometry : frameBuffer.Geometry) :
    memory' = memory'' ↔
      ∀ x < frameBuffer.width, ∀ y < frameBuffer.height, points x y → colour x y = colour' x y := by
  constructor
  · intro same x left y top point
    have wide := geometry.wide
    refine coloured_inj (fun k => memory (frameBuffer.backBuffer + (frameBuffer.place x y + k)))
      fun k byte => ?_
    rw [← paints.inside _ (.inl rfl) x left y top point k (by omega), same]
    exact paints'.inside _ (.inl rfl) x left y top point k (by omega)
  · intro same
    exact Sets.unique (paints.congr (fun _ _ _ _ => Iff.rfl) same) paints'

end Paints

theorem Placed.writePixel_paints (placed : frameBuffer.Placed) (x y : Nat) (pixel : Pixel)
    (memory : Nat → UInt8) :
    frameBuffer.Paints (fun px py => px = x ∧ py = y) (fun _ _ => pixel) memory
      (frameBuffer.writePixel x y pixel memory) := by
  have wide := placed.geometry.wide
  rw [writePixel]
  split
  · rename_i inside
    have length : pixel.bytes.length = 3 := rfl
    rw [placed.geometry.pixelOffset_eq inside.1 inside.2]
    dsimp only
    have flushed := @placed.sets_flushed _ memory
      (overwrite memory (frameBuffer.backBuffer + frameBuffer.place x y) pixel.bytes) x y 1
      inside.1 inside.2
      (fun _ => coloured pixel fun k =>
        memory (frameBuffer.backBuffer + (frameBuffer.place x y + k))) ?_ ?_
    · rw [Nat.one_mul] at flushed
      refine flushed.congr (fun px _ py _ => ?_) fun px _ py _ point k _ => ?_
      · rw [Within]
        omega
      · obtain ⟨⟨least, most⟩, row, row'⟩ := point
        obtain rfl : px = x := by omega
        obtain rfl : py = y := by omega
        rfl
    · intro i first k byte
      obtain rfl : i = 0 := by omega
      rw [Nat.zero_mul, Nat.zero_add, overwrite, if_pos (by omega), Nat.add_sub_cancel_left,
        coloured, Nat.add_assoc]
    · intro other outside
      exact overwrite_of_outside (by omega)
  · rename_i off
    refine Paints.none ?_ _ memory
    rintro px left py top ⟨rfl, rfl⟩
    exact off ⟨left, top⟩

/-- The first row of a rectangle, and the others. -/
theorem within_succ (x y width height px py : Nat) :
    Within x y width (height + 1) px py ↔
      Within x y width 1 px py ∨ Within x (y + 1) width height px py := by
  rw [Within, Within, Within]
  omega

theorem within_last (x y width height px py : Nat) :
    Within x y width (height + 1) px py ↔
      Within x y width height px py ∨ Within x (y + height) width 1 px py := by
  rw [Within, Within, Within]
  omega

/-- Pixels drawn one by one, in a row. -/
theorem Placed.drawLine_paints (placed : frameBuffer.Placed) (x y width : Nat)
    (colour : Nat → Pixel) (memory : Nat → UInt8) :
    frameBuffer.Paints (Within x y width 1) (fun px _ => colour (px - x)) memory
      ((List.range width).foldl (fun memory i => frameBuffer.writePixel (x + i) y (colour i) memory)
        memory) := by
  induction width with
  | zero => exact Paints.none (fun px _ py _ => not_within (.inl rfl) px py) _ memory
  | succ width ih =>
      rw [List.range_succ, List.foldl_append, List.foldl_cons, List.foldl_nil]
      refine (ih.append ((placed.writePixel_paints (x + width) y (colour width) _).congr
        (fun _ _ _ _ => Iff.rfl) ?_)
        placed ?_).congr ?_ fun _ _ _ _ _ => rfl
      · rintro px _ py _ ⟨rfl, rfl⟩
        rw [Nat.add_sub_cancel_left]
      · intro px py early late
        rw [Within] at early
        omega
      · intro px _ py _
        rw [Within, Within]
        omega

/-- And in a rectangle. -/
theorem Placed.drawPixels_paints (placed : frameBuffer.Placed) (x y width height : Nat)
    (bitmap : Nat → UInt8) (foreground background : Pixel) (memory : Nat → UInt8) :
    frameBuffer.Paints (Within x y width height)
      (fun px py => bitmapColour ((width + 7) / 8) bitmap foreground background (px - x) (py - y))
      memory
      (frameBuffer.drawPixels x y width height bitmap foreground background memory) := by
  rw [drawPixels]
  induction height with
  | zero => exact Paints.none (fun px _ py _ => not_within (.inr rfl) px py) _ memory
  | succ height ih =>
      rw [List.range_succ, List.foldl_append, List.foldl_cons, List.foldl_nil]
      have line := placed.drawLine_paints x (y + height) width
        (bitmapColour ((width + 7) / 8) bitmap foreground background · height)
      refine (ih.append ((line _).congr (fun _ _ _ _ => Iff.rfl) ?_) placed ?_).congr ?_
        fun _ _ _ _ _ => rfl
      · rintro px _ py _ ⟨_, row, row'⟩
        obtain rfl : py = y + height := by omega
        rw [Nat.add_sub_cancel_left]
      · intro px py early late
        rw [Within] at early late
        omega
      · intro px _ py _
        exact (within_last x y width height px py).symm

/-- A line of a bitmap, drawn and copied to the frame buffer. -/
theorem Placed.bitmapLine_paints (placed : frameBuffer.Placed) {x y width : Nat}
    (right : x + width ≤ frameBuffer.width) (top : y < frameBuffer.height)
    (bitmapLine : Nat → UInt8) (foreground background : Pixel) (memory : Nat → UInt8) :
    frameBuffer.Paints (Within x y width 1)
      (fun px _ => bitmapPixel bitmapLine (px - x) foreground background) memory
      (memcpy (frameBuffer.writeBitmapLine bitmapLine foreground background
          (frameBuffer.backBuffer + frameBuffer.place x y) width 0 memory)
        (frameBuffer.pointer + frameBuffer.place x y)
        (frameBuffer.backBuffer + frameBuffer.place x y) (width * frameBuffer.bytesPerPixel)) := by
  have wide := placed.geometry.wide
  have line := placed.geometry.line_le right top
  have size := placed.geometry.size
  have sum : 0 + width = width := Nat.zero_add width
  have short : (0 + width) * frameBuffer.bytesPerPixel < 2 ^ 32 := by
    rw [sum]
    omega
  refine Sets.congr
    (placed.sets_flushed right top _
      (fun i left k byte => writeBitmapLine_of_inside memory bitmapLine foreground background _
        wide short (Nat.zero_le i) (by omega) byte)
      fun other outside => ?_)
    (fun _ _ _ _ => Iff.rfl) ?_
  · exact writeBitmapLine_of_outside wide short (by rw [sum]; omega)
  · rintro px _ py _ ⟨⟨least, most⟩, row, row'⟩ k _
    obtain rfl : py = y := by omega
    have column : x + (px - x) = px := by omega
    have place := frameBuffer.place_add x py (px - x)
    rw [column] at place
    dsimp only
    rw [place]
    congr 1
    funext k
    congr 1
    omega

theorem Placed.writeBitmapLines_paints (placed : frameBuffer.Placed)
    {initialX initialY width count y : Nat} (bytesPerBitmapLine : Nat) (bitmap : Nat → UInt8)
    (foreground background : Pixel) (memory : Nat → UInt8)
    (right : initialX + width ≤ frameBuffer.width) (some_pixel : 0 < width)
    (bottom : y + initialY + count ≤ frameBuffer.height)
    (small : (y + count) * bytesPerBitmapLine < 2 ^ 32) :
    frameBuffer.Paints (Within initialX (y + initialY) width count)
      (fun px py => bitmapColour bytesPerBitmapLine bitmap foreground background (px - initialX)
        (py - initialY)) memory
      (frameBuffer.writeBitmapLines initialX initialY width bytesPerBitmapLine bitmap foreground
        background count y memory) := by
  induction count generalizing y memory with
  | zero => exact Paints.none (fun px _ py _ => not_within (.inr rfl) px py) _ memory
  | succ count ih =>
      have next : y + (count + 1) = y + 1 + count := by omega
      have below : y + 1 + initialY = y + initialY + 1 := by omega
      have row : y * bytesPerBitmapLine % 2 ^ 32 = y * bytesPerBitmapLine :=
        Nat.mod_eq_of_lt (Nat.lt_of_le_of_lt (Nat.mul_le_mul_right _ (Nat.le_add_right _ _)) small)
      rw [next] at small
      rw [writeBitmapLines, placed.geometry.pixelOffset_eq (by omega) (by omega), row,
        Nat.mul_comm frameBuffer.bytesPerPixel, placed.geometry.line_bytes right (by omega)]
      have line := placed.bitmapLine_paints right (show y + initialY < frameBuffer.height by omega)
        (fun i => bitmap (y * bytesPerBitmapLine + i)) foreground background memory
      have rest := fun drawn => ih drawn (by omega) small
      rw [below] at rest
      refine ((line.congr (fun _ _ _ _ => Iff.rfl) ?_).append (rest _) placed ?_).congr ?_
        fun _ _ _ _ _ => rfl
      · rintro px _ py _ ⟨_, least, most⟩
        have line_number : py - initialY = y := by omega
        rw [line_number]
        rfl
      · intro px py early late
        rw [Within] at early late
        omega
      · intro px _ py _
        exact (within_succ initialX (y + initialY) width count px py).symm

/-! ## Both ways of drawing -/

section Clipped

variable {x y width height : Nat}

/-- What is left of a rectangle whose sides do not wrap around. -/
theorem clipRectangle_within (across : x + width < 2 ^ 32)
    (down : y + height < 2 ^ 32) {px py : Nat} (left : px < frameBuffer.width)
    (top : py < frameBuffer.height) :
    let clipped := frameBuffer.clipRectangle x y width height
    Within x y clipped.1 clipped.2 px py ↔ Within x y width height px py := by
  dsimp only
  by_cases off : frameBuffer.width ≤ x ∨ frameBuffer.height ≤ y
  · have none := clipRectangle_off width height off
    rw [Within, Within]
    omega
  · rw [clipRectangle_fits (by omega) (by omega) across down, Within, Within]
    omega

/-- The rows are read as if they were as long as what is left of them. -/
theorem Placed.writeBitmap_paints (placed : frameBuffer.Placed) (across : x + width < 2 ^ 32)
    (down : y + height < 2 ^ 32) (bitmap : Nat → UInt8) (foreground background : Pixel)
    (memory : Nat → UInt8) :
    frameBuffer.Paints (Within x y width height)
      (fun px py => bitmapColour ((min width (frameBuffer.width - x) + 7) / 8) bitmap
        foreground background (px - x) (py - y))
      memory (frameBuffer.writeBitmap x y width height bitmap foreground background memory) := by
  have within := @clipRectangle_within frameBuffer x y width height across down
  by_cases off : frameBuffer.width ≤ x ∨ frameBuffer.height ≤ y
  · have none := clipRectangle_off width height off
    rw [writeBitmap]
    dsimp only
    rw [if_pos none]
    refine Paints.none (fun px left py top inside => ?_) _ memory
    rw [Within] at inside
    omega
  have narrow := placed.geometry.narrow (by omega)
  rw [clipRectangle_fits (by omega) (by omega) across down] at within
  rw [writeBitmap, clipRectangle_fits (by omega) (by omega) across down]
  dsimp only at within ⊢
  split
  · rename_i empty
    exact Paints.none (fun px left py top inside =>
      not_within empty px py ((within left top).mpr inside)) _ memory
  · rename_i filled
    have stride :
        (min width (frameBuffer.width - x) + 7) % 2 ^ 32 / 8 =
          (min width (frameBuffer.width - x) + 7) / 8 := by
      rw [Nat.mod_eq_of_lt (by omega)]
    have small :
        (0 + min height (frameBuffer.height - y)) * ((min width (frameBuffer.width - x) + 7) / 8) <
          2 ^ 32 := by
      refine Nat.lt_of_le_of_lt ?_ placed.geometry.size
      rw [Nat.mul_comm]
      refine Nat.mul_le_mul (Nat.le_trans ?_ placed.geometry.pitch) (by omega)
      exact Nat.le_trans (show _ ≤ frameBuffer.width by omega)
        (Nat.le_mul_of_pos_right _ (Nat.lt_of_lt_of_le (by decide) placed.geometry.wide))
    have lines := placed.writeBitmapLines_paints _ bitmap foreground background memory
      (show x + min width (frameBuffer.width - x) ≤ frameBuffer.width by omega) (by omega)
      (show 0 + y + min height (frameBuffer.height - y) ≤ frameBuffer.height by omega) small
    rw [Nat.zero_add] at lines
    rw [stride]
    exact lines.congr (fun px left py top => within left top) fun _ _ _ _ _ => rfl

/-- A visible bit of the bitmap. -/
def Visible (frameBuffer : FrameBuffer) (x y width height i j : Nat) : Prop :=
  i < min width (frameBuffer.width - x) ∧ j < min height (frameBuffer.height - y)

/-- One bitmap is drawn as its pixels are where the visible bits are also found in rows of
    the visible length, or do not matter. -/
theorem Placed.writeBitmap_eq_iff (placed : frameBuffer.Placed) (across : x + width < 2 ^ 32)
    (down : y + height < 2 ^ 32) (bitmap : Nat → UInt8) (foreground background : Pixel)
    (memory : Nat → UInt8) :
    frameBuffer.writeBitmap x y width height bitmap foreground background memory =
        frameBuffer.drawPixels x y width height bitmap foreground background memory ↔
      foreground = background ∨ ∀ i j, frameBuffer.Visible x y width height i j →
        bitmapBit ((min width (frameBuffer.width - x) + 7) / 8) bitmap i j =
          bitmapBit ((width + 7) / 8) bitmap i j := by
  rw [(placed.writeBitmap_paints across down bitmap foreground background memory).eq_iff
    (placed.drawPixels_paints x y width height bitmap foreground background memory) placed.geometry]
  constructor
  · intro same
    by_cases equal : foreground = background
    · exact .inl equal
    · refine .inr fun i j visible => ?_
      rw [Visible] at visible
      have colour := same (x + i) (by omega) (y + j) (by omega) ⟨by omega, by omega⟩
      rw [Nat.add_sub_cancel_left, Nat.add_sub_cancel_left, bitmapColour, bitmapColour] at colour
      grind
  · rintro (equal | same) px left py top ⟨⟨least, most⟩, above, below⟩
    · rw [bitmapColour, bitmapColour, equal, ite_self, ite_self]
    · rw [bitmapColour, same (px - x) (py - y) ⟨by omega, by omega⟩]
      rfl

/-- A bitmap with a single bit, the first of its second row. -/
def secondRowBit (width : Nat) (address : Nat) : UInt8 :=
  if address = (width + 7) / 8 then 0x80 else 0

theorem secondRowBit_seen (width : Nat) :
    bitmapBit ((width + 7) / 8) (secondRowBit width) 0 1 = true := by
  rw [bitmapBit, secondRowBit, if_pos (by omega)]
  rfl

theorem secondRowBit_missed {width bytesPerBitmapLine : Nat}
    (other : bytesPerBitmapLine ≠ (width + 7) / 8) :
    bitmapBit bytesPerBitmapLine (secondRowBit width) 0 1 = false := by
  rw [bitmapBit, secondRowBit, if_neg (by omega)]
  rfl

/-- Nothing of the rectangle is visible, at most one row is, or the rows that are left of it
    take as many bytes as the rows of the bitmap. -/
def RowsKept (frameBuffer : FrameBuffer) (x y width height : Nat) : Prop :=
  min width (frameBuffer.width - x) = 0 ∨ min height (frameBuffer.height - y) ≤ 1 ∨
    (min width (frameBuffer.width - x) + 7) / 8 = (width + 7) / 8

/-- Every bitmap is drawn as its pixels are exactly where its rows are kept. -/
theorem Placed.writeBitmap_always_iff (placed : frameBuffer.Placed) (across : x + width < 2 ^ 32)
    (down : y + height < 2 ^ 32) :
    (∀ bitmap foreground background memory,
      frameBuffer.writeBitmap x y width height bitmap foreground background memory =
        frameBuffer.drawPixels x y width height bitmap foreground background memory) ↔
    frameBuffer.RowsKept x y width height := by
  constructor
  · intro same
    by_contra lost
    rw [RowsKept, not_or, not_or] at lost
    obtain ⟨some_column, rows, stride⟩ := lost
    rcases (placed.writeBitmap_eq_iff across down _ _ _ _).mp
      (same (secondRowBit width) Display.foreground Display.background fun _ => 0) with equal | bits
    · exact absurd equal (by decide)
    · have bit := bits 0 1 ⟨by omega, by omega⟩
      rw [secondRowBit_seen, secondRowBit_missed stride] at bit
      exact Bool.false_ne_true bit
  · intro kept bitmap foreground background memory
    refine (placed.writeBitmap_eq_iff across down _ _ _ _).mpr (.inr fun i j visible => ?_)
    rw [Visible] at visible
    rcases kept with none | row | stride
    · omega
    · obtain rfl : j = 0 := by omega
      rw [bitmapBit, bitmapBit, Nat.zero_mul, Nat.zero_mul]
    · rw [stride]

/-- When a bitmap is drawn as its pixels are, and at which places every bitmap is. -/
theorem Placed.writeBitmap_pixelwise_iff (placed : frameBuffer.Placed) (across : x + width < 2 ^ 32)
    (down : y + height < 2 ^ 32) :
    (∀ bitmap foreground background memory,
      frameBuffer.writeBitmap x y width height bitmap foreground background memory =
          frameBuffer.drawPixels x y width height bitmap foreground background memory ↔
        foreground = background ∨ ∀ i j, frameBuffer.Visible x y width height i j →
          bitmapBit ((min width (frameBuffer.width - x) + 7) / 8) bitmap i j =
            bitmapBit ((width + 7) / 8) bitmap i j) ∧
    ((∀ bitmap foreground background memory,
      frameBuffer.writeBitmap x y width height bitmap foreground background memory =
        frameBuffer.drawPixels x y width height bitmap foreground background memory) ↔
      frameBuffer.RowsKept x y width height) :=
  ⟨placed.writeBitmap_eq_iff across down, placed.writeBitmap_always_iff across down⟩

end Clipped

/-- Seven columns of a bitmap of two bytes a row are cut off. -/
theorem seven_cut_off_pixelwise :
    (1015 + 16 < 2 ^ 32 ∧ 700 + 100 < 2 ^ 32) ∧ ∀ bitmap foreground background memory,
      standard.writeBitmap 1015 700 16 100 bitmap foreground background memory =
        standard.drawPixels 1015 700 16 100 bitmap foreground background memory :=
  ⟨by decide, (standard_placed.writeBitmap_pixelwise_iff (by decide) (by decide)).2.mpr
    (.inr (.inr (by decide)))⟩

/-- With eight columns cut off, the second row is read from the first. -/
theorem eight_cut_off_not_pixelwise :
    standard.Placed ∧ standard.writeBitmap 1016 0 16 2 (secondRowBit 16) foreground background
      (fun _ => 0) ≠
      standard.drawPixels 1016 0 16 2 (secondRowBit 16) foreground background (fun _ => 0) := by
  refine ⟨standard_placed, fun same => ?_⟩
  rcases (standard_placed.writeBitmap_eq_iff (by decide) (by decide) _ _ _ _).mp same with equal |
    bits
  · exact absurd equal (by decide)
  · have bit := bits 0 1 ⟨by decide, by decide⟩
    rw [secondRowBit_seen, secondRowBit_missed (by decide)] at bit
    exact Bool.false_ne_true bit

end FrameBuffer

end Mykonos.Display
