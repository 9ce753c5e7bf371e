import Mykonos.Display.Pixelwise
import Mykonos.Display.Sheet
import Mykonos.Display.Snapshot

/-! # The picture in the frame buffer

The frame buffer and the back buffer of a 32-bit display hold one picture, of four bytes a
pixel. Writing a bitmap paints a rectangle of the picture, but for the fourth byte of each
pixel, and copying a region copies a rectangle.
-/

namespace Mykonos.Display

open Lib Util

namespace FrameBuffer

variable {frameBuffer : FrameBuffer} {memory : Nat → UInt8} {picture : Nat → Nat → Nat → UInt8}

/-- A 32-bit display with its two buffers in place. -/
structure Usable (frameBuffer : FrameBuffer) : Prop where
  depth : frameBuffer.depth = 32
  pitch : 4 * frameBuffer.width ≤ frameBuffer.pitch
  allocated : frameBuffer.pitch * frameBuffer.height ≤ kernelHeapSize
  apart :
    AreasApart frameBuffer.pointer frameBuffer.backBuffer (frameBuffer.pitch * frameBuffer.height)

/-- Where the bytes of a pixel begin. -/
def offset (frameBuffer : FrameBuffer) (x y : Nat) : Nat :=
  y * frameBuffer.pitch + 4 * x

/-- Both buffers hold the picture. -/
def Displays (frameBuffer : FrameBuffer) (memory : Nat → UInt8)
    (picture : Nat → Nat → Nat → UInt8) : Prop :=
  ∀ base, frameBuffer.IsBase base → ∀ x < frameBuffer.width, ∀ y < frameBuffer.height, ∀ k < 4,
    memory (base + frameBuffer.offset x y + k) = picture x y k

namespace Usable

theorem bytesPerPixel (usable : frameBuffer.Usable) : frameBuffer.bytesPerPixel = 4 := by
  rw [FrameBuffer.bytesPerPixel, usable.depth]

theorem geometry (usable : frameBuffer.Usable) : frameBuffer.Geometry where
  depth := .inr usable.depth
  pitch := by
    rw [usable.bytesPerPixel, Nat.mul_comm]
    exact usable.pitch
  size := Nat.lt_of_le_of_lt usable.allocated (by decide)

theorem placed (usable : frameBuffer.Usable) : frameBuffer.Placed :=
  ⟨usable.geometry, usable.apart⟩

theorem place_eq (usable : frameBuffer.Usable) (x y : Nat) :
    frameBuffer.place x y = frameBuffer.offset x y := by
  rw [place, offset, usable.bytesPerPixel, Nat.mul_comm x]

/-- A line of pixels lies inside the buffer. -/
theorem line_le (usable : frameBuffer.Usable) {x y width : Nat}
    (right : x + width ≤ frameBuffer.width) (top : y < frameBuffer.height) :
    frameBuffer.offset x y + 4 * width ≤ frameBuffer.pitch * frameBuffer.height := by
  have line := usable.geometry.line_le right top
  rwa [usable.place_eq, usable.bytesPerPixel, Nat.mul_comm width] at line

theorem size_lt (usable : frameBuffer.Usable) : frameBuffer.pitch * frameBuffer.height < 2 ^ 32 :=
  usable.geometry.size

end Usable

theorem Displays.read (displays : frameBuffer.Displays memory picture) (usable : frameBuffer.Usable)
    {base x y k : Nat} (isBase : frameBuffer.IsBase base) (left : x < frameBuffer.width)
    (top : y < frameBuffer.height) (byte : k < 4) :
    memory (base + (frameBuffer.place x y + k)) = picture x y k := by
  rw [usable.place_eq, ← Nat.add_assoc]
  exact displays base isBase x left y top k byte

/-- A rectangle that is set in both buffers is painted in the picture. -/
theorem Displays.sets (displays : frameBuffer.Displays memory picture) (usable : frameBuffer.Usable)
    {x y width height : Nat} {memory' : Nat → UInt8} {value : Nat → Nat → Nat → UInt8}
    {new : Nat → Nat → (Nat → UInt8) → Nat → UInt8}
    (sets : frameBuffer.Sets (Within x y width height) value memory memory')
    (same : ∀ px < frameBuffer.width, ∀ py < frameBuffer.height,
      Within x y width height px py →
      ∀ k < 4, value px py k = new (px - x) (py - y) (picture px py) k) :
    frameBuffer.Displays memory' (Lib.paint x y width height new picture) := by
  intro base isBase px left py top k byte
  have byte' : k < frameBuffer.bytesPerPixel := usable.bytesPerPixel.symm ▸ byte
  rw [← usable.place_eq, Nat.add_assoc]
  by_cases inside : Within x y width height px py
  · rw [paint_of_inside inside, sets.inside base isBase px left py top inside k byte']
    exact same px left py top inside k byte
  · rw [paint_of_outside inside, sets.other usable.placed isBase left top byte' inside]
    exact displays.read usable isBase left top byte

/-- The points of a bitmap. -/
def bitmapPoint (bytesPerBitmapLine : Nat) (bitmap : Nat → UInt8) (foreground background : Pixel)
    (i j : Nat) : Pixel :=
  bitmapPixel (fun t => bitmap (j * bytesPerBitmapLine % 2 ^ 32 + t)) i foreground background

/-- What `writeBitmap` does to the picture. -/
theorem Displays.writeBitmap (displays : frameBuffer.Displays memory picture)
    (usable : frameBuffer.Usable) {x y width height : Nat} (bitmap : Nat → UInt8)
    (foreground background : Pixel) (wide : 0 < width) (high : 0 < height)
    (right : x + width ≤ frameBuffer.width) (bottom : y + height ≤ frameBuffer.height) :
    frameBuffer.Displays
      (frameBuffer.writeBitmap x y width height bitmap foreground background memory)
      (Lib.paint x y width height
        (fun i j => coloured
          (bitmapPoint ((width + 7) % 2 ^ 32 / 8) bitmap foreground background i j))
        picture) := by
  have narrow := usable.geometry.narrow (by omega)
  have low := usable.geometry.low (by omega)
  have columns : min width (frameBuffer.width - x) = width := by omega
  have stride : (width + 7) % 2 ^ 32 / 8 = (width + 7) / 8 := by
    rw [Nat.mod_eq_of_lt (by omega)]
  have across : x + width < 2 ^ 32 := by omega
  have down : y + height < 2 ^ 32 := by omega
  have painted := usable.placed.writeBitmap_paints across down bitmap foreground background memory
  rw [columns] at painted
  rw [stride]
  refine displays.sets usable painted fun px left py top inside k byte => ?_
  obtain ⟨_, above, below⟩ := inside
  -- the line of the bitmap begins at an offset of 32 bits
  have row : (py - y) * ((width + 7) / 8) % 2 ^ 32 = (py - y) * ((width + 7) / 8) := by
    refine Nat.mod_eq_of_lt (Nat.lt_of_le_of_lt ?_ usable.size_lt)
    rw [Nat.mul_comm]
    have pitch := usable.pitch
    exact Nat.mul_le_mul (by omega) (by omega)
  have colour : bitmapColour ((width + 7) / 8) bitmap foreground background (px - x) (py - y) =
      bitmapPoint ((width + 7) / 8) bitmap foreground background (px - x) (py - y) := by
    rw [bitmapPoint, row]
    rfl
  dsimp only
  rw [colour, coloured, coloured, displays.read usable (.inl rfl) left top byte]

/-- What `copyRegion` does to the picture. -/
theorem Displays.copyRegion (displays : frameBuffer.Displays memory picture)
    (usable : frameBuffer.Usable) {x y width height newX newY : Nat} (left : x < frameBuffer.width)
    (newLeft : newX < frameBuffer.width) (high : 0 < height) (right : x + width ≤ frameBuffer.width)
    (newRight : newX + width ≤ frameBuffer.width) (bottom : y + height ≤ frameBuffer.height)
    (above : newY < y) :
    frameBuffer.Displays (frameBuffer.copyRegion x y width height newX newY memory)
      (Lib.copy x y width height newX newY picture) := by
  have narrow := usable.geometry.narrow (by omega)
  have low := usable.geometry.low (by omega)
  have across : x + width < 2 ^ 32 := by omega
  have down : y + height < 2 ^ 32 := by omega
  have columns : frameBuffer.copiedWidth x width newX = width := by
    rw [copiedWidth]
    omega
  have rows : frameBuffer.copiedHeight y height newY = height := by
    rw [copiedHeight]
    omega
  have copied := usable.geometry.copyRegion_eq across down newX newY memory
  dsimp only at copied
  rw [copied, columns, rows]
  cases width with
  | zero =>
      rw [if_pos (.inl rfl), copy_narrow]
      exact displays
  | succ width =>
      rw [if_neg (by omega)]
      have orderly : Orderly x y (width + 1) height newX newY := .inr (.inr (.inl above))
      have lines :=
        usable.placed.copyLines_sets 0 memory right newRight bottom (by omega)
          (Nat.succ_pos width) orderly
      refine displays.sets usable lines fun px _ py _ inside k byte => ?_
      obtain ⟨⟨least, most⟩, top, below⟩ := inside
      exact displays.read usable (.inl rfl) (by omega) (by omega) byte

end FrameBuffer

end Mykonos.Display
