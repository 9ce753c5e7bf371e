import Mykonos.Display.Console

/-! # The frame buffer

The display is drawn into a back buffer and copied from there to the frame buffer, both of
the same layout. Characters are drawn from the bitmaps of a PSF font.
-/

namespace Mykonos.Display

open Lib Util

structure Pixel where
  r : UInt8
  g : UInt8
  b : UInt8
  deriving Repr, DecidableEq

/-- The frame buffer, and the address of the back buffer. -/
structure FrameBuffer where
  pointer : Nat
  width : Nat
  height : Nat
  pitch : Nat
  depth : Nat
  backBuffer : Nat

/-- The fields of the font file that are used. -/
structure PsfFile where
  glyphSize : Nat
  height : Nat
  width : Nat
  data : Nat → UInt8

/-- The bytes of a pixel, in the order of the buffers. -/
def Pixel.bytes (pixel : Pixel) : List UInt8 :=
  [pixel.b, pixel.g, pixel.r]

def foreground : Pixel := ⟨0xFF, 0xFF, 0xFF⟩

def background : Pixel := ⟨0, 0, 0⟩

namespace FrameBuffer

variable (frameBuffer : FrameBuffer)

def bytesPerPixel : Nat := frameBuffer.depth / 8

/-- `initFrameBuffer`, once the frame buffer is mapped and the back buffer is allocated. -/
def initFrameBuffer (memory : Nat → UInt8) : Nat → UInt8 :=
  let size := frameBuffer.pitch * frameBuffer.height % 2 ^ 32
  memset (memset memory frameBuffer.pointer 0 size) frameBuffer.backBuffer 0 size

/-- The width and the height that are left. -/
def clipRectangle (x y width height : Nat) : Nat × Nat :=
  if x ≥ frameBuffer.width then (0, height)
  else if y ≥ frameBuffer.height then (width, 0)
  else
    (if (x + width) % 2 ^ 32 > frameBuffer.width then frameBuffer.width - x else width,
      if (y + height) % 2 ^ 32 > frameBuffer.height then frameBuffer.height - y else height)

def pixelOffset (x y : Nat) : Nat :=
  (y * frameBuffer.pitch + x * frameBuffer.bytesPerPixel) % 2 ^ 32

/-- A pixel outside the display is not drawn. -/
def writePixel (x y : Nat) (pixel : Pixel) (memory : Nat → UInt8) : Nat → UInt8 :=
  if x < frameBuffer.width ∧ y < frameBuffer.height then
    let pixelPointer := frameBuffer.backBuffer + frameBuffer.pixelOffset x y
    let displayPixelPointer := frameBuffer.pointer + frameBuffer.pixelOffset x y
    memcpy (overwrite memory pixelPointer pixel.bytes) displayPixelPointer pixelPointer
      frameBuffer.bytesPerPixel
  else memory

/-- The colour that a bitmap gives to a pixel of one of its lines. -/
def bitmapPixel (bitmapLine : Nat → UInt8) (x : Nat) (foreground background : Pixel) : Pixel :=
  if (bitmapLine (x / 8)).toNat.testBit (7 - x % 8) then foreground else background

/-- The inner loop of `writeBitmap`. -/
def writeBitmapLine (bitmapLine : Nat → UInt8) (foreground background : Pixel)
    (backBufferLine : Nat) :
    Nat → Nat → (Nat → UInt8) → Nat → UInt8
  | 0, _, memory => memory
  | count + 1, x, memory =>
      writeBitmapLine bitmapLine foreground background backBufferLine count (x + 1)
        (overwrite memory (backBufferLine + x * frameBuffer.bytesPerPixel % 2 ^ 32)
          (bitmapPixel bitmapLine x foreground background).bytes)

/-- The outer loop of `writeBitmap`. -/
def writeBitmapLines (initialX initialY width bytesPerBitmapLine : Nat) (bitmap : Nat → UInt8)
    (foreground background : Pixel) : Nat → Nat → (Nat → UInt8) → Nat → UInt8
  | 0, _, memory => memory
  | count + 1, y, memory =>
      let bitmapLine := fun i => bitmap (y * bytesPerBitmapLine % 2 ^ 32 + i)
      let pixelOffset := frameBuffer.pixelOffset initialX (y + initialY)
      let backBufferLine := frameBuffer.backBuffer + pixelOffset
      let memory :=
        frameBuffer.writeBitmapLine bitmapLine foreground background backBufferLine width 0 memory
      writeBitmapLines initialX initialY width bytesPerBitmapLine bitmap foreground
      background count (y + 1)
        (memcpy memory (frameBuffer.pointer + pixelOffset) backBufferLine
          (frameBuffer.bytesPerPixel * width % 2 ^ 32))

def writeBitmap (initialX initialY width height : Nat) (bitmap : Nat → UInt8)
    (foreground background : Pixel) (memory : Nat → UInt8) : Nat → UInt8 :=
  let (width, height) := frameBuffer.clipRectangle initialX initialY width height
  if width = 0 ∨ height = 0 then memory
  else
    let bytesPerBitmapLine := (width + 7) % 2 ^ 32 / 8
    frameBuffer.writeBitmapLines initialX initialY width bytesPerBitmapLine bitmap foreground
      background height 0 memory

/-- The loop of `copyRegion`. -/
def copyLines (x y width newX newY : Nat) : Nat → Nat → (Nat → UInt8) → Nat → UInt8
  | 0, _, memory => memory
  | count + 1, yOffset, memory =>
      let source := frameBuffer.backBuffer + frameBuffer.pixelOffset x (y + yOffset)
      let destOffset := frameBuffer.pixelOffset newX (newY + yOffset)
      let size := width * frameBuffer.bytesPerPixel % 2 ^ 32
      let memory := memcpy memory (frameBuffer.backBuffer + destOffset) source size
      copyLines x y width newX newY count (yOffset + 1)
        (memcpy memory (frameBuffer.pointer + destOffset) source size)

def copyRegion (x y width height newX newY : Nat) (memory : Nat → UInt8) : Nat → UInt8 :=
  let (width, height) := frameBuffer.clipRectangle x y width height
  let (width, height) := frameBuffer.clipRectangle newX newY width height
  if width = 0 ∨ height = 0 then memory
  else frameBuffer.copyLines x y width newX newY height 0 memory

end FrameBuffer

/-- The place of a glyph in the font. A `char` is signed, and the product is `unsigned`. -/
def PsfFile.glyphOffset (font : PsfFile) (c : UInt8) : Nat :=
  (c.toInt8.toInt * font.glyphSize % (2 ^ 32 : Nat)).toNat

/-- `font::render`. -/
def render (frameBuffer : FrameBuffer) (font : PsfFile) (c : UInt8) (x y : Nat)
    (foreground background : Pixel) (memory : Nat → UInt8) : Nat → UInt8 :=
  frameBuffer.writeBitmap x y font.width font.height (fun i => font.data (font.glyphOffset c + i))
    foreground background
    memory

def writeCharacter (frameBuffer : FrameBuffer) (font : PsfFile) (x y : Nat) (c : UInt8)
    (memory : Nat → UInt8) :
    Nat → UInt8 :=
  render frameBuffer font c x y foreground background memory

def space : UInt8 := 32

def removeCharacter (frameBuffer : FrameBuffer) (font : PsfFile) (x y : Nat)
    (memory : Nat → UInt8) : Nat → UInt8 :=
  render frameBuffer font space x y foreground background memory

/-- The display and the font that the console calls. -/
def frameScreen (frameBuffer : FrameBuffer) (font : PsfFile) : Screen (Nat → UInt8) where
  getWidth := frameBuffer.width
  getHeight := frameBuffer.height
  fontWidth := font.width
  fontHeight := font.height
  writeCharacter := writeCharacter frameBuffer font
  removeCharacter := removeCharacter frameBuffer font
  copyRegion := frameBuffer.copyRegion

end Mykonos.Display
