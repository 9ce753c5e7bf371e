import Mykonos.Display.FrameBuffer
import Mykonos.Lib.Tiles

/-! # The geometry of the display

Where the pixels of a display of three or four bytes a pixel stand in its buffers, and what
is left of a rectangle that is clipped. Offsets and sides are computed in 32 bits.
-/

namespace Mykonos.Display

open Lib Util

namespace FrameBuffer

/-- A 24- or 32-bit display whose lines fit the pitch and whose buffers have a size of 32
    bits. -/
structure Geometry (frameBuffer : FrameBuffer) : Prop where
  depth : frameBuffer.depth = 24 ∨ frameBuffer.depth = 32
  pitch : frameBuffer.width * frameBuffer.bytesPerPixel ≤ frameBuffer.pitch
  size : frameBuffer.pitch * frameBuffer.height < 2 ^ 32

variable {frameBuffer : FrameBuffer}

/-- Where the bytes of a pixel begin. -/
def place (frameBuffer : FrameBuffer) (x y : Nat) : Nat :=
  y * frameBuffer.pitch + x * frameBuffer.bytesPerPixel

theorem place_add (x y i : Nat) :
    frameBuffer.place (x + i) y = frameBuffer.place x y + i * frameBuffer.bytesPerPixel := by
  rw [place, place, Nat.add_mul, Nat.add_assoc]

namespace Geometry

theorem bytesPerPixel (geometry : frameBuffer.Geometry) :
    frameBuffer.bytesPerPixel = 3 ∨ frameBuffer.bytesPerPixel = 4 := by
  rw [FrameBuffer.bytesPerPixel]
  rcases geometry.depth with depth | depth <;> rw [depth]
  · exact .inl rfl
  · exact .inr rfl

theorem wide (geometry : frameBuffer.Geometry) : 3 ≤ frameBuffer.bytesPerPixel := by
  rcases geometry.bytesPerPixel with three | four <;> omega

/-- A line of pixels lies inside its row. -/
theorem line_le_pitch (geometry : frameBuffer.Geometry) {x width : Nat}
    (right : x + width ≤ frameBuffer.width) :
    x * frameBuffer.bytesPerPixel + width * frameBuffer.bytesPerPixel ≤ frameBuffer.pitch := by
  rw [← Nat.add_mul]
  exact (Nat.mul_le_mul_right _ right).trans geometry.pitch

/-- And inside the buffer. -/
theorem line_le (geometry : frameBuffer.Geometry) {x y width : Nat}
    (right : x + width ≤ frameBuffer.width) (top : y < frameBuffer.height) :
    frameBuffer.place x y + width * frameBuffer.bytesPerPixel ≤
      frameBuffer.pitch * frameBuffer.height := by
  have row := tile_le frameBuffer.pitch top
  have inside := geometry.line_le_pitch right
  rw [place, Nat.mul_comm frameBuffer.pitch]
  omega

theorem pixel_le (geometry : frameBuffer.Geometry) {x y : Nat} (left : x < frameBuffer.width)
    (top : y < frameBuffer.height) :
    frameBuffer.place x y + frameBuffer.bytesPerPixel ≤ frameBuffer.pitch * frameBuffer.height := by
  have inside := @geometry.line_le frameBuffer x y 1 left top
  rwa [Nat.one_mul] at inside

theorem pixelOffset_eq (geometry : frameBuffer.Geometry) {x y : Nat} (left : x < frameBuffer.width)
    (top : y < frameBuffer.height) : frameBuffer.pixelOffset x y = frameBuffer.place x y := by
  have inside := geometry.pixel_le left top
  have size := geometry.size
  have wide := geometry.wide
  exact Nat.mod_eq_of_lt (show frameBuffer.place x y < 2 ^ 32 by omega)

/-- Twice the width of a display that shows something is still a number of 32 bits. -/
theorem narrow (geometry : frameBuffer.Geometry) (some_line : 0 < frameBuffer.height) :
    3 * frameBuffer.width < 2 ^ 32 := by
  calc 3 * frameBuffer.width ≤ frameBuffer.width * frameBuffer.bytesPerPixel := by
        rw [Nat.mul_comm]
        exact Nat.mul_le_mul_left _ geometry.wide
    _ ≤ frameBuffer.pitch := geometry.pitch
    _ ≤ frameBuffer.pitch * frameBuffer.height := Nat.le_mul_of_pos_right _ some_line
    _ < 2 ^ 32 := geometry.size

theorem low (geometry : frameBuffer.Geometry) (some_column : 0 < frameBuffer.width) :
    3 * frameBuffer.height < 2 ^ 32 := by
  have wide := geometry.wide
  calc 3 * frameBuffer.height ≤ frameBuffer.pitch * frameBuffer.height := by
        refine Nat.mul_le_mul_right _ (Nat.le_trans ?_ geometry.pitch)
        exact wide.trans (Nat.le_mul_of_pos_left _ some_column)
    _ < 2 ^ 32 := geometry.size

/-- A line of pixels ends before the rows below it. -/
theorem line_before (geometry : frameBuffer.Geometry) {x y width row : Nat}
    (right : x + width ≤ frameBuffer.width) (above : y < row) (newX : Nat) :
    frameBuffer.place x y + width * frameBuffer.bytesPerPixel ≤ frameBuffer.place newX row := by
  have inside := geometry.line_le_pitch right
  have rows := tile_le frameBuffer.pitch above
  rw [place, place]
  omega

/-- A byte belongs to one pixel. -/
theorem place_inj (geometry : frameBuffer.Geometry) {x x' y y' k k' : Nat}
    (left : x < frameBuffer.width) (left' : x' < frameBuffer.width)
    (byte : k < frameBuffer.bytesPerPixel) (byte' : k' < frameBuffer.bytesPerPixel)
    (same : frameBuffer.place x y + k = frameBuffer.place x' y' + k') :
    x = x' ∧ y = y' ∧ k = k' := by
  have inside := @geometry.line_le_pitch frameBuffer x 1 left
  have inside' := @geometry.line_le_pitch frameBuffer x' 1 left'
  rw [place, place, Nat.add_assoc, Nat.add_assoc] at same
  obtain ⟨row, rest⟩ := tile_inj (by omega) (by omega) same
  obtain ⟨column, rest⟩ := tile_inj byte byte' rest
  exact ⟨column, row, rest⟩

end Geometry

/-! ## Clipping -/

/-- The rectangle is empty or lies on the display. -/
def OnScreen (frameBuffer : FrameBuffer) (x y : Nat) (size : Nat × Nat) : Prop :=
  size.1 = 0 ∨ size.2 = 0 ∨ x + size.1 ≤ frameBuffer.width ∧ y + size.2 ≤ frameBuffer.height

/-- The corner is off the display, the rectangle is empty or its sides do not wrap around. -/
def Unwrapped (frameBuffer : FrameBuffer) (x y width height : Nat) : Prop :=
  frameBuffer.width ≤ x ∨ frameBuffer.height ≤ y ∨ width = 0 ∨ height = 0 ∨
    x + width < 2 ^ 32 ∧ y + height < 2 ^ 32

theorem clipRectangle_off {x y : Nat} (width height : Nat)
    (off : frameBuffer.width ≤ x ∨ frameBuffer.height ≤ y) :
    (frameBuffer.clipRectangle x y width height).1 = 0 ∨
    (frameBuffer.clipRectangle x y width height).2 = 0 := by
  unfold clipRectangle
  split_ifs with right below
  · exact .inl rfl
  · exact .inr rfl
  all_goals exact absurd off (by omega)

theorem clipRectangle_fits {x y width height : Nat} (left : x < frameBuffer.width)
    (top : y < frameBuffer.height) (across : x + width < 2 ^ 32) (down : y + height < 2 ^ 32) :
    frameBuffer.clipRectangle x y width height =
      (min width (frameBuffer.width - x), min height (frameBuffer.height - y)) := by
  rw [clipRectangle, if_neg (Nat.not_le.mpr left), if_neg (Nat.not_le.mpr top),
    Nat.mod_eq_of_lt across, Nat.mod_eq_of_lt down]
  congr 1
  · split_ifs <;> omega
  · split_ifs <;> omega

/-- A side that wraps around is left as it is. -/
theorem clipRectangle_wraps {x y width height : Nat} (left : x < frameBuffer.width)
    (top : y < frameBuffer.height) (words : width < 2 ^ 32 ∧ height < 2 ^ 32) :
    (2 ^ 32 ≤ x + width → (frameBuffer.clipRectangle x y width height).1 = width) ∧
    (2 ^ 32 ≤ y + height → (frameBuffer.clipRectangle x y width height).2 = height) := by
  rw [clipRectangle, if_neg (Nat.not_le.mpr left), if_neg (Nat.not_le.mpr top)]
  constructor
  · intro wraps
    exact if_neg (by omega)
  · intro wraps
    exact if_neg (by omega)

/-- A rectangle that begins on the display is not clipped to nothing. -/
theorem clipRectangle_pos {x y width height : Nat} (left : x < frameBuffer.width)
    (top : y < frameBuffer.height) :
    (0 < (frameBuffer.clipRectangle x y width height).1 ↔ 0 < width) ∧
    (0 < (frameBuffer.clipRectangle x y width height).2 ↔ 0 < height) := by
  rw [clipRectangle, if_neg (Nat.not_le.mpr left), if_neg (Nat.not_le.mpr top)]
  dsimp only
  constructor
  · split_ifs <;> omega
  · split_ifs <;> omega

theorem clipRectangle_le (x y width height : Nat) :
    (frameBuffer.clipRectangle x y width height).1 ≤ width ∧
    (frameBuffer.clipRectangle x y width height).2 ≤ height := by
  rw [clipRectangle]
  split_ifs <;> dsimp only <;> omega

theorem clipRectangle_onScreen_iff {x y width height : Nat} (geometry : frameBuffer.Geometry)
    (words : width < 2 ^ 32 ∧ height < 2 ^ 32) :
    frameBuffer.OnScreen x y (frameBuffer.clipRectangle x y width height) ↔
      frameBuffer.Unwrapped x y width height := by
  by_cases off : frameBuffer.width ≤ x ∨ frameBuffer.height ≤ y
  · exact iff_of_true (or_assoc.mp (.inl (clipRectangle_off width height off)))
      (or_assoc.mp (.inl off))
  obtain ⟨left, top⟩ := not_or.mp off
  rw [Nat.not_le] at left top
  have narrow := geometry.narrow (by omega)
  have low := geometry.low (by omega)
  have wraps := clipRectangle_wraps left top words
  obtain ⟨wide, high⟩ := @clipRectangle_pos frameBuffer x y width height left top
  rw [OnScreen, Unwrapped]
  by_cases fits : x + width < 2 ^ 32 ∧ y + height < 2 ^ 32
  · rw [clipRectangle_fits left top fits.1 fits.2]
    dsimp only
    omega
  · generalize frameBuffer.clipRectangle x y width height = size at wraps wide high ⊢
    omega

theorem OnScreen.mono {x y : Nat} {size size' : Nat × Nat}
    (onScreen : frameBuffer.OnScreen x y size) (narrower : size'.1 ≤ size.1)
    (lower : size'.2 ≤ size.2) : frameBuffer.OnScreen x y size' := by
  rw [OnScreen] at onScreen ⊢
  omega

/-- A size that is clipped at two places fits at both. -/
theorem clipRectangle_twice (geometry : frameBuffer.Geometry) {x y width height : Nat}
    (newX newY : Nat) (words : width < 2 ^ 32 ∧ height < 2 ^ 32)
    (unwrapped : frameBuffer.Unwrapped x y width height) :
    let first := frameBuffer.clipRectangle x y width height
    let second := frameBuffer.clipRectangle newX newY first.1 first.2
    frameBuffer.OnScreen x y second ∧ frameBuffer.OnScreen newX newY second := by
  dsimp only
  have onScreen := (clipRectangle_onScreen_iff geometry words).mpr unwrapped
  have smaller := frameBuffer.clipRectangle_le x y width height
  generalize frameBuffer.clipRectangle x y width height = first at onScreen smaller
  have smallest := frameBuffer.clipRectangle_le newX newY first.1 first.2
  refine ⟨onScreen.mono smallest.1 smallest.2, ?_⟩
  refine (clipRectangle_onScreen_iff geometry (by omega)).mpr ?_
  by_cases off : frameBuffer.width ≤ newX ∨ frameBuffer.height ≤ newY
  · exact or_assoc.mp (.inl off)
  · have narrow := geometry.narrow (by omega)
    have low := geometry.low (by omega)
    rw [OnScreen] at onScreen
    rw [Unwrapped]
    omega

end FrameBuffer

end Mykonos.Display
