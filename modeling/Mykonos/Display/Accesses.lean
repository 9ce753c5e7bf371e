import Mykonos.Display.Geometry

/-! # Accesses to the two buffers

Which bytes of the two buffers the drawing functions store, read and copy. A rectangle whose
sides wrap around is not clipped, and then they leave the buffers.
-/

namespace Mykonos.Display

open Lib Util

/-- Bytes of a buffer that are read or written together. -/
structure Access where
  buffer : Nat
  offset : Nat
  size : Nat
  deriving Repr, DecidableEq

def Access.Inside (access : Access) (size : Nat) : Prop :=
  access.offset + access.size ≤ size

def Access.Misses (access : Access) (other : Nat) : Prop :=
  other < access.buffer + access.offset ∨ access.buffer + access.offset + access.size ≤ other

theorem Access.inside_mk {buffer offset bytes size : Nat} :
    Access.Inside ⟨buffer, offset, bytes⟩ size ↔ offset + bytes ≤ size :=
  Iff.rfl

namespace FrameBuffer

variable (frameBuffer : FrameBuffer)

/-- The three bytes of a pixel are stored. -/
def pixelStore (offset : Nat) : Access :=
  ⟨frameBuffer.backBuffer, offset, 3⟩

/-- Bytes at one offset of the two buffers are copied from the first to the second. -/
def flush (offset size : Nat) : List Access :=
  [⟨frameBuffer.backBuffer, offset, size⟩, ⟨frameBuffer.pointer, offset, size⟩]

def writePixelAccesses (x y : Nat) : List Access :=
  if x < frameBuffer.width ∧ y < frameBuffer.height then
    let pixelOffset := frameBuffer.pixelOffset x y
    frameBuffer.pixelStore pixelOffset :: frameBuffer.flush pixelOffset frameBuffer.bytesPerPixel
  else []

/-- The accesses for a line of a bitmap. -/
def bitmapLineAccesses (pixelOffset width : Nat) : List Access :=
  (List.range width).map (fun x =>
    frameBuffer.pixelStore (pixelOffset + x * frameBuffer.bytesPerPixel % 2 ^ 32)) ++
    frameBuffer.flush pixelOffset (frameBuffer.bytesPerPixel * width % 2 ^ 32)

def writeBitmapAccesses (initialX initialY width height : Nat) : List Access :=
  let (width, height) := frameBuffer.clipRectangle initialX initialY width height
  if width = 0 ∨ height = 0 then []
  else (List.range height).flatMap fun y =>
    frameBuffer.bitmapLineAccesses (frameBuffer.pixelOffset initialX (y + initialY)) width

/-- The accesses for a line of a region, which is read twice. -/
def copyLineAccesses (sourceOffset destOffset size : Nat) : List Access :=
  [⟨frameBuffer.backBuffer, sourceOffset, size⟩, ⟨frameBuffer.backBuffer, destOffset, size⟩,
    ⟨frameBuffer.backBuffer, sourceOffset, size⟩, ⟨frameBuffer.pointer, destOffset, size⟩]

def copyRegionAccesses (x y width height newX newY : Nat) : List Access :=
  let (width, height) := frameBuffer.clipRectangle x y width height
  let (width, height) := frameBuffer.clipRectangle newX newY width height
  if width = 0 ∨ height = 0 then []
  else (List.range height).flatMap fun yOffset =>
    frameBuffer.copyLineAccesses (frameBuffer.pixelOffset x (y + yOffset))
      (frameBuffer.pixelOffset newX (newY + yOffset)) (width * frameBuffer.bytesPerPixel % 2 ^ 32)

variable {frameBuffer} {memory : Nat → UInt8} {other : Nat}

/-! ## Nothing else is written -/

theorem writePixel_of_missed {x y : Nat} (pixel : Pixel)
    (missed : ∀ access ∈ frameBuffer.writePixelAccesses x y, access.Misses other) :
    frameBuffer.writePixel x y pixel memory other = memory other := by
  rw [writePixel]
  rw [writePixelAccesses] at missed
  split
  · rename_i inside
    rw [if_pos inside, List.forall_mem_cons, flush, List.forall_mem_cons,
      List.forall_mem_singleton] at missed
    obtain ⟨stored, _, flushed⟩ := missed
    rw [memcpy_of_outside flushed]
    exact overwrite_of_outside stored
  · rfl

theorem writeBitmapLine_of_missed {bitmapLine : Nat → UInt8} {foreground background : Pixel}
    {line count x : Nat}
    (missed : ∀ i, x ≤ i → i < x + count → other < line + i * frameBuffer.bytesPerPixel % 2 ^ 32 ∨
      line + i * frameBuffer.bytesPerPixel % 2 ^ 32 + 3 ≤ other) :
    frameBuffer.writeBitmapLine bitmapLine foreground background line count x memory other =
      memory other := by
  induction count generalizing x memory with
  | zero => rfl
  | succ count ih =>
      rw [writeBitmapLine, ih fun i least below => missed i (by omega) (by omega)]
      exact overwrite_of_outside (missed x (Nat.le_refl x) (by omega))

theorem writeBitmapLines_of_missed {initialX initialY width count y : Nat}
    (bytesPerBitmapLine : Nat) (bitmap : Nat → UInt8) (foreground background : Pixel)
    (missed : ∀ j, y ≤ j → j < y + count →
      ∀ access ∈ frameBuffer.bitmapLineAccesses (frameBuffer.pixelOffset initialX
        (j + initialY)) width, access.Misses other) :
    frameBuffer.writeBitmapLines initialX initialY width bytesPerBitmapLine bitmap foreground
      background count y memory
      other = memory other := by
  induction count generalizing y memory with
  | zero => rfl
  | succ count ih =>
      have line := missed y (Nat.le_refl y) (by omega)
      rw [bitmapLineAccesses, List.forall_mem_append, List.forall_mem_map, flush,
        List.forall_mem_cons, List.forall_mem_singleton] at line
      obtain ⟨stored, _, flushed⟩ := line
      rw [writeBitmapLines, ih fun j least below => missed j (by omega) (by omega)]
      rw [memcpy_of_outside flushed]
      refine writeBitmapLine_of_missed fun i _ below => ?_
      rw [Nat.add_assoc]
      exact stored i (List.mem_range.mpr (by omega))

theorem writeBitmap_of_missed {x y width height : Nat} (bitmap : Nat → UInt8)
    (foreground background : Pixel)
    (missed : ∀ access ∈ frameBuffer.writeBitmapAccesses x y width height, access.Misses other) :
    frameBuffer.writeBitmap x y width height bitmap foreground background memory other =
      memory other := by
  rw [writeBitmap]
  rw [writeBitmapAccesses] at missed
  dsimp only at missed ⊢
  split
  · rfl
  · rename_i filled
    rw [if_neg filled] at missed
    refine writeBitmapLines_of_missed _ bitmap foreground background fun j _ below access member =>
      ?_
    exact missed access (List.mem_flatMap.mpr ⟨j, List.mem_range.mpr (by omega), member⟩)

theorem copyLines_of_missed {x y width newX newY count yOffset : Nat}
    (missed : ∀ j, yOffset ≤ j → j < yOffset + count →
      ∀ access ∈ frameBuffer.copyLineAccesses (frameBuffer.pixelOffset x (y + j))
        (frameBuffer.pixelOffset newX (newY + j)) (width * frameBuffer.bytesPerPixel % 2 ^ 32),
        access.Misses other) :
    frameBuffer.copyLines x y width newX newY count yOffset memory other = memory other := by
  induction count generalizing yOffset memory with
  | zero => rfl
  | succ count ih =>
      have line := missed yOffset (Nat.le_refl yOffset) (by omega)
      rw [copyLineAccesses, List.forall_mem_cons, List.forall_mem_cons, List.forall_mem_cons,
        List.forall_mem_singleton] at line
      obtain ⟨_, copied, _, shown⟩ := line
      rw [copyLines, ih fun j least below => missed j (by omega) (by omega),
        memcpy_of_outside shown, memcpy_of_outside copied]

theorem copyRegion_of_missed {x y width height newX newY : Nat}
    (missed : ∀ access ∈ frameBuffer.copyRegionAccesses x y width height newX newY,
      access.Misses other) :
    frameBuffer.copyRegion x y width height newX newY memory other = memory other := by
  rw [copyRegion]
  rw [copyRegionAccesses] at missed
  dsimp only at missed ⊢
  split
  · rfl
  · rename_i filled
    rw [if_neg filled] at missed
    refine copyLines_of_missed fun j _ below access member => ?_
    exact missed access (List.mem_flatMap.mpr ⟨j, List.mem_range.mpr (by omega), member⟩)

/-! ## Everything is inside the buffers -/

theorem writePixelAccesses_inside (geometry : frameBuffer.Geometry) (x y : Nat) :
    ∀ access ∈ frameBuffer.writePixelAccesses x y,
      access.Inside (frameBuffer.pitch * frameBuffer.height) := by
  rw [writePixelAccesses]
  split
  · rename_i inside
    have pixel := geometry.pixel_le inside.1 inside.2
    have wide := geometry.wide
    dsimp only
    rw [geometry.pixelOffset_eq inside.1 inside.2, pixelStore, flush, List.forall_mem_cons,
      List.forall_mem_cons, List.forall_mem_singleton, Access.inside_mk, Access.inside_mk,
      Access.inside_mk]
    omega
  · exact List.forall_mem_nil _

/-- The bytes of a line of pixels. -/
theorem Geometry.line_bytes (geometry : frameBuffer.Geometry) {x width : Nat}
    (right : x + width ≤ frameBuffer.width) (some_line : 0 < frameBuffer.height) :
    width * frameBuffer.bytesPerPixel % 2 ^ 32 = width * frameBuffer.bytesPerPixel := by
  have line := geometry.line_le (y := 0) right some_line
  have size := geometry.size
  exact Nat.mod_eq_of_lt (by omega)

theorem bitmapLineAccesses_inside (geometry : frameBuffer.Geometry) {x y width : Nat}
    (right : x + width ≤ frameBuffer.width) (some_pixel : 0 < width)
    (top : y < frameBuffer.height) :
    ∀ access ∈ frameBuffer.bitmapLineAccesses (frameBuffer.pixelOffset x y) width,
      access.Inside (frameBuffer.pitch * frameBuffer.height) := by
  have line := geometry.line_le right top
  rw [bitmapLineAccesses, geometry.pixelOffset_eq (by omega) top, Nat.mul_comm,
    geometry.line_bytes right (by omega), List.forall_mem_append, List.forall_mem_map]
  constructor
  · intro i member
    have below := List.mem_range.mp member
    have pixel := geometry.pixel_le (show x + i < frameBuffer.width by omega) top
    have wide := geometry.wide
    rw [place_add] at pixel
    rw [geometry.line_bytes (x := x) (by omega) (by omega), pixelStore, Access.inside_mk]
    omega
  · rw [flush, List.forall_mem_cons, List.forall_mem_singleton, Access.inside_mk, Access.inside_mk]
    omega

theorem copyLineAccesses_inside (geometry : frameBuffer.Geometry) {x y newX newY width : Nat}
    (right : x + width ≤ frameBuffer.width) (newRight : newX + width ≤ frameBuffer.width)
    (some_pixel : 0 < width) (top : y < frameBuffer.height) (newTop : newY < frameBuffer.height) :
    ∀ access ∈ frameBuffer.copyLineAccesses (frameBuffer.pixelOffset x y)
        (frameBuffer.pixelOffset newX newY) (width * frameBuffer.bytesPerPixel % 2 ^ 32),
      access.Inside (frameBuffer.pitch * frameBuffer.height) := by
  have line := geometry.line_le right top
  have newLine := geometry.line_le newRight newTop
  rw [copyLineAccesses, geometry.pixelOffset_eq (by omega) top,
    geometry.pixelOffset_eq (by omega) newTop, geometry.line_bytes right (by omega)]
  simp only [List.forall_mem_cons, Access.inside_mk]
  exact ⟨line, newLine, line, newLine, List.forall_mem_nil _⟩

theorem writeBitmapAccesses_inside (geometry : frameBuffer.Geometry) {x y width height : Nat}
    (onScreen : frameBuffer.OnScreen x y (frameBuffer.clipRectangle x y width height)) :
    ∀ access ∈ frameBuffer.writeBitmapAccesses x y width height,
      access.Inside (frameBuffer.pitch * frameBuffer.height) := by
  rw [OnScreen] at onScreen
  rw [writeBitmapAccesses]
  generalize frameBuffer.clipRectangle x y width height = size at onScreen
  dsimp only
  split
  · exact List.forall_mem_nil _
  · rename_i filled
    rw [List.forall_mem_flatMap]
    intro j member
    have below := List.mem_range.mp member
    exact bitmapLineAccesses_inside geometry (by omega) (by omega) (by omega)

theorem copyRegionAccesses_inside (geometry : frameBuffer.Geometry)
    {x y width height newX newY : Nat} (words : width < 2 ^ 32 ∧ height < 2 ^ 32)
    (unwrapped : frameBuffer.Unwrapped x y width height) :
    ∀ access ∈ frameBuffer.copyRegionAccesses x y width height newX newY,
      access.Inside (frameBuffer.pitch * frameBuffer.height) := by
  have both := clipRectangle_twice geometry newX newY words unwrapped
  rw [copyRegionAccesses]
  dsimp only at both ⊢
  generalize frameBuffer.clipRectangle newX newY _ _ = size at both
  rw [OnScreen, OnScreen] at both
  split
  · exact List.forall_mem_nil _
  · rename_i filled
    rw [List.forall_mem_flatMap]
    intro j member
    have below := List.mem_range.mp member
    exact copyLineAccesses_inside geometry (by omega) (by omega) (by omega) (by omega) (by omega)

/-- Drawing at the place, and copying from there, stays inside the buffers, and the rectangle
    is clipped to the display. -/
def Contained (frameBuffer : FrameBuffer) (x y width height newX newY : Nat) : Prop :=
  (∀ access ∈ frameBuffer.writePixelAccesses x y ++
      frameBuffer.writeBitmapAccesses x y width height ++
      frameBuffer.copyRegionAccesses x y width height newX newY,
    access.Inside (frameBuffer.pitch * frameBuffer.height)) ∧
  frameBuffer.OnScreen x y (frameBuffer.clipRectangle x y width height)

/-- Drawing is contained exactly where the sides do not wrap around. -/
theorem contained_iff (geometry : frameBuffer.Geometry) {x y width height newX newY : Nat}
    (words : width < 2 ^ 32 ∧ height < 2 ^ 32) :
    frameBuffer.Contained x y width height newX newY ↔ frameBuffer.Unwrapped x y width height := by
  have clipped := clipRectangle_onScreen_iff (x := x) (y := y) geometry words
  constructor
  · rintro ⟨_, onScreen⟩
    exact clipped.mp onScreen
  · intro unwrapped
    have onScreen := clipped.mpr unwrapped
    refine ⟨?_, onScreen⟩
    rw [List.forall_mem_append, List.forall_mem_append]
    exact ⟨⟨writePixelAccesses_inside geometry x y, writeBitmapAccesses_inside geometry onScreen⟩,
      copyRegionAccesses_inside geometry words unwrapped⟩

/-- A display of 1024 by 768 pixels. -/
def standard : FrameBuffer := ⟨0xFD000000, 1024, 768, 4096, 32, 2 ^ 44⟩

theorem standard_geometry : standard.Geometry :=
  ⟨.inr rfl, by decide, by decide⟩

theorem widest_contained :
    (1 + 1023 < 2 ^ 32 ∧ 767 < 2 ^ 32) ∧ standard.Contained 1 1 1023 767 0 0 :=
  ⟨by decide, (contained_iff standard_geometry (by decide)).mpr
    (.inr (.inr (.inr (.inr (by decide)))))⟩

/-- A line of 2³² - 1 pixels from the second column on is copied to the frame buffer whole. -/
theorem wrapped_not_contained :
    standard.Geometry ∧ ¬ standard.Contained 1 0 (2 ^ 32 - 1) 1 0 0 := by
  refine ⟨standard_geometry, ?_⟩
  rintro ⟨inside, _⟩
  have flushed :
      ⟨standard.pointer, 4, 2 ^ 32 - 4⟩ ∈ standard.writeBitmapAccesses 1 0 (2 ^ 32 - 1) 1 := by
    refine List.mem_flatMap.mpr ⟨0, List.mem_range.mpr (by decide), ?_⟩
    exact List.mem_append_right _ (List.mem_cons_of_mem _ List.mem_cons_self)
  have short := inside _ (List.mem_append_left _ (List.mem_append_right _ flushed))
  exact absurd (Access.inside_mk.mp short) (by decide)

end FrameBuffer

end Mykonos.Display
