import Mykonos.Display.Accesses

/-! # Setting pixels

What a drawing function does to the memory: some pixels get new bytes, in both buffers, and
nothing else changes. Such changes are told apart by their pixels and put together when their
pixels are different.
-/

namespace Mykonos.Display

open Lib Util

namespace FrameBuffer

variable {frameBuffer : FrameBuffer} {memory memory' memory'' : Nat → UInt8}

/-- The two buffers of a display do not overlap. -/
structure Placed (frameBuffer : FrameBuffer) : Prop where
  geometry : frameBuffer.Geometry
  apart :
    AreasApart frameBuffer.pointer frameBuffer.backBuffer (frameBuffer.pitch * frameBuffer.height)

theorem standard_placed : standard.Placed :=
  ⟨standard_geometry, .inl (by decide)⟩

/-- One of the two buffers. -/
def IsBase (frameBuffer : FrameBuffer) (base : Nat) : Prop :=
  base = frameBuffer.backBuffer ∨ base = frameBuffer.pointer

/-- The byte belongs to one of the pixels, in one of the buffers. -/
def Covers (frameBuffer : FrameBuffer) (points : Nat → Nat → Prop) (address : Nat) : Prop :=
  ∃ base, frameBuffer.IsBase base ∧ ∃ x < frameBuffer.width, ∃ y < frameBuffer.height, points x y ∧
    ∃ k < frameBuffer.bytesPerPixel, address = base + (frameBuffer.place x y + k)

/-- The pixels get the bytes in both buffers, and nothing else changes. -/
structure Sets (frameBuffer : FrameBuffer) (points : Nat → Nat → Prop)
    (value : Nat → Nat → Nat → UInt8) (memory memory' : Nat → UInt8) : Prop where
  inside : ∀ base, frameBuffer.IsBase base →
    ∀ x < frameBuffer.width, ∀ y < frameBuffer.height, points x y →
    ∀ k < frameBuffer.bytesPerPixel, memory' (base + (frameBuffer.place x y + k)) = value x y k
  outside : ∀ address, ¬ frameBuffer.Covers points address → memory' address = memory address

variable {points points' : Nat → Nat → Prop} {value value' : Nat → Nat → Nat → UInt8}

/-- The pixels and their bytes say all. -/
theorem Sets.unique (sets : frameBuffer.Sets points value memory memory')
    (sets' : frameBuffer.Sets points value memory memory'') : memory' = memory'' := by
  funext address
  by_cases covered : frameBuffer.Covers points address
  · obtain ⟨base, isBase, x, left, y, top, point, k, byte, rfl⟩ := covered
    rw [sets.inside base isBase x left y top point k byte,
      sets'.inside base isBase x left y top point k byte]
  · rw [sets.outside address covered, sets'.outside address covered]

theorem Sets.congr (sets : frameBuffer.Sets points value memory memory')
    (points_iff : ∀ x < frameBuffer.width, ∀ y < frameBuffer.height, points x y ↔ points' x y)
    (same : ∀ x < frameBuffer.width, ∀ y < frameBuffer.height, points x y →
      ∀ k < frameBuffer.bytesPerPixel, value x y k = value' x y k) :
    frameBuffer.Sets points' value' memory memory' where
  inside := by
    intro base isBase x left y top point k byte
    have point' := (points_iff x left y top).mpr point
    rw [sets.inside base isBase x left y top point' k byte, same x left y top point' k byte]
  outside := by
    intro address free
    refine sets.outside address ?_
    rintro ⟨base, isBase, x, left, y, top, point, rest⟩
    exact free ⟨base, isBase, x, left, y, top, (points_iff x left y top).mp point, rest⟩

theorem sets_none (none : ∀ x < frameBuffer.width, ∀ y < frameBuffer.height, ¬ points x y)
    (value : Nat → Nat → Nat → UInt8) (memory : Nat → UInt8) :
    frameBuffer.Sets points value memory memory where
  inside := fun _ _ x left y top point => absurd point (none x left y top)
  outside := fun _ _ => rfl

/-- A byte of a pixel is covered with it only. -/
theorem Placed.covers_iff (placed : frameBuffer.Placed) {base x y k : Nat}
    (isBase : frameBuffer.IsBase base) (left : x < frameBuffer.width) (top : y < frameBuffer.height)
    (byte : k < frameBuffer.bytesPerPixel) :
    frameBuffer.Covers points (base + (frameBuffer.place x y + k)) ↔ points x y := by
  constructor
  · rintro ⟨base', isBase', x', left', y', top', point, k', byte', same⟩
    have pixel := placed.geometry.pixel_le left top
    have pixel' := placed.geometry.pixel_le left' top'
    have apart := placed.apart
    rw [AreasApart] at apart
    rw [IsBase] at isBase isBase'
    have same_place : frameBuffer.place x y + k = frameBuffer.place x' y' + k' := by omega
    obtain ⟨rfl, rfl, _⟩ := placed.geometry.place_inj left left' byte byte' same_place
    exact point
  · intro point
    exact ⟨base, isBase, x, left, y, top, point, k, byte, rfl⟩

/-- The bytes of the other pixels stay. -/
theorem Sets.other (sets : frameBuffer.Sets points value memory memory')
    (placed : frameBuffer.Placed) {base x y k : Nat} (isBase : frameBuffer.IsBase base)
    (left : x < frameBuffer.width) (top : y < frameBuffer.height)
    (byte : k < frameBuffer.bytesPerPixel) (free : ¬ points x y) :
    memory' (base + (frameBuffer.place x y + k)) = memory (base + (frameBuffer.place x y + k)) :=
  sets.outside _ fun covered => free ((placed.covers_iff isBase left top byte).mp covered)

/-- First some pixels, then others. -/
theorem Sets.append (first : frameBuffer.Sets points value memory memory')
    (second : frameBuffer.Sets points' value memory' memory'') (placed : frameBuffer.Placed)
    (different : ∀ x y, points x y → ¬ points' x y) :
    frameBuffer.Sets (fun x y => points x y ∨ points' x y) value memory memory'' where
  inside := by
    intro base isBase x left y top point k byte
    rcases point with early | late
    · rw [second.other placed isBase left top byte (different x y early)]
      exact first.inside base isBase x left y top early k byte
    · exact second.inside base isBase x left y top late k byte
  outside := by
    intro address free
    rw [second.outside, first.outside]
    · rintro ⟨base, isBase, x, left, y, top, point, rest⟩
      exact free ⟨base, isBase, x, left, y, top, .inl point, rest⟩
    · rintro ⟨base, isBase, x, left, y, top, point, rest⟩
      exact free ⟨base, isBase, x, left, y, top, .inr point, rest⟩

/-! ## Lines of pixels -/

/-- The pixels of a rectangle. -/
def Within (x y width height px py : Nat) : Prop :=
  (x ≤ px ∧ px < x + width) ∧ y ≤ py ∧ py < y + height

theorem not_within {x y width height : Nat} (empty : width = 0 ∨ height = 0) (px py : Nat) :
    ¬ Within x y width height px py := by
  rw [Within]
  omega

/-- A line of pixels is set by what is written to its bytes. -/
theorem sets_line {x y width : Nat} (right : x + width ≤ frameBuffer.width)
    (top : y < frameBuffer.height) (line : Nat → Nat → UInt8)
    (written : ∀ base, frameBuffer.IsBase base → ∀ i < width, ∀ k < frameBuffer.bytesPerPixel,
      memory' (base + frameBuffer.place x y + (i * frameBuffer.bytesPerPixel + k)) = line i k)
    (kept : ∀ other, (∀ base, frameBuffer.IsBase base → other < base + frameBuffer.place x y ∨
      base + frameBuffer.place x y + width * frameBuffer.bytesPerPixel ≤ other) →
      memory' other = memory other) :
    frameBuffer.Sets (Within x y width 1) (fun px _ k => line (px - x) k) memory memory' where
  inside := by
    rintro base isBase px left py below ⟨⟨least, most⟩, row, row'⟩ k byte
    obtain rfl : py = y := by omega
    have column : x + (px - x) = px := by omega
    have place := frameBuffer.place_add x py (px - x)
    rw [column] at place
    rw [place, Nat.add_assoc, ← Nat.add_assoc]
    exact written base isBase _ (by omega) k byte
  outside := by
    intro address free
    refine kept address fun base isBase => ?_
    by_contra inside
    obtain ⟨t, rfl⟩ :=
      Nat.exists_eq_add_of_le (show base + frameBuffer.place x y ≤ address by omega)
    have below : t / frameBuffer.bytesPerPixel < width :=
      Nat.div_lt_of_lt_mul (by rw [Nat.mul_comm]; omega)
    have parts := Nat.div_add_mod t frameBuffer.bytesPerPixel
    refine free ⟨base, isBase, x + t / frameBuffer.bytesPerPixel, by omega, y, top,
      ⟨⟨Nat.le_add_right _ _, by omega⟩, Nat.le_refl _, Nat.lt_succ_self _⟩,
      t % frameBuffer.bytesPerPixel, ?_, ?_⟩
    · exact Nat.mod_lt _ (Nat.pos_of_ne_zero fun none => by rw [none] at inside; omega)
    · rw [place_add, Nat.mul_comm]
      omega

/-- A line that is changed in the back buffer and copied to the frame buffer. -/
theorem Placed.sets_flushed (placed : frameBuffer.Placed) {x y width : Nat}
    (right : x + width ≤ frameBuffer.width) (top : y < frameBuffer.height)
    (line : Nat → Nat → UInt8) (written : ∀ i < width, ∀ k < frameBuffer.bytesPerPixel,
      memory' (frameBuffer.backBuffer + frameBuffer.place x y +
        (i * frameBuffer.bytesPerPixel + k)) = line i k)
    (kept : ∀ other, other < frameBuffer.backBuffer + frameBuffer.place x y ∨
      frameBuffer.backBuffer + frameBuffer.place x y + width * frameBuffer.bytesPerPixel ≤ other →
      memory' other = memory other) :
    frameBuffer.Sets (Within x y width 1) (fun px _ k => line (px - x) k) memory
      (memcpy memory' (frameBuffer.pointer + frameBuffer.place x y)
        (frameBuffer.backBuffer + frameBuffer.place x y) (width * frameBuffer.bytesPerPixel)) := by
  have inside := placed.geometry.line_le right top
  have apart := placed.apart
  rw [AreasApart] at apart
  refine sets_line right top line (fun base isBase i left k byte => ?_) fun other outside => ?_
  · have pixel := tile_le frameBuffer.bytesPerPixel left
    rcases isBase with rfl | rfl
    · rw [memcpy_of_outside (by omega), written i left k byte]
    · rw [memcpy_eq (by rw [AreasApart]; omega), overwrite, if_pos (by omega),
        Nat.add_sub_cancel_left, bytesAt_getElem?, if_pos (by omega), ← written i left k byte]
      rfl
  · rw [memcpy_of_outside (outside _ (.inr rfl)), kept other (outside _ (.inl rfl))]

/-- The new bytes of a pixel that is painted: the fourth stays as it is. -/
def coloured (pixel : Pixel) (old : Nat → UInt8) (k : Nat) : UInt8 :=
  (pixel.bytes[k]?).getD (old k)

section Bitmaps

variable {bitmapLine : Nat → UInt8} {foreground background : Pixel} {line : Nat}

theorem writeBitmapLine_of_outside (wide : 3 ≤ frameBuffer.bytesPerPixel) {count x other : Nat}
    (short : (x + count) * frameBuffer.bytesPerPixel < 2 ^ 32)
    (outside : other < line + x * frameBuffer.bytesPerPixel ∨
      line + (x + count) * frameBuffer.bytesPerPixel ≤ other) :
    frameBuffer.writeBitmapLine bitmapLine foreground background line count x memory other =
      memory other := by
  refine writeBitmapLine_of_missed fun i least below => ?_
  have first := Nat.mul_le_mul_right frameBuffer.bytesPerPixel least
  have last := tile_le frameBuffer.bytesPerPixel below
  rw [Nat.mod_eq_of_lt (by omega)]
  omega

theorem writeBitmapLine_of_inside (memory : Nat → UInt8) (bitmapLine : Nat → UInt8)
    (foreground background : Pixel) (line : Nat) (wide : 3 ≤ frameBuffer.bytesPerPixel)
    {count x i k : Nat} (short : (x + count) * frameBuffer.bytesPerPixel < 2 ^ 32) (least : x ≤ i)
    (below : i < x + count) (byte : k < frameBuffer.bytesPerPixel) :
    frameBuffer.writeBitmapLine bitmapLine foreground background line count x memory
        (line + (i * frameBuffer.bytesPerPixel + k)) =
      coloured (bitmapPixel bitmapLine i foreground background)
        (fun k => memory (line + (i * frameBuffer.bytesPerPixel + k))) k := by
  induction count generalizing x memory with
  | zero => omega
  | succ count ih =>
      have next : x + (count + 1) = x + 1 + count := by omega
      have place : x * frameBuffer.bytesPerPixel % 2 ^ 32 = x * frameBuffer.bytesPerPixel :=
        Nat.mod_eq_of_lt (Nat.lt_of_le_of_lt (Nat.mul_le_mul_right _ (Nat.le_add_right _ _)) short)
      have length (pixel : Pixel) : pixel.bytes.length = 3 := rfl
      rw [next] at short
      rw [writeBitmapLine, place]
      by_cases first : x = i
      · have after := tile_le frameBuffer.bytesPerPixel (show i < i + 1 by omega)
        rw [first] at short ⊢
        rw [writeBitmapLine_of_outside wide short (by omega), coloured, overwrite,
          if_pos (by omega), ← Nat.add_assoc, Nat.add_sub_cancel_left]
      · have before := tile_le frameBuffer.bytesPerPixel (show x < i by omega)
        rw [ih _ short (by omega) (by omega), coloured, coloured]
        congr 1
        exact overwrite_of_outside (by rw [length]; omega)

end Bitmaps

end FrameBuffer

end Mykonos.Display
