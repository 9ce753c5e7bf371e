import Mykonos.Display.Drawing

/-! # Copying a region

`copyRegion` is meant to copy what the back buffer held before the call. It moves the rows in
one order, and reads each of them twice, so that it does so only where no row is written
before it is read for the last time.
-/

namespace Mykonos.Display

open Lib Util

namespace FrameBuffer

variable {frameBuffer : FrameBuffer} {memory : Nat → UInt8} {x y width height newX newY : Nat}

/-- The pixels of the new rectangle hold what the old one held in the back buffer, and nothing
    else has changed. -/
def Snapshot (frameBuffer : FrameBuffer) (x y width height newX newY : Nat)
    (memory memory' : Nat → UInt8) : Prop :=
  frameBuffer.Sets (Within newX newY width height)
    (fun px py k =>
      memory (frameBuffer.backBuffer + (frameBuffer.place (x + (px - newX)) (y + (py - newY)) + k)))
    memory memory'

/-- No row is written before it is read for the last time: there is nothing to copy, the new
    rectangle is higher up or does not overlap, or it is the old one. -/
def Orderly (x y width height newX newY : Nat) : Prop :=
  width = 0 ∨ height = 0 ∨ newY < y ∨ y + height ≤ newY ∨ x + width ≤ newX ∨ newX + width ≤ x ∨
    newX = x ∧ newY = y

theorem Snapshot.read {memory' : Nat → UInt8}
    (snapshot : frameBuffer.Snapshot x y width height newX newY memory memory')
    (placed : frameBuffer.Placed) (newRight : newX + width ≤ frameBuffer.width)
    (newBottom : newY + height ≤ frameBuffer.height) {base i j : Nat}
    (isBase : frameBuffer.IsBase base) (column : i < width) (row : j < height) :
    memory' (base + frameBuffer.place (newX + i) (newY + j)) =
      memory (frameBuffer.backBuffer + frameBuffer.place (x + i) (y + j)) := by
  have wide := placed.geometry.wide
  have first :=
    snapshot.inside base isBase (newX + i) (by omega) (newY + j) (by omega) ⟨by omega, by omega⟩ 0
    (by omega)
  rwa [Nat.add_sub_cancel_left, Nat.add_sub_cancel_left] at first

/-- How many columns are left, for both places. -/
def copiedWidth (frameBuffer : FrameBuffer) (x width newX : Nat) : Nat :=
  min width (min (frameBuffer.width - x) (frameBuffer.width - newX))

def copiedHeight (frameBuffer : FrameBuffer) (y height newY : Nat) : Nat :=
  min height (min (frameBuffer.height - y) (frameBuffer.height - newY))

theorem Geometry.copyRegion_eq (geometry : frameBuffer.Geometry) (across : x + width < 2 ^ 32)
    (down : y + height < 2 ^ 32) (newX newY : Nat) (memory : Nat → UInt8) :
    let columns := frameBuffer.copiedWidth x width newX
    let rows := frameBuffer.copiedHeight y height newY
    frameBuffer.copyRegion x y width height newX newY memory =
      if columns = 0 ∨ rows = 0 then memory
      else frameBuffer.copyLines x y columns newX newY rows 0 memory := by
  have smaller := frameBuffer.clipRectangle_le x y width height
  dsimp only
  rw [copyRegion, copiedWidth, copiedHeight]
  dsimp only
  by_cases off : frameBuffer.width ≤ x ∨ frameBuffer.height ≤ y
  · have none := clipRectangle_off width height off
    generalize frameBuffer.clipRectangle x y width height = first at none
    have smallest := frameBuffer.clipRectangle_le newX newY first.1 first.2
    rw [if_pos (by omega), if_pos (by omega)]
  rw [clipRectangle_fits (by omega) (by omega) across down]
  dsimp only
  by_cases newOff : frameBuffer.width ≤ newX ∨ frameBuffer.height ≤ newY
  · have none :=
      clipRectangle_off (min width (frameBuffer.width - x))
        (min height (frameBuffer.height - y)) newOff
    rw [if_pos none, if_pos (by omega)]
  have narrow := geometry.narrow (by omega)
  have low := geometry.low (by omega)
  rw [clipRectangle_fits (by omega) (by omega) (by omega) (by omega), Nat.min_assoc, Nat.min_assoc]

/-- The copy in the back buffer, and the source afterwards. -/
theorem memcpy_orderly {dst src n t : Nat} (orderly : AreasApart dst src n ∨ dst = src)
    (inside : t < n) :
    memcpy memory dst src n (dst + t) = memory (src + t) ∧ memcpy memory dst src n (src + t) =
      memory (src + t) := by
  rcases orderly with apart | same
  · rw [memcpy_eq apart]
    rw [AreasApart] at apart
    have length := bytesAt_length memory src n
    constructor
    · rw [overwrite, if_pos (by omega), Nat.add_sub_cancel_left, bytesAt_getElem?, if_pos inside]
      rfl
    · exact overwrite_of_outside (by omega)
  · rw [same, memcpy_self]
    exact ⟨rfl, rfl⟩

/-- A line is copied to both buffers, from a line that the copy does not touch, or to itself. -/
theorem Placed.copyLine_sets (placed : frameBuffer.Placed) (right : x + width ≤ frameBuffer.width)
    (newRight : newX + width ≤ frameBuffer.width) (top : y < frameBuffer.height)
    (newTop : newY < frameBuffer.height)
    (orderly : AreasApart (frameBuffer.place newX newY) (frameBuffer.place x y)
      (width * frameBuffer.bytesPerPixel) ∨
      frameBuffer.place newX newY = frameBuffer.place x y) :
    frameBuffer.Snapshot x y width 1 newX newY memory
      (memcpy (memcpy memory (frameBuffer.backBuffer + frameBuffer.place newX newY)
          (frameBuffer.backBuffer + frameBuffer.place x y) (width * frameBuffer.bytesPerPixel))
        (frameBuffer.pointer + frameBuffer.place newX newY)
        (frameBuffer.backBuffer + frameBuffer.place x y) (width * frameBuffer.bytesPerPixel)) := by
  have source := placed.geometry.line_le right top
  have dest := placed.geometry.line_le newRight newTop
  have buffers := placed.apart
  rw [AreasApart] at orderly buffers
  have orderly' : AreasApart (frameBuffer.backBuffer + frameBuffer.place newX newY)
      (frameBuffer.backBuffer + frameBuffer.place x y) (width * frameBuffer.bytesPerPixel) ∨
      frameBuffer.backBuffer + frameBuffer.place newX newY =
        frameBuffer.backBuffer + frameBuffer.place x y := by
    rw [AreasApart]
    omega
  refine Sets.congr (sets_line newRight newTop
    (fun i k => memory (frameBuffer.backBuffer + frameBuffer.place x y +
      (i * frameBuffer.bytesPerPixel + k)))
    (fun base isBase i left k byte => ?_) fun other outside => ?_) (fun _ _ _ _ => Iff.rfl) ?_
  · have pixel := tile_le frameBuffer.bytesPerPixel left
    have copied :=
      @memcpy_orderly memory _ _ _ (i * frameBuffer.bytesPerPixel + k) orderly' (by omega)
    rcases isBase with rfl | rfl
    · rw [memcpy_of_outside (by omega), copied.1]
    · rw [memcpy_eq (by rw [AreasApart]; omega), overwrite, if_pos (by omega),
        Nat.add_sub_cancel_left, bytesAt_getElem?, if_pos (by omega), ← copied.2]
      rfl
  · rw [memcpy_of_outside (outside _ (.inr rfl)), memcpy_of_outside (outside _ (.inl rfl))]
  · rintro px _ py _ ⟨_, row, row'⟩ k _
    obtain rfl : py = newY := by omega
    rw [Nat.sub_self, Nat.add_zero, place_add, ← Nat.add_assoc, ← Nat.add_assoc, ← Nat.add_assoc]

/-- What the copy of a line does not touch. -/
theorem Orderly.line (orderly : Orderly x y width height newX newY)
    (geometry : frameBuffer.Geometry) (some_pixel : 0 < width) (some_line : 0 < height)
    (right : x + width ≤ frameBuffer.width) (newRight : newX + width ≤ frameBuffer.width)
    (yOffset : Nat) :
    AreasApart (frameBuffer.place newX (newY + yOffset)) (frameBuffer.place x (y + yOffset))
        (width * frameBuffer.bytesPerPixel) ∨
      frameBuffer.place newX (newY + yOffset) = frameBuffer.place x (y + yOffset) := by
  rw [AreasApart]
  rcases Nat.lt_trichotomy newY y with higher | same | lower
  · exact .inl (.inl (geometry.line_before newRight (by omega) x))
  · rw [Orderly, same] at orderly
    rw [same, place, place]
    rcases (show x + width ≤ newX ∨ newX + width ≤ x ∨ newX = x by omega) with behind |
      before | equal
    · have columns := Nat.mul_le_mul_right frameBuffer.bytesPerPixel behind
      rw [Nat.add_mul] at columns
      omega
    · have columns := Nat.mul_le_mul_right frameBuffer.bytesPerPixel before
      rw [Nat.add_mul] at columns
      omega
    · rw [equal]
      exact .inr rfl
  · exact .inl (.inr (geometry.line_before right (by omega) newX))

theorem Placed.copyLines_sets (placed : frameBuffer.Placed) {count : Nat} (yOffset : Nat)
    (memory : Nat → UInt8) (right : x + width ≤ frameBuffer.width)
    (newRight : newX + width ≤ frameBuffer.width)
    (bottom : y + yOffset + count ≤ frameBuffer.height)
    (newBottom : newY + yOffset + count ≤ frameBuffer.height) (some_pixel : 0 < width)
    (orderly : Orderly x y width count newX newY) :
    frameBuffer.Snapshot x (y + yOffset) width count newX (newY + yOffset) memory
      (frameBuffer.copyLines x y width newX newY count yOffset memory) := by
  induction count generalizing yOffset memory with
  | zero => exact sets_none (fun px _ py _ => not_within (.inr rfl) px py) _ memory
  | succ count ih =>
      have line :=
        @placed.copyLine_sets _ memory x (y + yOffset) width newX (newY + yOffset) right newRight
          (by omega) (by omega)
          (orderly.line placed.geometry some_pixel (by omega) right newRight yOffset)
      have later : Orderly x y width count newX newY := by
        rw [Orderly] at orderly ⊢
        omega
      have rest := fun memory => ih (yOffset + 1) memory (by omega) (by omega) later
      rw [copyLines, placed.geometry.pixelOffset_eq (by omega) (by omega),
        placed.geometry.pixelOffset_eq (by omega) (by omega),
        placed.geometry.line_bytes right (by omega)]
      refine Sets.congr (line.append (Sets.congr (rest _) (fun _ _ _ _ => Iff.rfl) ?_) placed ?_) ?_
        fun _ _ _ _ _ _ _ => rfl
      · rintro px left py top ⟨⟨least, most⟩, above, below⟩ k byte
        have row : y + (yOffset + 1) + (py - (newY + (yOffset + 1))) =
          y + yOffset + (py - (newY + yOffset)) := by omega
        rw [row]
        refine line.other placed (.inl rfl) (by omega) (by omega) byte ?_
        rw [Orderly] at orderly
        rw [Within]
        omega
      · intro px py early late
        rw [Within] at early late
        omega
      · intro px _ py _
        rw [Within, Within, Within]
        omega

/-! ## Rows that are written too early -/

theorem copyLines_add (first second yOffset : Nat) :
    frameBuffer.copyLines x y width newX newY (first + second) yOffset memory =
      frameBuffer.copyLines x y width newX newY second (yOffset + first)
        (frameBuffer.copyLines x y width newX newY first yOffset memory) := by
  induction first generalizing yOffset memory with
  | zero => rw [Nat.zero_add, Nat.add_zero, copyLines]
  | succ first ih =>
      have next : yOffset + (first + 1) = yOffset + 1 + first := by omega
      rw [Nat.add_right_comm, copyLines, ih, copyLines, next]

/-- The rows above those that are copied to stay. -/
theorem Placed.copyLines_above (placed : frameBuffer.Placed) {count yOffset base px py : Nat}
    (newRight : newX + width ≤ frameBuffer.width) (some_pixel : 0 < width)
    (right : x + width ≤ frameBuffer.width)
    (newBottom : newY + yOffset + count ≤ frameBuffer.height) (isBase : frameBuffer.IsBase base)
    (left : px < frameBuffer.width) (above : py < newY + yOffset) (high : py < frameBuffer.height) :
    frameBuffer.copyLines x y width newX newY count yOffset memory
      (base + frameBuffer.place px py) =
      memory (base + frameBuffer.place px py) := by
  induction count generalizing yOffset memory with
  | zero => rfl
  | succ count ih =>
      have wide := placed.geometry.wide
      have top : newY + yOffset < frameBuffer.height := by omega
      have line := placed.geometry.line_le newRight top
      have pixel := placed.geometry.pixel_le left high
      have before :=
        placed.geometry.line_before (show px + 1 ≤ frameBuffer.width from left) above newX
      have buffers := placed.apart
      rw [AreasApart] at buffers
      rw [IsBase] at isBase
      rw [copyLines, ih (by omega) (by omega), placed.geometry.pixelOffset_eq (by omega) top,
        placed.geometry.line_bytes right (by omega), memcpy_of_outside (by omega),
        memcpy_of_outside (by omega)]

/-- Where the new rectangle is not higher up, a pixel is shown with what its source is left
    with in the end. -/
theorem Placed.copyLines_shows (placed : frameBuffer.Placed) {i j rest : Nat} (memory : Nat → UInt8)
    (right : x + width ≤ frameBuffer.width) (newRight : newX + width ≤ frameBuffer.width)
    (newBottom : newY + (j + (rest + 1)) ≤ frameBuffer.height) (below : y ≤ newY)
    (column : i < width) :
    let drawn := frameBuffer.copyLines x y width newX newY (j + (rest + 1)) 0 memory
    drawn (frameBuffer.pointer + frameBuffer.place (newX + i) (newY + j)) =
      drawn (frameBuffer.backBuffer + frameBuffer.place (x + i) (y + j)) := by
  have wide := placed.geometry.wide
  have source : y + j < frameBuffer.height := by omega
  have dest : newY + j < frameBuffer.height := by omega
  have pixel := tile_le frameBuffer.bytesPerPixel column
  have line := placed.geometry.line_le right source
  have newLine := placed.geometry.line_le newRight dest
  have buffers := placed.apart
  rw [AreasApart] at buffers
  dsimp only
  rw [copyLines_add, copyLines, Nat.zero_add,
    placed.copyLines_above newRight (by omega) right (by omega) (.inr rfl) (by omega)
      (by omega) dest,
    placed.copyLines_above newRight (by omega) right (by omega) (.inl rfl) (by omega)
      (by omega) source,
    placed.geometry.pixelOffset_eq (by omega) source,
    placed.geometry.pixelOffset_eq (by omega) dest, placed.geometry.line_bytes right (by omega),
    memcpy_eq (by rw [AreasApart]; omega), place_add, place_add, ← Nat.add_assoc, ← Nat.add_assoc,
    overwrite, if_pos (by omega), Nat.add_sub_cancel_left, bytesAt_getElem?,
    if_pos (by omega), overwrite_of_outside (by rw [bytesAt_length]; omega)]
  rfl

/-- A byte of the back buffer that differs from all others. -/
def marked (frameBuffer : FrameBuffer) (x y address : Nat) : UInt8 :=
  if address = frameBuffer.backBuffer + frameBuffer.place x y then 1 else 0

/-- Where the rectangles overlap and the new one is not higher up, a pixel of both is shown
    with what its own copy left in it. -/
theorem Placed.copyLines_not_snapshot (placed : frameBuffer.Placed)
    (right : x + width ≤ frameBuffer.width) (newRight : newX + width ≤ frameBuffer.width)
    (bottom : y + height ≤ frameBuffer.height) (newBottom : newY + height ≤ frameBuffer.height)
    (disorderly : ¬ Orderly x y width height newX newY) :
    ¬ frameBuffer.Snapshot x y width height newX newY (frameBuffer.marked (max x newX) newY)
      (frameBuffer.copyLines x y width newX newY height 0
        (frameBuffer.marked (max x newX) newY)) := by
  intro snapshot
  rw [Orderly] at disorderly
  have wide := placed.geometry.wide
  have size := placed.geometry.size
  obtain ⟨i, column⟩ : ∃ i, max x newX = x + i := Nat.exists_eq_add_of_le (Nat.le_max_left x newX)
  obtain ⟨i', column'⟩ : ∃ i', max x newX = newX + i' :=
    Nat.exists_eq_add_of_le (Nat.le_max_right x newX)
  obtain ⟨j, row⟩ : ∃ j, newY = y + j := Nat.exists_eq_add_of_le (by omega)
  obtain ⟨rest, rows⟩ : ∃ rest, height = j + (rest + 1) :=
    Nat.exists_eq_add_of_lt (show j < height by omega)
  have shown :=
    snapshot.read placed newRight newBottom (.inr rfl) (show i < width by omega) (show j <
      height by omega)
  have copied := snapshot.read placed newRight newBottom (.inl rfl) (show i' < width by omega)
    (show 0 < height by omega)
  have other : frameBuffer.place (x + i') y + 0 ≠ frameBuffer.place (max x newX) newY + 0 := by
    intro same
    have byte : 0 < frameBuffer.bytesPerPixel := by omega
    have equal := placed.geometry.place_inj (by omega) (by omega) byte byte same
    omega
  rw [← column, ← row, marked, if_pos rfl] at shown
  rw [Nat.add_zero, Nat.add_zero, ← column', marked, if_neg (by omega)] at copied
  generalize frameBuffer.marked (max x newX) newY = memory at shown copied
  subst rows
  have seen := placed.copyLines_shows memory right newRight newBottom (show y ≤ newY by omega)
    (show i < width by omega)
  dsimp only at seen
  rw [shown, ← column, ← row, copied] at seen
  exact absurd seen (by decide)

/-- The region is copied as it was, whatever it held, exactly where the copy is orderly. -/
theorem Placed.copyRegion_snapshot_iff (placed : frameBuffer.Placed) (across : x + width < 2 ^ 32)
    (down : y + height < 2 ^ 32) :
    let columns := frameBuffer.copiedWidth x width newX
    let rows := frameBuffer.copiedHeight y height newY
    (∀ memory, frameBuffer.Snapshot x y columns rows newX newY memory
      (frameBuffer.copyRegion x y width height newX newY memory)) ↔
    Orderly x y columns rows newX newY := by
  have copied := @placed.geometry.copyRegion_eq _ x y width height across down newX newY
  have narrower : frameBuffer.copiedWidth x width newX ≤
      min (frameBuffer.width - x) (frameBuffer.width - newX) :=
    Nat.min_le_right _ _
  have lower : frameBuffer.copiedHeight y height newY ≤
      min (frameBuffer.height - y) (frameBuffer.height - newY) :=
    Nat.min_le_right _ _
  dsimp only at copied ⊢
  generalize frameBuffer.copiedWidth x width newX = columns at copied narrower
  generalize frameBuffer.copiedHeight y height newY = rows at copied lower
  by_cases empty : columns = 0 ∨ rows = 0
  · refine iff_of_true (fun memory => ?_) (or_assoc.mp (.inl empty))
    rw [copied, if_pos empty]
    exact sets_none (fun px _ py _ => not_within empty px py) _ memory
  · constructor
    · intro snapshot
      by_contra disorderly
      refine placed.copyLines_not_snapshot (by omega) (by omega) (by omega) (by omega) disorderly ?_
      have all := snapshot (frameBuffer.marked (max x newX) newY)
      rwa [copied, if_neg empty] at all
    · intro orderly memory
      rw [copied, if_neg empty]
      exact placed.copyLines_sets 0 memory (by omega) (by omega) (by omega) (by omega)
        (by omega) orderly

/-- The display is scrolled up by a line of text. -/
theorem scroll_snapshot :
    (0 + 1024 < 2 ^ 32 ∧ 16 + 2000 < 2 ^ 32) ∧
    ∀ memory, standard.Snapshot 0 16 (standard.copiedWidth 0 1024 0)
      (standard.copiedHeight 16 2000 0) 0 0 memory
      (standard.copyRegion 0 16 1024 2000 0 0 memory) :=
  ⟨by decide, (standard_placed.copyRegion_snapshot_iff (by decide) (by decide)).mpr
    (.inr (.inr (.inl (by decide))))⟩

/-- Sixteen pixels of a line are moved to the left by eight, and the frame buffer is written
    from pixels that have been overwritten. -/
theorem moved_left_not_snapshot :
    standard.Placed ∧ ¬ standard.Snapshot 8 0 16 1 0 0 (standard.marked 8 0)
      (standard.copyRegion 8 0 16 1 0 0 (standard.marked 8 0)) := by
  refine ⟨standard_placed, ?_⟩
  rw [standard_geometry.copyRegion_eq (by decide) (by decide), if_neg (by decide)]
  exact standard_placed.copyLines_not_snapshot (by decide) (by decide) (by decide) (by decide)
    (by unfold Orderly; decide)

end FrameBuffer

end Mykonos.Display
