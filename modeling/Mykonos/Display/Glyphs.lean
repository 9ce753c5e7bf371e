import Mykonos.Display.Calls
import Mykonos.Display.Geometry

/-! # The glyphs of the font

Which bytes of the font are read when a text is printed. The offset of a glyph is computed
from a signed character, so that it is right for half of the bytes only.
-/

namespace Mykonos.Display

namespace FrameBuffer

variable (frameBuffer : FrameBuffer)

/-- The offsets of the bytes that `writeBitmap` reads in the bitmap. -/
def bitmapReads (initialX initialY width height : Nat) : List Nat :=
  let (width, height) := frameBuffer.clipRectangle initialX initialY width height
  if width = 0 ∨ height = 0 then []
  else
    let bytesPerBitmapLine := (width + 7) % 2 ^ 32 / 8
    (List.range height).flatMap fun y => (List.range width).map fun x =>
      y * bytesPerBitmapLine % 2 ^ 32 + x / 8

variable {frameBuffer} {bitmap bitmap' : Nat → UInt8} {foreground background : Pixel}
  {memory : Nat → UInt8}

theorem writeBitmapLine_congr {bitmapLine bitmapLine' : Nat → UInt8} {line count x : Nat}
    (same : ∀ i, x ≤ i → i < x + count → bitmapLine (i / 8) = bitmapLine' (i / 8)) :
    frameBuffer.writeBitmapLine bitmapLine foreground background line count x memory =
      frameBuffer.writeBitmapLine bitmapLine' foreground background line count x memory := by
  induction count generalizing x memory with
  | zero => rfl
  | succ count ih =>
      rw [writeBitmapLine, writeBitmapLine, bitmapPixel, bitmapPixel,
        same x (Nat.le_refl x) (by omega)]
      exact ih fun i least below => same i (by omega) (by omega)

theorem writeBitmapLines_congr {initialX initialY width bytesPerBitmapLine count y : Nat}
    (same : ∀ j, y ≤ j → j < y + count → ∀ i < width,
      bitmap (j * bytesPerBitmapLine % 2 ^ 32 + i / 8) =
        bitmap' (j * bytesPerBitmapLine % 2 ^ 32 + i / 8)) :
    frameBuffer.writeBitmapLines initialX initialY width bytesPerBitmapLine bitmap foreground
        background count y memory =
      frameBuffer.writeBitmapLines initialX initialY width bytesPerBitmapLine bitmap' foreground
        background count y memory := by
  induction count generalizing y memory with
  | zero => rfl
  | succ count ih =>
      rw [writeBitmapLines, writeBitmapLines, ih fun j least below => same j (by omega) (by omega),
        @writeBitmapLine_congr _ _ _ _ (fun i => bitmap (y * bytesPerBitmapLine % 2 ^ 32 + i))
          (fun i => bitmap' (y * bytesPerBitmapLine % 2 ^ 32 + i)) _ _ _
          fun i _ below => same y (Nat.le_refl y) (by omega) i (by omega)]

/-- Nothing else of the bitmap matters. -/
theorem writeBitmap_congr {x y width height : Nat}
    (same : ∀ read ∈ frameBuffer.bitmapReads x y width height, bitmap read = bitmap' read) :
    frameBuffer.writeBitmap x y width height bitmap foreground background memory =
      frameBuffer.writeBitmap x y width height bitmap' foreground background memory := by
  rw [writeBitmap, writeBitmap]
  rw [bitmapReads] at same
  dsimp only at same ⊢
  split
  · rfl
  · rename_i filled
    rw [if_neg filled] at same
    refine writeBitmapLines_congr fun j _ below i left => same _ ?_
    exact List.mem_flatMap.mpr ⟨j, List.mem_range.mpr (by omega),
      List.mem_map.mpr ⟨i, List.mem_range.mpr left, rfl⟩⟩

/-- What is read lies in a bitmap with rows of whole bytes. -/
theorem bitmapReads_lt {x y width height read : Nat}
    (member : read ∈ frameBuffer.bitmapReads x y width height) :
    read < height * ((width + 7) / 8) := by
  have smaller := frameBuffer.clipRectangle_le x y width height
  rw [bitmapReads] at member
  generalize frameBuffer.clipRectangle x y width height = size at member smaller
  dsimp only at member
  split at member
  · exact absurd member List.not_mem_nil
  · obtain ⟨j, row, inside⟩ := List.mem_flatMap.mp member
    obtain ⟨i, column, rfl⟩ := List.mem_map.mp inside
    rw [List.mem_range] at row column
    have stride : (size.1 + 7) % 2 ^ 32 / 8 ≤ (width + 7) / 8 := by omega
    have rows := Lib.tile_le ((width + 7) / 8) (show j < height by omega)
    calc j * ((size.1 + 7) % 2 ^ 32 / 8) % 2 ^ 32 + i / 8
        ≤ j * ((size.1 + 7) % 2 ^ 32 / 8) + i / 8 := Nat.add_le_add_right (Nat.mod_le ..) _
      _ ≤ j * ((width + 7) / 8) + i / 8 := Nat.add_le_add_right (Nat.mul_le_mul_left j stride) _
      _ < height * ((width + 7) / 8) := by omega

end FrameBuffer

namespace PsfFile

variable (font : PsfFile)

/-- Glyphs of at least one pixel that fit the size that is given for them, in 32-bit fields. -/
structure WellFormed : Prop where
  width_pos : 0 < font.width
  height_pos : 0 < font.height
  width_lt : font.width < 2 ^ 32
  height_lt : font.height < 2 ^ 32
  glyphSize_lt : font.glyphSize < 2 ^ 32
  fits : font.height * ((font.width + 7) / 8) ≤ font.glyphSize

/-- The bytes of the glyph data that `render` reads. -/
def renderReads (frameBuffer : FrameBuffer) (c : UInt8) (x y : Nat) : List Nat :=
  (frameBuffer.bitmapReads x y font.width font.height).map (font.glyphOffset c + ·)

/-- The offset that is computed for a character is that of its glyph. -/
def Addresses (c : UInt8) : Prop :=
  font.glyphSize = 2 ^ 24 ∨ c.toNat < 128 ∧ c.toNat * font.glyphSize < 2 ^ 32

/-- The glyph of a character is drawn, from inside the glyph data. -/
def DrawsGlyph (numGlyphs : Nat) (frameBuffer : FrameBuffer) (c : UInt8) (x y : Nat) : Prop :=
  font.glyphOffset c = c.toNat * font.glyphSize ∧
    ∀ read ∈ font.renderReads frameBuffer c x y, read < numGlyphs * font.glyphSize

variable {font}

theorem WellFormed.glyphSize_pos (wellFormed : font.WellFormed) : 0 < font.glyphSize := by
  have width := wellFormed.width_pos
  exact Nat.lt_of_lt_of_le (Nat.mul_pos wellFormed.height_pos (by omega)) wellFormed.fits

/-- A `char` is signed. -/
theorem toInt8_toInt_eq (c : UInt8) :
    c.toInt8.toInt = if c.toNat < 128 then (c.toNat : Int) else c.toNat - 256 := by
  have signed : c.toInt8.toInt = c.toBitVec.toInt := rfl
  rw [signed, BitVec.toInt_eq_toNat_cond]
  have same : c.toBitVec.toNat = c.toNat := rfl
  rw [same]
  split_ifs <;> omega

theorem WellFormed.glyphOffset_eq_iff (wellFormed : font.WellFormed) (c : UInt8) :
    font.glyphOffset c = c.toNat * font.glyphSize ↔ font.Addresses c := by
  have positive := wellFormed.glyphSize_pos
  have small := wellFormed.glyphSize_lt
  have byte : c.toNat < 256 := c.toNat_lt
  have most : c.toNat * font.glyphSize ≤ 255 * font.glyphSize := Nat.mul_le_mul_right _ (by omega)
  rw [glyphOffset, Addresses, toInt8_toInt_eq]
  split
  · rename_i low
    have lowest : c.toNat * font.glyphSize ≤ 127 * font.glyphSize :=
      Nat.mul_le_mul_right _ (by omega)
    rw [← Int.natCast_mul]
    omega
  · rename_i high
    have least : 128 * font.glyphSize ≤ c.toNat * font.glyphSize :=
      Nat.mul_le_mul_right _ (by omega)
    rw [Int.sub_mul, ← Int.natCast_mul]
    omega

/-- Everything that is read of a glyph at its place is inside. -/
theorem WellFormed.drawsGlyph_iff (wellFormed : font.WellFormed) {numGlyphs : Nat}
    (enough : 256 ≤ numGlyphs) (frameBuffer : FrameBuffer) (c : UInt8) (x y : Nat) :
    font.DrawsGlyph numGlyphs frameBuffer c x y ↔ font.Addresses c := by
  rw [← wellFormed.glyphOffset_eq_iff, DrawsGlyph, and_iff_left_iff_imp]
  intro place read member
  obtain ⟨offset, inside, rfl⟩ := List.mem_map.mp member
  have below := FrameBuffer.bitmapReads_lt inside
  have fits := wellFormed.fits
  have byte : c.toNat < 256 := c.toNat_lt
  have glyphs := Lib.tile_le font.glyphSize (show c.toNat < numGlyphs by omega)
  rw [place]
  omega

end PsfFile

/-- Each glyph that a call draws is the one of its character, from inside the glyph data. -/
def Call.DrawsGlyphs (font : PsfFile) (numGlyphs : Nat) (frameBuffer : FrameBuffer) : Call → Prop
  | .writeCharacter x y c => font.DrawsGlyph numGlyphs frameBuffer c x y
  | .removeCharacter x y => font.DrawsGlyph numGlyphs frameBuffer space x y
  | .copyRegion .. => True

/-- The calls of the display that are made for the texts, on any display with room for a
    character. -/
def PrintsGlyphs (font : PsfFile) (numGlyphs : Nat) (texts : List (List UInt8)) : Prop :=
  ∀ frameBuffer, (frameScreen frameBuffer font).Suitable → ∀ fresh s,
    texts.foldlM (Console.print (frameScreen frameBuffer font).recorder fresh) (Screen.start []) =
      some s → ∀ call ∈ s.display, call.DrawsGlyphs font numGlyphs frameBuffer

/-- A display of one cell. -/
def PsfFile.cell (font : PsfFile) : FrameBuffer where
  pointer := 0
  width := font.width
  height := font.height
  pitch := 4 * font.width
  depth := 32
  backBuffer := 2 ^ 44

section Printing

variable {font : PsfFile}

theorem PsfFile.WellFormed.cell_columns (wellFormed : font.WellFormed) :
    (frameScreen font.cell font).columns = 1 :=
  Nat.div_self wellFormed.width_pos

theorem PsfFile.WellFormed.cell_lines (wellFormed : font.WellFormed) :
    (frameScreen font.cell font).lines = 1 :=
  Nat.div_self wellFormed.height_pos

theorem PsfFile.WellFormed.cell_suitable (wellFormed : font.WellFormed) :
    (frameScreen font.cell font).Suitable where
  fontWidth_pos := wellFormed.width_pos
  fontHeight_pos := wellFormed.height_pos
  wide := Nat.le_refl _
  high := Nat.le_refl _
  width_lt := wellFormed.width_lt
  height_lt := wellFormed.height_lt
  allocated := by
    rw [wellFormed.cell_columns, wellFormed.cell_lines]
    decide

/-- A character that stays fills a sheet of one cell. -/
theorem Sheet.Valid.type_in_cell {sheet : Sheet} (valid : sheet.Valid 1 1) {c : UInt8}
    (plain : c ≠ Console.newline) (nonzero : c ≠ 0) :
    (sheet.type 1 1 c).line = 0 ∧ (sheet.type 1 1 c).column = 1 ∧
    (sheet.type 1 1 c).rows 0 = [c] := by
  obtain ⟨valid', room⟩ := valid.makeRoom Nat.one_pos c
  have line : (sheet.makeRoom 1 1 c).line = 0 := Nat.lt_one_iff.mp valid'.line_lt
  have column : (sheet.makeRoom 1 1 c).column = 0 := Nat.lt_one_iff.mp room
  have behind := valid'.behind
  rw [column, line, Nat.le_zero, List.length_eq_zero_iff] at behind
  rw [Sheet.type, if_neg plain, Sheet.put]
  dsimp only
  rw [line, column, behind, Function.update_self]
  exact ⟨rfl, rfl, if_pos ⟨rfl, nonzero⟩⟩

/-- In a display of one cell, a character is removed when another one comes. -/
theorem PsfFile.WellFormed.removed_in_cell (wellFormed : font.WellFormed) {text : List UInt8}
    (filled : Filled text.dropLast) :
    ∃ x y, .removeCharacter x y ∈
      (text.foldl (frameScreen font.cell font).recorder.typed ({}, [])).2 := by
  obtain ⟨c, member, plain, nonzero⟩ := filled
  obtain ⟨before, behind, parts⟩ := List.append_of_mem member
  have some_character : text ≠ [] := by
    rintro rfl
    exact absurd member List.not_mem_nil
  obtain ⟨d, after, next⟩ : ∃ d after, behind ++ [text.getLast some_character] = d :: after :=
    List.exists_cons_of_ne_nil (List.append_ne_nil_of_right_ne_nil _ (List.cons_ne_nil _ _))
  have whole : text = before ++ c :: d :: after := by
    rw [← next, ← List.cons_append, ← List.append_assoc, ← parts, List.dropLast_concat_getLast]
  have suitable := wellFormed.cell_suitable
  have columns : (frameScreen font.cell font).recorder.columns = 1 := wellFormed.cell_columns
  have lines : (frameScreen font.cell font).recorder.lines = 1 := wellFormed.cell_lines
  obtain ⟨_, _, _, valid, _⟩ := suitable.recorder.prints (fun _ => 0) [] before []
  rw [List.flatten_singleton, columns, lines] at valid
  rw [whole, List.foldl_append, List.foldl_cons, List.foldl_cons]
  generalize before.foldl (frameScreen font.cell font).recorder.typed ({}, []) = page at valid
  obtain ⟨line, column, row⟩ := valid.type_in_cell plain nonzero
  have drawn : ∃ x y, .removeCharacter x y ∈
    (frameScreen font.cell font).recorder.drawRoom (page.1.type 1 1 c) d
      ((frameScreen font.cell font).recorder.typed page c).2 := by
    rw [Screen.drawRoom, columns, if_pos (.inl column.ge), Screen.drawNextLine, lines,
      if_neg (by omega), Screen.scrolled, lines, Nat.sub_self, row]
    exact ⟨_, _, List.mem_append_right _ List.mem_cons_self⟩
  obtain ⟨x, y, removed⟩ := drawn
  refine ⟨x, y, Screen.mem_typed ?_⟩
  have page_fst : ((frameScreen font.cell font).recorder.typed page c).1 = page.1.type 1 1 c := by
    rw [Screen.typed, columns, lines]
  rw [Screen.typed, Screen.draw, page_fst]
  dsimp only
  split
  · exact removed
  · exact List.mem_append_left _ removed

theorem PrintsGlyphs.written (wellFormed : font.WellFormed) {numGlyphs : Nat}
    (enough : 256 ≤ numGlyphs) {text : List UInt8} {texts : List (List UInt8)}
    (prints : PrintsGlyphs font numGlyphs (text :: texts)) {c : UInt8}
    (member : c ∈ (text :: texts).flatten) (plain : c ≠ Console.newline) : font.Addresses c := by
  have suitable := wellFormed.cell_suitable
  obtain ⟨s, printed, _, _, _, rfl, _⟩ := suitable.recorder.prints (fun _ => 0) [] text texts
  obtain ⟨x, y, written⟩ :=
    @Screen.exists_written _ (frameScreen font.cell font) _ ({}, []) c member plain
  exact (wellFormed.drawsGlyph_iff enough font.cell c x y).mp
    (prints font.cell suitable _ _ printed _ written)

theorem PrintsGlyphs.removed (wellFormed : font.WellFormed) {numGlyphs : Nat}
    (enough : 256 ≤ numGlyphs) {text : List UInt8} {texts : List (List UInt8)}
    (prints : PrintsGlyphs font numGlyphs (text :: texts))
    (filled : Filled (text :: texts).flatten.dropLast) : font.Addresses space := by
  have suitable := wellFormed.cell_suitable
  obtain ⟨s, printed, _, _, _, rfl, _⟩ := suitable.recorder.prints (fun _ => 0) [] text texts
  obtain ⟨x, y, removed⟩ := wellFormed.removed_in_cell filled
  exact (wellFormed.drawsGlyph_iff enough font.cell space x y).mp
    (prints font.cell suitable _ _ printed _ removed)

/-- Printing draws the right glyphs, from inside the font, exactly where the offsets of the
    characters that are written are right, and that of the space if one can be removed. -/
theorem printsGlyphs_iff (wellFormed : font.WellFormed) {numGlyphs : Nat} (enough : 256 ≤ numGlyphs)
    (text : List UInt8) (texts : List (List UInt8)) :
    PrintsGlyphs font numGlyphs (text :: texts) ↔
      (∀ c ∈ (text :: texts).flatten, c ≠ Console.newline → font.Addresses c) ∧
      (Filled (text :: texts).flatten.dropLast → font.Addresses space) := by
  constructor
  · intro prints
    exact ⟨fun c member plain => prints.written wellFormed enough member plain,
      prints.removed wellFormed enough⟩
  · rintro ⟨written, removed⟩ frameBuffer suitable fresh s printed
    obtain ⟨s', printed', _, _, _, rfl, _⟩ := suitable.recorder.prints fresh [] text texts
    obtain rfl := Option.some.inj (printed.symm.trans printed')
    refine Screen.typed_calls (List.forall_mem_nil _) (fun _ _ _ _ _ _ => trivial) ?_ ?_
    · intro c member plain x y
      exact (wellFormed.drawsGlyph_iff enough frameBuffer c x y).mpr (written c member plain)
    · rintro (⟨⟨l, row⟩, _⟩ | filled) x y
      · exact absurd rfl row
      · exact (wellFormed.drawsGlyph_iff enough frameBuffer space x y).mpr (removed filled)

/-- The sizes of the kernel's font, which has 256 glyphs. -/
def consoleFont : PsfFile := ⟨40, 20, 10, fun _ => 0⟩

theorem consoleFont_wellFormed : consoleFont.WellFormed :=
  ⟨by decide, by decide, by decide, by decide, by decide, by decide⟩

/-- ASCII is addressed in place. -/
theorem consoleFont_addresses {c : UInt8} (ascii : c.toNat < 128) : consoleFont.Addresses c := by
  have inside : c.toNat * 40 < 2 ^ 32 := by omega
  exact .inr ⟨ascii, inside⟩

theorem ascii_prints_glyphs :
    (consoleFont.WellFormed ∧ 256 ≤ 256) ∧ PrintsGlyphs consoleFont 256 [[72, 105, 10], [127]] := by
  have ascii : ∀ c ∈ ([72, 105, 10, 127] : List UInt8), c.toNat < 128 := by simp
  refine ⟨⟨consoleFont_wellFormed, Nat.le_refl _⟩, ?_⟩
  exact (printsGlyphs_iff consoleFont_wellFormed (Nat.le_refl _) _ _).mpr
    ⟨fun c member _ => consoleFont_addresses (ascii c member),
      fun _ => consoleFont_addresses (by decide)⟩

/-- The first byte without a glyph in its place is read from almost 4 GiB behind the font. -/
theorem byte_128_not_glyph :
    consoleFont.glyphOffset 128 = 2 ^ 32 - 5120 ∧ ¬ PrintsGlyphs consoleFont 256 [[128]] := by
  refine ⟨by decide, fun prints => ?_⟩
  rcases prints.written consoleFont_wellFormed (by decide) List.mem_cons_self
    (by decide) with large | ⟨ascii, _⟩
  · exact absurd large (by decide)
  · exact absurd ascii (by decide)

end Printing

end Mykonos.Display
