import Mykonos.Display.Pictures
import Mykonos.Util.Bytewise

/-! # Characters on the display

The display is divided into cells of the size of a character. Each cell shows the glyph of
the character that stands there in the text, or the background where there is none, and
scrolling, which moves text and picture row by row, keeps them together.
-/

namespace Mykonos.Display

open Lib Util FrameBuffer

variable {frameBuffer : FrameBuffer} {font : PsfFile}

/-- The points of a glyph. -/
def PsfFile.glyphPoint (font : PsfFile) (c : UInt8) (i j : Nat) : Pixel :=
  bitmapPoint ((font.width + 7) % 2 ^ 32 / 8) (fun t => font.data (font.glyphOffset c + t))
    foreground background i j

/-- The points of a cell. -/
def PsfFile.cellPoint (font : PsfFile) (cell : Option UInt8) (i j : Nat) : Pixel :=
  match cell with
  | some c => font.glyphPoint c i j
  | none => background

/-- Nothing is seen of a space. -/
def PsfFile.Blank (font : PsfFile) : Prop :=
  ∀ i < font.width, ∀ j < font.height, font.glyphPoint space i j = background

/-- The first three bytes of a pixel are its colours. -/
def Looks (font : PsfFile) (cell : Option UInt8) (i j : Nat) (value : Nat → UInt8) : Prop :=
  [value 0, value 1, value 2] = (font.cellPoint cell i j).bytes

/-- A 32-bit display that has room for a character of the font. -/
structure Ready (frameBuffer : FrameBuffer) (font : PsfFile) : Prop where
  usable : frameBuffer.Usable
  blank : font.Blank
  width_pos : 0 < font.width
  height_pos : 0 < font.height
  wide : font.width ≤ frameBuffer.width
  high : font.height ≤ frameBuffer.height

/-- The screen buffer is smaller than the back buffer. -/
theorem Ready.suitable (ready : Ready frameBuffer font) :
    (frameScreen frameBuffer font).Suitable := by
  obtain ⟨usable, _, width_pos, height_pos, wide, high⟩ := ready
  have pitch := usable.pitch
  have size := usable.size_lt
  have rows : (frameScreen frameBuffer font).lines ≤ frameBuffer.height := Nat.div_le_self ..
  have columns : (frameScreen frameBuffer font).columns ≤ frameBuffer.width := Nat.div_le_self ..
  have width_lt : frameBuffer.pitch ≤ frameBuffer.pitch * frameBuffer.height :=
    Nat.le_mul_of_pos_right _ (by omega)
  have height_lt : frameBuffer.height ≤ frameBuffer.pitch * frameBuffer.height :=
    Nat.le_mul_of_pos_left _ (by omega)
  have narrow : frameBuffer.width < 2 ^ 32 := by omega
  have low : frameBuffer.height < 2 ^ 32 := by omega
  exact ⟨width_pos, height_pos, wide, high, narrow, low,
    Nat.le_trans (Nat.mul_le_mul (by omega) rows) usable.allocated⟩

/-- Both buffers show the table of characters, and around it what was there first. -/
def Drawn (frameBuffer : FrameBuffer) (font : PsfFile) (first : Nat → Nat → Nat → UInt8)
    (table : Nat → Nat → Option UInt8) (memory : Nat → UInt8) : Prop :=
  ∃ picture, frameBuffer.Displays memory picture ∧
    Tiled (frameScreen frameBuffer font).columns (frameScreen frameBuffer font).lines
      font.width font.height
      (Looks font) table picture ∧
    ∀ px py, (frameScreen frameBuffer font).columns * font.width ≤ px ∨
      (frameScreen frameBuffer font).lines * font.height ≤ py → picture px py = first px py

section Operations

variable {first : Nat → Nat → Nat → UInt8} {table : Nat → Nat → Option UInt8} {memory : Nat → UInt8}

/-- The cells end inside the display. -/
theorem cells_le (frameBuffer : FrameBuffer) (font : PsfFile) :
    (frameScreen frameBuffer font).columns * font.width ≤ frameBuffer.width ∧
      (frameScreen frameBuffer font).lines * font.height ≤ frameBuffer.height :=
  ⟨Nat.div_mul_le_self .., Nat.div_mul_le_self ..⟩

theorem Drawn.congr (drawn : Drawn frameBuffer font first table memory)
    {table' : Nat → Nat → Option UInt8}
    (same : ∀ c < (frameScreen frameBuffer font).columns,
      ∀ l < (frameScreen frameBuffer font).lines, table' c l = table c l) :
        Drawn frameBuffer font first table' memory := by
  obtain ⟨picture, displays, tiled, around⟩ := drawn
  exact ⟨picture, displays, tiled.congr same, around⟩

/-- A glyph is drawn in a cell; the cell then looks like any entry with these points. -/
theorem Drawn.render (drawn : Drawn frameBuffer font first table memory)
    (ready : Ready frameBuffer font) {c l : Nat}
    (column : c < (frameScreen frameBuffer font).columns)
    (line : l < (frameScreen frameBuffer font).lines) (a : UInt8) (entry : Option UInt8)
    (same : ∀ i < font.width, ∀ j < font.height, font.glyphPoint a i j = font.cellPoint entry i j) :
    Drawn frameBuffer font first (fun c' l' => if c' = c ∧ l' = l then entry else table c' l')
      (render frameBuffer font a (c * font.width) (l * font.height) foreground background
        memory) := by
  obtain ⟨picture, displays, tiled, around⟩ := drawn
  obtain ⟨inside, inside'⟩ := cells_le frameBuffer font
  have right := tile_le font.width column
  have bottom := tile_le font.height line
  refine ⟨_, displays.writeBitmap ready.usable _ foreground background ready.width_pos
    ready.height_pos (by omega) (by omega), tiled.paint fun i left j top old => ?_,
    fun px py outside => ?_⟩
  · rw [Looks, ← same i left j top]
    rfl
  · rw [paint_of_outside (by omega)]
    exact around px py outside

theorem Drawn.remove (drawn : Drawn frameBuffer font first table memory)
    (ready : Ready frameBuffer font) {c l : Nat}
    (column : c < (frameScreen frameBuffer font).columns)
    (line : l < (frameScreen frameBuffer font).lines) :
    Drawn frameBuffer font first (fun c' l' => if c' = c ∧ l' = l then none else table c' l')
      ((frameScreen frameBuffer font).removeCharacter (c * font.width) (l * font.height) memory) :=
  drawn.render ready column line space none ready.blank

/-- The table without so many characters of a row. -/
def without (table : Nat → Nat → Option UInt8) (c n l c' l' : Nat) : Option UInt8 :=
  if (c ≤ c' ∧ c' < c + n) ∧ l' = l then none else table c' l'

theorem Drawn.removeCharacters (drawn : Drawn frameBuffer font first table memory)
    (ready : Ready frameBuffer font) {c n l : Nat}
    (columns : c + n ≤ (frameScreen frameBuffer font).columns)
    (line : l < (frameScreen frameBuffer font).lines) :
    Drawn frameBuffer font first (without table c n l)
      (Console.removeCharacters (frameScreen frameBuffer font) font.width (l * font.height) n
        (c * font.width)
        memory) := by
  induction n generalizing c table memory with
  | zero => exact drawn.congr fun c' _ l' _ => if_neg (by omega)
  | succ n ih =>
      have next : (c * font.width + font.width) % 2 ^ 32 = (c + 1) * font.width := by
        rw [← Nat.succ_mul]
        exact ready.suitable.x_mod (by omega)
      rw [Console.removeCharacters, next]
      refine (ih (drawn.remove ready (by omega) line) (by omega)).congr fun c' _ l' _ => ?_
      rw [without, without]
      by_cases removed : (c ≤ c' ∧ c' < c + (n + 1)) ∧ l' = l
      · rw [if_pos removed]
        by_cases here : c' = c
        · rw [if_neg (by omega), if_pos ⟨here, removed.2⟩]
        · rw [if_pos (by omega)]
      · rw [if_neg removed, if_neg (by omega), if_neg (by omega)]

/-- The first characters of a row are copied to the row above. -/
theorem Drawn.copyRow (drawn : Drawn frameBuffer font first table memory)
    (ready : Ready frameBuffer font) {n l : Nat}
    (columns : n ≤ (frameScreen frameBuffer font).columns)
    (line : l + 1 < (frameScreen frameBuffer font).lines) :
    Drawn frameBuffer font first
      (fun c' l' => if c' < n ∧ l' = l then table c' (l + 1) else table c' l')
      (frameBuffer.copyRegion 0 ((l + 1) * font.height) (n * font.width) font.height 0
        (l * font.height) memory) := by
  obtain ⟨picture, displays, tiled, around⟩ := drawn
  obtain ⟨inside, inside'⟩ := cells_le frameBuffer font
  have right := Nat.mul_le_mul_right font.width columns
  have bottom := tile_le font.height line
  have above : l * font.height + font.height ≤ (l + 1) * font.height :=
    tile_le font.height (Nat.lt_succ_self l)
  have positive := ready.height_pos
  have wide := ready.width_pos
  have room := ready.wide
  refine ⟨_, displays.copyRegion ready.usable (by omega) (by omega) positive (by omega)
    (by omega) (by omega) (by omega), tiled.copy line, fun px py outside => ?_⟩
  rw [copy_of_outside (by omega)]
  exact around px py outside

end Operations

/-- The characters of the rows, by column and line. -/
def cellsOf (rows : Nat → List UInt8) (c l : Nat) : Option UInt8 :=
  (rows l)[c]?

section Scrolling

variable {first : Nat → Nat → Nat → UInt8} {rows : Nat → List UInt8} {memory : Nat → UInt8}

/-- The characters after a round of `scrollDown`. -/
theorem cellsOf_shifted_succ (rows : Nat → List UInt8) (k c l : Nat) :
    cellsOf (shifted rows (k + 1)) c l =
      if c < (rows (k + 1)).length ∧ l = k then cellsOf (shifted rows k) c (k + 1)
      else
        without (cellsOf (shifted rows k)) (rows (k + 1)).length
        ((rows k).length - (rows (k + 1)).length) k c l := by
  rw [← shifted_succ, cellsOf, cellsOf, without, cellsOf]
  by_cases here : l = k
  · have below : shifted rows k (k + 1) = rows (k + 1) := if_neg (by omega)
    have row : shifted rows k k = rows k := if_neg (Nat.lt_irrefl k)
    rw [here, Function.update_self, below, row]
    by_cases short : c < (rows (k + 1)).length
    · rw [if_pos ⟨short, rfl⟩]
    · rw [if_neg fun both => short both.1, List.getElem?_eq_none (by omega)]
      split
      · rfl
      · rw [List.getElem?_eq_none (by omega)]
  · rw [Function.update_of_ne here, if_neg fun both => here both.2, if_neg fun both => here both.2]

theorem Drawn.scrollRow (ready : Ready frameBuffer font)
    (short : ∀ l, (rows l).length ≤ (frameScreen frameBuffer font).columns) {k : Nat}
    (below : k + 1 < (frameScreen frameBuffer font).lines)
    (drawn : Drawn frameBuffer font first (cellsOf (shifted rows k)) memory) :
    Drawn frameBuffer font first (cellsOf (shifted rows (k + 1)))
      ((frameScreen frameBuffer font).scrollRow rows k memory) := by
  have above := short k
  have here := short (k + 1)
  have removed := drawn.removeCharacters ready (c := (rows (k + 1)).length)
    (n := (rows k).length - (rows (k + 1)).length) (by omega) (Nat.lt_of_succ_lt below)
  refine (removed.copyRow ready here below).congr fun c _ l _ => ?_
  have kept : without (cellsOf (shifted rows k)) (rows (k + 1)).length
    ((rows k).length - (rows (k + 1)).length) k c
      (k + 1) = cellsOf (shifted rows k) c (k + 1) := if_neg (by omega)
  rw [cellsOf_shifted_succ, kept]

theorem Drawn.scrollRows (ready : Ready frameBuffer font)
    (short : ∀ l, (rows l).length ≤ (frameScreen frameBuffer font).columns) {count k : Nat}
    (below : k + count < (frameScreen frameBuffer font).lines)
    (drawn : Drawn frameBuffer font first (cellsOf (shifted rows k)) memory) :
    Drawn frameBuffer font first (cellsOf (shifted rows (k + count)))
      ((frameScreen frameBuffer font).scrollRows rows count k memory) := by
  induction count generalizing k memory with
  | zero => exact drawn
  | succ count ih =>
      rw [← Nat.add_assoc, Nat.add_right_comm]
      exact ih (by omega) (drawn.scrollRow ready short (by omega))

/-- The display after `scrollDown`. -/
theorem Drawn.scrolled (ready : Ready frameBuffer font)
    (short : ∀ l, (rows l).length ≤ (frameScreen frameBuffer font).columns)
    (drawn : Drawn frameBuffer font first (cellsOf rows) memory) :
    Drawn frameBuffer font first (cellsOf (scrolledRows (frameScreen frameBuffer font).lines rows))
      ((frameScreen frameBuffer font).scrolled rows memory) := by
  have positive := ready.suitable.lines_pos
  have start : shifted rows 0 = rows := funext fun l => if_neg (Nat.not_lt_zero l)
  rw [← start] at drawn
  have last : (frameScreen frameBuffer font).lines - 1 < (frameScreen frameBuffer font).lines := by
    omega
  have moved := drawn.scrollRows ready short (k := 0) (by rwa [Nat.zero_add])
  rw [Nat.zero_add] at moved
  have columns : 0 + (rows ((frameScreen frameBuffer font).lines - 1)).length ≤ _ :=
    (Nat.zero_add _).trans_le (short _)
  have emptied := moved.removeCharacters ready columns last
  rw [Nat.zero_mul] at emptied
  refine emptied.congr fun c _ l below => ?_
  rw [cellsOf, scrolledRows, without, cellsOf, Nat.zero_add]
  by_cases bottom : l = (frameScreen frameBuffer font).lines - 1
  · have kept : shifted rows ((frameScreen frameBuffer font).lines - 1)
      ((frameScreen frameBuffer font).lines - 1) =
        rows ((frameScreen frameBuffer font).lines - 1) := if_neg (Nat.lt_irrefl _)
    rw [if_neg (by omega), bottom, kept]
    split
    · rfl
    · exact (List.getElem?_eq_none (by omega)).symm
  · rw [if_pos (by omega), if_neg fun both => bottom both.2, shifted, if_pos (by omega)]

end Scrolling

section Printing

variable {first : Nat → Nat → Nat → UInt8} {sheet : Sheet} {memory : Nat → UInt8}

/-- The text reaches up to the cursor. -/
structure Sheet.Plain (columns : Nat) (sheet : Sheet) : Prop where
  cursor : (sheet.rows sheet.line).length = sheet.column
  short : ∀ l, (sheet.rows l).length ≤ columns

theorem Sheet.Plain.nextLine {columns lines : Nat} (plain : sheet.Plain columns)
    (valid : sheet.Valid columns lines) :
    (sheet.nextLine lines).Plain columns := by
  have inside := valid.line_lt
  rw [Sheet.nextLine]
  split
  · refine ⟨?_, plain.short⟩
    dsimp only
    rw [valid.below (sheet.line + 1) (Nat.lt_succ_self _)]
    rfl
  · refine ⟨?_, fun l => ?_⟩
    · dsimp only
      rw [scrolledRows, if_neg (by omega)]
      rfl
    · dsimp only
      rw [scrolledRows]
      split
      · exact plain.short (l + 1)
      · exact Nat.zero_le _

theorem Sheet.Plain.put {columns : Nat} (plain : sheet.Plain columns)
    (room : sheet.column < columns) {c : UInt8} (filled : c ≠ 0) : (sheet.put c).Plain columns := by
  have length : (putAt (sheet.rows sheet.line) sheet.column c).length = sheet.column + 1 := by
    rw [putAt, if_pos ⟨plain.cursor, filled⟩, List.length_append, plain.cursor,
      List.length_singleton]
  refine ⟨?_, fun l => ?_⟩
  · rw [Sheet.put]
    dsimp only
    rw [Function.update_self, length]
  · rw [Sheet.put]
    dsimp only
    by_cases here : l = sheet.line
    · rw [here, Function.update_self, length]
      exact room
    · rw [Function.update_of_ne here]
      exact plain.short l

/-- The characters after another one at the cursor. -/
theorem Sheet.Plain.cellsOf_put {columns : Nat} (plain : sheet.Plain columns) {a : UInt8}
    (filled : a ≠ 0) (c l : Nat) :
    cellsOf (sheet.put a).rows c l =
      if c = sheet.column ∧ l = sheet.line then some a else cellsOf sheet.rows c l := by
  rw [Sheet.put, cellsOf, cellsOf]
  dsimp only
  by_cases here : l = sheet.line
  · rw [here, Function.update_self, putAt, if_pos ⟨plain.cursor, filled⟩, List.getElem?_append,
      plain.cursor]
    by_cases before : c < sheet.column
    · rw [if_pos before, if_neg (by omega)]
    · rw [if_neg before, List.getElem?_singleton]
      by_cases exactly : c = sheet.column
      · rw [exactly, Nat.sub_self, if_pos rfl, if_pos ⟨rfl, rfl⟩]
      · have beyond : (sheet.rows sheet.line)[c]? = none :=
          List.getElem?_eq_none (by rw [plain.cursor]; omega)
        rw [if_neg (by omega), if_neg fun both => exactly both.1, beyond]
  · rw [Function.update_of_ne here, if_neg fun both => here both.2]

theorem Sheet.Plain.makeRoom {columns lines : Nat} (plain : sheet.Plain columns)
    (valid : sheet.Valid columns lines) (c : UInt8) :
    (sheet.makeRoom columns lines c).Plain columns := by
  rw [Sheet.makeRoom]
  split
  · exact plain.nextLine valid
  · exact plain

theorem Drawn.drawRoom (ready : Ready frameBuffer font)
    (plain : sheet.Plain (frameScreen frameBuffer font).columns)
    (drawn : Drawn frameBuffer font first (cellsOf sheet.rows) memory) (c : UInt8) :
    Drawn frameBuffer font first
      (cellsOf (sheet.makeRoom (frameScreen frameBuffer font).columns
        (frameScreen frameBuffer font).lines c).rows)
      ((frameScreen frameBuffer font).drawRoom sheet c memory) := by
  rw [Sheet.makeRoom, Screen.drawRoom]
  split
  · rw [Sheet.nextLine, Screen.drawNextLine]
    split
    · exact drawn
    · exact drawn.scrolled ready plain.short
  · exact drawn

/-- The display follows the text. -/
theorem Drawn.draw (ready : Ready frameBuffer font)
    (plain : sheet.Plain (frameScreen frameBuffer font).columns)
    (valid : sheet.Valid (frameScreen frameBuffer font).columns
      (frameScreen frameBuffer font).lines)
    (drawn : Drawn frameBuffer font first (cellsOf sheet.rows) memory) {c : UInt8}
    (filled : c ≠ 0) :
    (sheet.type (frameScreen frameBuffer font).columns (frameScreen frameBuffer font).lines c).Plain
        (frameScreen frameBuffer font).columns ∧
      Drawn frameBuffer font first
        (cellsOf (sheet.type (frameScreen frameBuffer font).columns
          (frameScreen frameBuffer font).lines c).rows)
        ((frameScreen frameBuffer font).draw sheet c memory) := by
  have plain' := plain.makeRoom valid c
  have drawn' := drawn.drawRoom ready plain c
  obtain ⟨valid', room⟩ := valid.makeRoom ready.suitable.columns_pos c
  rw [Sheet.type, Screen.draw]
  split
  · exact ⟨plain', drawn'⟩
  · refine ⟨plain'.put room filled, ?_⟩
    have written := drawn'.render ready room valid'.line_lt c (some c) fun _ _ _ _ => rfl
    exact written.congr fun c' _ l' _ => plain'.cellsOf_put filled c' l'

theorem Drawn.typed (ready : Ready frameBuffer font)
    (plain : sheet.Plain (frameScreen frameBuffer font).columns)
    (valid : sheet.Valid (frameScreen frameBuffer font).columns
      (frameScreen frameBuffer font).lines)
    (drawn : Drawn frameBuffer font first (cellsOf sheet.rows) memory) {text : List UInt8}
    (filled : ∀ c ∈ text, c ≠ 0) :
    Drawn frameBuffer font first
      (cellsOf (text.foldl (frameScreen frameBuffer font).typed (sheet, memory)).1.rows)
      (text.foldl (frameScreen frameBuffer font).typed (sheet, memory)).2 := by
  induction text generalizing sheet memory with
  | nil => exact drawn
  | cons c text ih =>
      obtain ⟨plain', drawn'⟩ := drawn.draw ready plain valid (filled c List.mem_cons_self)
      exact ih plain' (valid.type ready.suitable.columns_pos c) drawn' fun c' member =>
        filled c' (List.mem_cons_of_mem c member)

theorem memset_zero {address i n : Nat} (inside : i < n) :
    memset memory address 0 n (address + i) = 0 := by
  rw [memset_eq, overwrite_getElem (by rwa [List.length_replicate]), List.getElem_replicate]
  rfl

/-- The display that `initFrameBuffer` leaves. -/
theorem FrameBuffer.Usable.initFrameBuffer (usable : frameBuffer.Usable) (memory : Nat → UInt8) :
    frameBuffer.Displays (frameBuffer.initFrameBuffer memory) fun _ _ _ => 0 := by
  have size : frameBuffer.pitch * frameBuffer.height % 2 ^ 32 =
      frameBuffer.pitch * frameBuffer.height :=
    Nat.mod_eq_of_lt usable.size_lt
  intro base isBase x left y top k byte
  have inside : frameBuffer.offset x y + 4 * 1 ≤ _ := usable.line_le left top
  have place : frameBuffer.offset x y + k < frameBuffer.pitch * frameBuffer.height := by omega
  rw [FrameBuffer.initFrameBuffer, size, Nat.add_assoc]
  rcases isBase with rfl | rfl
  · exact memset_zero place
  · have apart := usable.apart
    rw [AreasApart] at apart
    rw [memset_of_outside _ (by omega), memset_zero place]

/-- After any calls of `print` with characters of seven bits, each cell shows in both buffers
    the glyph of the character that stands there in the screen buffer, or the background where
    the line is shorter. The pixels around the cells are those of the cleared display. -/
theorem print_draws (frameBuffer : FrameBuffer) (font : PsfFile) (ready : Ready frameBuffer font)
    (fresh memory : Nat → UInt8) (text : List UInt8) (texts : List (List UInt8))
    (plain : ∀ c ∈ (text :: texts).flatten, 1 ≤ c ∧ c ≤ 0x7f) :
    ∃ (s : Console (Nat → UInt8)) (rows : Nat → List UInt8),
      (text :: texts).foldlM (Console.print (frameScreen frameBuffer font) fresh)
        (Screen.start (frameBuffer.initFrameBuffer memory)) = some s ∧
      s.lines = frameBuffer.height / font.height ∧ s.columns = frameBuffer.width / font.width ∧
      (∀ l < s.lines, Reads s.screenBuffer.bytes (l * (s.columns + 1)) (rows l)) ∧
      ∀ base, base = frameBuffer.backBuffer ∨ base = frameBuffer.pointer →
        (∀ c < s.columns, ∀ l < s.lines, ∀ i < font.width, ∀ j < font.height,
          bytesAt s.display (base + frameBuffer.offset (c * font.width + i) (l * font.height + j))
            3 =
            (font.cellPoint (rows l)[c]? i j).bytes) ∧
        ∀ x < frameBuffer.width, ∀ y < frameBuffer.height,
          s.columns * font.width ≤ x ∨ s.lines * font.height ≤ y →
          bytesAt s.display (base + frameBuffer.offset x y) 4 =
            bytesAt (frameBuffer.initFrameBuffer memory) (base + frameBuffer.offset x y) 4 := by
  have start := ready.usable.initFrameBuffer memory
  have suitable := ready.suitable
  obtain ⟨inside, inside'⟩ := cells_le frameBuffer font
  have filled : ∀ c ∈ (text :: texts).flatten, c ≠ 0 := by
    rintro c member rfl
    exact absurd (plain 0 member).1 (by decide)
  have drawn : Drawn frameBuffer font (fun _ _ _ => 0) (cellsOf ({} : Sheet).rows)
      (frameBuffer.initFrameBuffer memory) :=
        ⟨_, start, fun _ _ _ _ _ _ _ _ => rfl, fun _ _ _ => rfl⟩
  obtain ⟨s, joined, _, shows⟩ :=
    suitable.prints fresh (frameBuffer.initFrameBuffer memory) text texts
  obtain ⟨picture, displays, tiled, around⟩ :=
    drawn.typed ready ⟨rfl, fun _ => Nat.zero_le _⟩ suitable.valid_empty filled
  obtain ⟨valid, bytes, rfl, all⟩ := shows
  refine ⟨_, _, joined, rfl, rfl, fun l below => (all l below).2, fun base isBase => ⟨?_, ?_⟩⟩
  · intro c column l line i left j top
    have right := Nat.lt_of_lt_of_le ((tiles_iff left).mpr column) inside
    have bottom := Nat.lt_of_lt_of_le ((tiles_iff top).mpr line) inside'
    have read := displays base isBase _ right _ bottom
    have look : [_, _, _] = _ := tiled c column l line i left j top
    rw [← read 0 (by decide), ← read 1 (by decide), ← read 2 (by decide)] at look
    exact look
  · intro x left y top outside
    refine bytesAt_congr fun k byte => ?_
    rw [start base isBase x left y top k byte, ← congrFun (around x y outside) k]
    exact displays base isBase x left y top k byte

/-- A display of 20 by 40 pixels. -/
def smallFrameBuffer : FrameBuffer where
  pointer := 8192
  width := 20
  height := 40
  pitch := 96
  depth := 32
  backBuffer := 65536

/-- A font in which all but the space is filled. -/
def filledFont : PsfFile where
  glyphSize := 16
  height := 16
  width := 8
  data n := if n / 16 = 32 then 0 else 0xFF

/-- Three lines on a display of two. -/
theorem print_draws_scrolled :
    ∃ (s : Console (Nat → UInt8)) (rows : Nat → List UInt8),
      [[72, 10], [105, 10, 33]].foldlM
        (Console.print (frameScreen smallFrameBuffer filledFont) fun _ => 255)
        (Screen.start (smallFrameBuffer.initFrameBuffer fun _ => 7)) = some s ∧
      Reads s.screenBuffer.bytes 0 (rows 0) ∧
      bytesAt s.display 8192 3 = (filledFont.cellPoint (rows 0)[0]? 0 0).bytes ∧
      bytesAt s.display (65536 + smallFrameBuffer.offset 16 0) 4 = [0, 0, 0, 0] := by
  have usable : smallFrameBuffer.Usable :=
    ⟨by decide, by decide, by decide, by unfold AreasApart; decide⟩
  have blank : filledFont.Blank := by
    unfold PsfFile.Blank
    decide +kernel
  have ready : Ready smallFrameBuffer filledFont :=
    ⟨usable, blank, by decide, by decide, by decide, by decide⟩
  obtain ⟨s, rows, printed, lines, columns, reads, shown⟩ :=
    print_draws smallFrameBuffer filledFont ready (fun _ => 255) (fun _ => 7) [72,
      10] [[105, 10, 33]] (by decide +kernel)
  have lines : s.lines = 2 := lines
  have columns : s.columns = 2 := columns
  rw [lines, columns] at reads shown
  have cell := (shown 8192 (.inr rfl)).1 0 (by decide) 0 (by decide) 0 (by decide) 0 (by decide)
  have around := (shown 65536 (.inl rfl)).2 16 (by decide) 0 (by decide) (by decide)
  exact ⟨s, rows, printed, reads 0 (by decide), cell, around.trans (by decide +kernel)⟩

end Printing

end Mykonos.Display
