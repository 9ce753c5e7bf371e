import Mykonos.Display.Console
import Mykonos.Lib.Tiles

/-! # The text of the screen buffer

A sheet is the text of the console: the rows, which are the C strings of the screen buffer,
and the cursor. Printing a character changes the sheet in a way that does not mention the
buffer, and draws what `draw` says. The console follows the sheet for every byte, and never
leaves its buffer.
-/

namespace Mykonos.Display

open Lib Util

section CStrings

variable {bytes : Nat → UInt8} {start : Nat} {text : List UInt8}

/-- The C string that begins there is the text. -/
def Reads (bytes : Nat → UInt8) (start : Nat) (text : List UInt8) : Prop :=
  0 ∉ text ∧ Holds bytes start (text ++ [0])

theorem Reads.strlen {size : Nat} (reads : Reads bytes start text)
    (inside : start + text.length < size) (short : text.length < 2 ^ 31) :
    Buffer.strlen ⟨bytes, size⟩ start = some text.length := by
  obtain ⟨plain, holds⟩ := reads
  obtain ⟨body, final, _⟩ := holds_append.mp holds
  refine Fs.strlen_eq_some_iff.mpr ⟨by dsimp only; omega, final, ?_⟩
  rwa [body.bytesAt]

/-- A C string that is copied with its end. -/
theorem Reads.strcpy {dst size : Nat} (reads : Reads bytes start text)
    (inside : start + text.length < size) (short : text.length < 2 ^ 31)
    (room : dst + text.length < size) (apart : AreasApart dst start text.length) :
    Buffer.strcpy ⟨bytes, size⟩ dst start = some ⟨overwrite bytes dst (text ++ [0]), size⟩ := by
  have body := (holds_append.mp reads.2).1.bytesAt
  rw [Buffer.strcpy, reads.strlen inside short, Option.bind_eq_bind, Option.bind_some,
    Buffer.write, if_pos room, memcpy_eq apart, body, overwrite_append]

/-- The bytes around a C string may change. -/
theorem Reads.congr {bytes' : Nat → UInt8} (reads : Reads bytes start text)
    (same : ∀ i ≤ text.length, bytes' (start + i) = bytes (start + i)) :
    Reads bytes' start text := by
  refine ⟨reads.1, ?_⟩
  have length : (text ++ [0]).length = text.length + 1 := List.length_append
  have moved : bytesAt bytes' start (text ++ [0]).length = text ++ [0] := by
    rw [bytesAt_congr fun i below => same i (by omega), reads.2.bytesAt]
  have holds := holds_bytesAt bytes' start (text ++ [0]).length
  rwa [moved] at holds

theorem reads_overwrite (bytes : Nat → UInt8) (start : Nat) (plain : 0 ∉ text) :
    Reads (overwrite bytes start (text ++ [0])) start text := by
  refine ⟨plain, ?_⟩
  have holds := holds_bytesAt (overwrite bytes start (text ++ [0])) start (text ++ [0]).length
  rwa [bytesAt_overwrite_self] at holds

/-- The C string after a character with an end behind it was written at the column. -/
def putAt (text : List UInt8) (column : Nat) (c : UInt8) : List UInt8 :=
  if text.length = column ∧ c ≠ 0 then text ++ [c] else text

theorem Reads.put {column : Nat} (reads : Reads bytes start text)
    (fits : text.length ≤ column) (c : UInt8) :
    Reads (overwrite bytes (start + column) [c, 0]) start (putAt text column c) := by
  rw [putAt]
  split
  · rename_i both
    obtain ⟨rfl, filled⟩ := both
    obtain ⟨plain, holds⟩ := reads
    have body := (holds_append.mp holds).1.bytesAt
    refine ⟨fun member => ?_, ?_⟩
    · rcases List.mem_append.mp member with old | new
      · exact plain old
      · exact filled (List.mem_singleton.mp new).symm
    · have holds' :=
        holds_bytesAt (overwrite bytes (start + text.length) [c, 0]) start (text.length + 2)
      have behind := bytesAt_overwrite_self bytes (start + text.length) [c, 0]
      rw [List.length_cons, List.length_cons, List.length_nil] at behind
      rw [bytesAt_add, bytesAt_overwrite_of_outside (.inl (Nat.le_refl _)), body, behind] at holds'
      rwa [List.append_assoc]
  · rename_i unlike
    refine reads.congr fun i le => ?_
    by_cases below : i < column
    · exact overwrite_of_outside (.inl (by omega))
    · obtain rfl : i = column := by omega
      obtain rfl : text.length = i := by omega
      obtain rfl : c = 0 := by simpa using unlike
      have written : overwrite bytes (start + text.length) [0, 0] (start + text.length + 0) = 0 :=
        overwrite_getElem (Nat.zero_lt_succ 1)
      exact written.trans (holds_append.mp reads.2).2.1.symm

/-- The lines of the screen buffer, as C strings that fit their places. -/
def ReadsRows (columns lines : Nat) (bytes : Nat → UInt8) (rows : Nat → List UInt8) : Prop :=
  ∀ l < lines, (rows l).length ≤ columns ∧ Reads bytes (l * (columns + 1)) (rows l)

variable {columns lines : Nat} {rows : Nat → List UInt8}

/-- What is written inside a line changes no other line. -/
theorem ReadsRows.overwrite {k column : Nat} {written : List UInt8}
    (all : ReadsRows columns lines bytes rows) (inside : column + written.length ≤ columns + 1)
    (fits : text.length ≤ columns)
    (reads : Reads (overwrite bytes (k * (columns + 1) + column) written)
      (k * (columns + 1)) text) :
    ReadsRows columns lines (overwrite bytes (k * (columns + 1) + column) written)
      (Function.update rows k text) := by
  intro l below
  by_cases same : l = k
  · rw [same, Function.update_self]
    exact ⟨fits, reads⟩
  · rw [Function.update_of_ne same]
    obtain ⟨short, others⟩ := all l below
    refine ⟨short, others.congr fun i le => overwrite_of_outside ?_⟩
    rcases Nat.lt_or_gt_of_ne same with before | behind
    · have := tile_le (columns + 1) before
      omega
    · have := tile_le (columns + 1) behind
      omega

theorem ReadsRows.clear (all : ReadsRows columns lines bytes rows) (k : Nat) :
    ReadsRows columns lines (Util.overwrite bytes (k * (columns + 1)) [0])
      (Function.update rows k []) := by
  have inside : 0 + ([0] : List UInt8).length ≤ columns + 1 := by
    rw [List.length_singleton]
    omega
  exact all.overwrite inside (Nat.zero_le columns)
    (reads_overwrite bytes (k * (columns + 1)) List.not_mem_nil)

theorem ReadsRows.congr {rows' : Nat → List UInt8} (all : ReadsRows columns lines bytes rows)
    (same : ∀ l < lines, rows' l = rows l) : ReadsRows columns lines bytes rows' := by
  intro l below
  rw [same l below]
  exact all l below

end CStrings

/-- `kernelHeapSize` of the linker script. -/
def kernelHeapSize : Nat := 512 * 2 ^ 20

namespace Screen

variable {δ : Type} (screen : Screen δ)

def columns : Nat := screen.getWidth / screen.fontWidth

def lines : Nat := screen.getHeight / screen.fontHeight

/-- The display has room for a character, and the heap for the screen buffer. -/
structure Suitable : Prop where
  fontWidth_pos : 0 < screen.fontWidth
  fontHeight_pos : 0 < screen.fontHeight
  wide : screen.fontWidth ≤ screen.getWidth
  high : screen.fontHeight ≤ screen.getHeight
  width_lt : screen.getWidth < 2 ^ 32
  height_lt : screen.getHeight < 2 ^ 32
  allocated : (screen.columns + 1) * screen.lines ≤ kernelHeapSize

/-- The console once the screen buffer is there. -/
def console (line column : Nat) (bytes : Nat → UInt8) (display : δ) : Console δ where
  line := line
  column := column
  lines := screen.lines
  columns := screen.columns
  screenBuffer := ⟨bytes, (screen.columns + 1) * screen.lines⟩
  displayWidth := screen.getWidth
  displayHeight := screen.getHeight
  fontWidth := screen.fontWidth
  fontHeight := screen.fontHeight
  display := display

/-- How a round of `scrollDown` changes the display. -/
def scrollRow (rows : Nat → List UInt8) (k : Nat) (display : δ) : δ :=
  screen.copyRegion 0 ((k + 1) * screen.fontHeight) ((rows (k + 1)).length * screen.fontWidth)
    screen.fontHeight 0 (k * screen.fontHeight)
    (Console.removeCharacters screen screen.fontWidth (k * screen.fontHeight)
      ((rows k).length - (rows (k + 1)).length) ((rows (k + 1)).length * screen.fontWidth) display)

def scrollRows (rows : Nat → List UInt8) : Nat → Nat → δ → δ
  | 0, _, display => display
  | count + 1, k, display => scrollRows rows count (k + 1) (screen.scrollRow rows k display)

/-- How `scrollDown` changes the display. -/
def scrolled (rows : Nat → List UInt8) (display : δ) : δ :=
  Console.removeCharacters screen screen.fontWidth ((screen.lines - 1) * screen.fontHeight)
    (rows (screen.lines - 1)).length 0 (screen.scrollRows rows (screen.lines - 1) 0 display)

end Screen

/-- The rows of which the first so many have moved up. -/
def shifted (rows : Nat → List UInt8) (count l : Nat) : List UInt8 :=
  if l < count then rows (l + 1) else rows l

/-- The rows without the first, with an empty row at the end. -/
def scrolledRows (lines : Nat) (rows : Nat → List UInt8) (l : Nat) : List UInt8 :=
  if l + 1 < lines then rows (l + 1) else []

/-- The text of the console. -/
structure Sheet where
  line : Nat := 0
  column : Nat := 0
  rows : Nat → List UInt8 := fun _ => []

namespace Sheet

def nextLine (lines : Nat) (sheet : Sheet) : Sheet :=
  if sheet.line + 1 < lines then { sheet with line := sheet.line + 1, column := 0 }
  else ⟨lines - 1, 0, scrolledRows lines sheet.rows⟩

def put (sheet : Sheet) (c : UInt8) : Sheet where
  line := sheet.line
  column := sheet.column + 1
  rows := Function.update sheet.rows sheet.line (putAt (sheet.rows sheet.line) sheet.column c)

/-- A line that is full ends when another character comes. -/
def makeRoom (columns lines : Nat) (sheet : Sheet) (c : UInt8) : Sheet :=
  if columns ≤ sheet.column ∨ c = Console.newline then sheet.nextLine lines else sheet

def type (columns lines : Nat) (sheet : Sheet) (c : UInt8) : Sheet :=
  if c = Console.newline then sheet.makeRoom columns lines c
  else (sheet.makeRoom columns lines c).put c

/-- The cursor is inside, behind the text of its line, and nothing stands below it. -/
structure Valid (columns lines : Nat) (sheet : Sheet) : Prop where
  line_lt : sheet.line < lines
  column_le : sheet.column ≤ columns
  behind : (sheet.rows sheet.line).length ≤ sheet.column
  below : ∀ l, sheet.line < l → sheet.rows l = []

end Sheet

namespace Screen

variable {δ : Type} (screen : Screen δ)

/-- How `nextLine` changes the display. -/
def drawNextLine (sheet : Sheet) (display : δ) : δ :=
  if sheet.line + 1 < screen.lines then display else screen.scrolled sheet.rows display

/-- How `makeRoom` changes the display. -/
def drawRoom (sheet : Sheet) (c : UInt8) (display : δ) : δ :=
  if screen.columns ≤ sheet.column ∨ c = Console.newline then screen.drawNextLine sheet display
  else display

/-- How a character changes the display. -/
def draw (sheet : Sheet) (c : UInt8) (display : δ) : δ :=
  let room := sheet.makeRoom screen.columns screen.lines c
  if c = Console.newline then screen.drawRoom sheet c display
  else screen.writeCharacter (room.column * screen.fontWidth) (room.line * screen.fontHeight) c
    (screen.drawRoom sheet c display)

/-- The text and the display after a character. -/
def typed (page : Sheet × δ) (c : UInt8) : Sheet × δ :=
  (page.1.type screen.columns screen.lines c, screen.draw page.1 c page.2)

end Screen

theorem minus_eq {a b : Nat} (le : b ≤ a) (small : a < 2 ^ 32) : minus a b = a - b := by
  rw [minus]
  omega

section Scrolling

variable {δ : Type} {screen : Screen δ} {line column : Nat} {bytes : Nat → UInt8} {display : δ}
  {rows : Nat → List UInt8}

theorem Screen.x_le (screen : Screen δ) {column : Nat} (le : column ≤ screen.columns) :
    column * screen.fontWidth ≤ screen.getWidth :=
  Nat.le_trans (Nat.mul_le_mul_right _ le) (Nat.div_mul_le_self ..)

theorem Screen.y_le (screen : Screen δ) {line : Nat} (le : line ≤ screen.lines) :
    line * screen.fontHeight ≤ screen.getHeight :=
  Nat.le_trans (Nat.mul_le_mul_right _ le) (Nat.div_mul_le_self ..)

/-- A place of the screen buffer is inside it. -/
theorem Screen.index_lt (screen : Screen δ) {line column : Nat} (below : line < screen.lines)
    (le : column ≤ screen.columns) :
    line * (screen.columns + 1) + column < (screen.columns + 1) * screen.lines := by
  have last := tile_le (screen.columns + 1) below
  rw [Nat.mul_comm screen.lines] at last
  omega

namespace Screen.Suitable

theorem columns_pos (suitable : screen.Suitable) : 0 < screen.columns :=
  Nat.div_pos suitable.wide suitable.fontWidth_pos

theorem lines_pos (suitable : screen.Suitable) : 0 < screen.lines :=
  Nat.div_pos suitable.high suitable.fontHeight_pos

theorem x_mod (suitable : screen.Suitable) {column : Nat} (le : column ≤ screen.columns) :
    column * screen.fontWidth % 2 ^ 32 = column * screen.fontWidth :=
  Nat.mod_eq_of_lt (Nat.lt_of_le_of_lt (screen.x_le le) suitable.width_lt)

theorem y_mod (suitable : screen.Suitable) {line : Nat} (le : line ≤ screen.lines) :
    line * screen.fontHeight % 2 ^ 32 = line * screen.fontHeight :=
  Nat.mod_eq_of_lt (Nat.lt_of_le_of_lt (screen.y_le le) suitable.height_lt)

theorem size_lt (suitable : screen.Suitable) : (screen.columns + 1) * screen.lines < 2 ^ 31 :=
  Nat.lt_of_le_of_lt suitable.allocated (by decide)

theorem columns_lt (suitable : screen.Suitable) : screen.columns < 2 ^ 31 := by
  have inside := screen.index_lt suitable.lines_pos (Nat.le_refl _)
  have := suitable.size_lt
  omega

theorem lines_lt (suitable : screen.Suitable) : screen.lines < 2 ^ 31 :=
  Nat.lt_of_le_of_lt (Nat.le_mul_of_pos_left _ (Nat.succ_pos _)) suitable.size_lt

theorem last_line (suitable : screen.Suitable) : minus screen.lines 1 = screen.lines - 1 :=
  minus_eq suitable.lines_pos (Nat.lt_trans suitable.lines_lt (by decide))

theorem character_eq (suitable : screen.Suitable) {l c : Nat} (below : l < screen.lines)
    (le : c ≤ screen.columns) :
    (screen.console line column bytes display).character c l = l * (screen.columns + 1) + c := by
  have inside := screen.index_lt below le
  have := suitable.size_lt
  exact Nat.mod_eq_of_lt (by dsimp only [console]; omega)

theorem lineStart_eq (suitable : screen.Suitable) {l : Nat} (below : l < screen.lines) :
    (screen.console line column bytes display).lineStart l = l * (screen.columns + 1) :=
  suitable.character_eq below (Nat.zero_le _)

end Screen.Suitable

theorem shifted_succ (rows : Nat → List UInt8) (k : Nat) :
    Function.update (shifted rows k) k (rows (k + 1)) = shifted rows (k + 1) := by
  funext l
  by_cases same : l = k
  · rw [same, Function.update_self, shifted, if_pos (Nat.lt_succ_self k)]
  · rw [Function.update_of_ne same, shifted, shifted]
    by_cases below : l < k
    · rw [if_pos below, if_pos (Nat.lt_succ_of_lt below)]
    · rw [if_neg below, if_neg (by omega)]

theorem Screen.Suitable.strlen (suitable : screen.Suitable)
    (all : ReadsRows screen.columns screen.lines bytes rows) {l : Nat} (below : l < screen.lines) :
    Buffer.strlen ⟨bytes, (screen.columns + 1) * screen.lines⟩ (l * (screen.columns + 1)) =
      some (rows l).length := by
  obtain ⟨short, reads⟩ := all l below
  exact reads.strlen (screen.index_lt below short) (Nat.lt_of_le_of_lt short suitable.columns_lt)

/-- A round of `scrollDown` moves a row up. -/
theorem Screen.Suitable.scrollLine (suitable : screen.Suitable) (line column : Nat)
    (display : δ) {k : Nat} (below : k + 1 < screen.lines)
    (all : ReadsRows screen.columns screen.lines bytes (shifted rows k)) :
    ∃ bytes', Console.scrollLine screen (k + 1) ((k + 1) * screen.fontHeight)
        (screen.console line column bytes display) =
        some (screen.console line column bytes' (screen.scrollRow rows k display)) ∧
      ReadsRows screen.columns screen.lines bytes' (shifted rows (k + 1)) := by
  have here : shifted rows k k = rows k := if_neg (Nat.lt_irrefl k)
  have next : shifted rows k (k + 1) = rows (k + 1) := if_neg (by omega)
  have before : k < screen.lines := Nat.lt_of_succ_lt below
  have apart : k * (screen.columns + 1) + (screen.columns + 1) ≤ (k + 1) * (screen.columns + 1) :=
    tile_le (screen.columns + 1) (Nat.lt_succ_self k)
  obtain ⟨short, reads⟩ := all (k + 1) below
  rw [next] at short reads
  have copied :=
    reads.strcpy (screen.index_lt below short) (Nat.lt_of_le_of_lt short suitable.columns_lt)
    (screen.index_lt before short) (.inl (by omega))
  have above : minus ((k + 1) * screen.fontHeight) screen.fontHeight = k * screen.fontHeight := by
    have := screen.y_le (Nat.le_of_lt below)
    have := suitable.height_lt
    rw [Nat.succ_mul] at *
    rw [minus_eq (by omega) (by omega), Nat.add_sub_cancel]
  refine ⟨overwrite bytes (k * (screen.columns + 1)) (rows (k + 1) ++ [0]), ?_, ?_⟩
  · rw [Console.scrollLine, Nat.add_sub_cancel, suitable.lineStart_eq below,
      suitable.lineStart_eq before]
    dsimp only [Screen.console, Screen.scrollRow]
    rw [suitable.strlen all below, suitable.strlen all before, here, next, copied, above]
    simp only [Option.bind_eq_bind, Option.bind_some, suitable.x_mod short]
  · have inside : 0 + (rows (k + 1) ++ [0]).length ≤ screen.columns + 1 := by
      rw [List.length_append, List.length_singleton]
      omega
    rw [← shifted_succ]
    exact all.overwrite inside short (reads_overwrite bytes _ reads.1)

theorem Screen.Suitable.y_add (suitable : screen.Suitable) {k : Nat} (below : k < screen.lines) :
    (k * screen.fontHeight + screen.fontHeight) % 2 ^ 32 = (k + 1) * screen.fontHeight := by
  rw [← Nat.succ_mul]
  exact suitable.y_mod below

theorem Screen.Suitable.scrollLines (suitable : screen.Suitable) (line column : Nat) (display : δ)
    {count k : Nat} (below : k + count < screen.lines)
    (all : ReadsRows screen.columns screen.lines bytes (shifted rows k)) :
    ∃ bytes', Console.scrollLines screen count (k + 1) (k * screen.fontHeight)
        (screen.console line column bytes display) =
        some (screen.console line column bytes' (screen.scrollRows rows count k display),
          (k + count) * screen.fontHeight) ∧
      ReadsRows screen.columns screen.lines bytes' (shifted rows (k + count)) := by
  induction count generalizing k bytes display with
  | zero => exact ⟨bytes, rfl, all⟩
  | succ count ih =>
      obtain ⟨bytes₁, moved, all₁⟩ := suitable.scrollLine line column display (by omega) all
      obtain ⟨bytes', rest, all'⟩ := ih (screen.scrollRow rows k display) (by omega) all₁
      have further : (screen.console line column bytes display).fontHeight = screen.fontHeight :=
        rfl
      refine ⟨bytes', ?_, ?_⟩
      · rw [Console.scrollLines, further, suitable.y_add (by omega)]
        rw [moved, Option.bind_eq_bind, Option.bind_some, rest, Screen.scrollRows, Nat.add_assoc,
          Nat.add_comm 1]
      · rwa [Nat.add_assoc, Nat.add_comm 1] at all'

/-- `scrollDown` drops the first row. -/
theorem Screen.Suitable.scrollDown (suitable : screen.Suitable) (line column : Nat) (display : δ)
    (all : ReadsRows screen.columns screen.lines bytes rows) :
    ∃ bytes', Console.scrollDown screen (screen.console line column bytes display) =
        some (screen.console line column bytes' (screen.scrolled rows display)) ∧
      ReadsRows screen.columns screen.lines bytes' (scrolledRows screen.lines rows) := by
  have positive := suitable.lines_pos
  have last : screen.lines - 1 < screen.lines := Nat.sub_lt positive Nat.one_pos
  have start : shifted rows 0 = rows := funext fun l => if_neg (Nat.not_lt_zero l)
  have final : shifted rows (screen.lines - 1) (screen.lines - 1) = rows (screen.lines - 1) :=
    if_neg (Nat.lt_irrefl _)
  obtain ⟨bytes₁, moved, all₁⟩ :=
    suitable.scrollLines line column display (k := 0) (by rwa [Nat.zero_add])
    (start.symm ▸ all)
  rw [Nat.zero_add] at moved all₁
  have inside := screen.index_lt last (Nat.zero_le screen.columns)
  have start :
      (screen.console line column bytes₁
        (screen.scrollRows rows (screen.lines - 1) 0 display)).lineStart
      (minus screen.lines 1) = (screen.lines - 1) * (screen.columns + 1) := by
    rw [suitable.last_line, suitable.lineStart_eq last]
  refine ⟨overwrite bytes₁ ((screen.lines - 1) * (screen.columns + 1)) [0], ?_,
    (all₁.clear _).congr fun l below => ?_⟩
  · rw [Nat.zero_mul, Nat.zero_add] at moved
    have length : Buffer.strlen ⟨bytes₁, (screen.columns + 1) * screen.lines⟩
        ((screen.lines - 1) * (screen.columns + 1)) = some (rows (screen.lines - 1)).length := by
      rw [suitable.strlen all₁ last, final]
    rw [Console.scrollDown]
    exact Option.bind_eq_some_iff.mpr ⟨_, moved,
      Option.bind_eq_some_iff.mpr ⟨_, (congrArg _ start).trans length,
      Option.bind_eq_some_iff.mpr ⟨_, (congrFun (congrArg _ start) _).trans (if_pos inside), rfl⟩⟩⟩
  · rw [scrolledRows]
    by_cases same : l = screen.lines - 1
    · rw [if_neg (by omega), same, Function.update_self]
    · rw [if_pos (by omega), Function.update_of_ne same, shifted, if_pos (by omega)]

end Scrolling

section Printing

variable {δ : Type} {screen : Screen δ} {bytes : Nat → UInt8} {sheet : Sheet}

namespace Sheet.Valid

variable {columns lines : Nat}

theorem nextLine (valid : sheet.Valid columns lines) :
    (sheet.nextLine lines).Valid columns lines := by
  have inside := valid.line_lt
  rw [Sheet.nextLine]
  split
  · rename_i room
    have empty := valid.below (sheet.line + 1) (Nat.lt_succ_self _)
    refine ⟨room, Nat.zero_le _, ?_, fun l lower => valid.below l (Nat.lt_of_succ_lt lower)⟩
    dsimp only
    rw [empty]
    exact Nat.zero_le _
  · have none : ∀ l, lines - 1 ≤ l → scrolledRows lines sheet.rows l = [] :=
      fun l least => if_neg (by omega)
    refine ⟨by dsimp only; omega, Nat.zero_le _, ?_, fun l lower => none l (Nat.le_of_lt lower)⟩
    dsimp only
    rw [none _ (Nat.le_refl _)]
    exact Nat.zero_le _

theorem put (valid : sheet.Valid columns lines) (room : sheet.column < columns) (c : UInt8) :
    (sheet.put c).Valid columns lines := by
  have length := valid.behind
  refine ⟨valid.line_lt, room, ?_, fun l lower => ?_⟩
  · rw [Sheet.put]
    dsimp only
    rw [Function.update_self, putAt]
    split
    · rw [List.length_append, List.length_singleton]
      omega
    · omega
  · exact (Function.update_of_ne (Nat.ne_of_gt lower) ..).trans (valid.below l lower)

theorem makeRoom (valid : sheet.Valid columns lines) (positive : 0 < columns) (c : UInt8) :
    (sheet.makeRoom columns lines c).Valid columns lines ∧
    (sheet.makeRoom columns lines c).column < columns := by
  rw [Sheet.makeRoom]
  split
  · refine ⟨valid.nextLine, ?_⟩
    rw [Sheet.nextLine]
    split
    · exact positive
    · exact positive
  · exact ⟨valid, by omega⟩

theorem type (valid : sheet.Valid columns lines) (positive : 0 < columns) (c : UInt8) :
    (sheet.type columns lines c).Valid columns lines := by
  obtain ⟨valid', room⟩ := valid.makeRoom positive c
  rw [Sheet.type]
  split
  · exact valid'
  · exact valid'.put room c

end Sheet.Valid

namespace Screen

/-- The console holds the text of the sheet and has drawn the display. -/
def Shows (screen : Screen δ) (sheet : Sheet) (display : δ) (s : Console δ) : Prop :=
  sheet.Valid screen.columns screen.lines ∧
    ∃ bytes, s = screen.console sheet.line sheet.column bytes display ∧
      ReadsRows screen.columns screen.lines bytes sheet.rows

variable {display : δ} {s : Console δ}

theorem nextLine_of_above {y : Nat} (above : s.line < minus s.lines 1) :
    Console.nextLine screen y s =
      some ({ s with line := s.line + 1, column := 0 }, (y + s.fontHeight) % 2 ^ 32) := by
  rw [Console.nextLine]
  dsimp only
  rw [if_pos above]

theorem nextLine_of_bottom {y : Nat} {s' : Console δ} (bottom : ¬ s.line < minus s.lines 1)
    (moved : Console.scrollDown screen { s with column := 0 } = some s') :
    Console.nextLine screen y s =
      some ({ s' with line := minus s'.lines 1 }, minus s'.lines 1 * s'.fontHeight % 2 ^ 32) := by
  rw [Console.nextLine]
  dsimp only
  rw [if_neg bottom, moved, Option.bind_eq_bind, Option.bind_some]

theorem Shows.nextLine (shows : screen.Shows sheet display s) (suitable : screen.Suitable) :
    ∃ s', Console.nextLine screen (sheet.line * screen.fontHeight) s =
        some (s', (sheet.nextLine screen.lines).line * screen.fontHeight) ∧
      screen.Shows (sheet.nextLine screen.lines) (screen.drawNextLine sheet display) s' := by
  obtain ⟨valid, bytes, rfl, all⟩ := shows
  have valid' := valid.nextLine
  have last := suitable.last_line
  rw [Sheet.nextLine] at valid' ⊢
  rw [drawNextLine]
  by_cases room : sheet.line + 1 < screen.lines
  · rw [if_pos room] at valid' ⊢
    rw [if_pos room]
    have above : sheet.line < minus screen.lines 1 := by omega
    refine ⟨screen.console (sheet.line + 1) 0 bytes display, ?_, valid', bytes, rfl, all⟩
    rw [nextLine_of_above above]
    dsimp only [console]
    rw [suitable.y_add valid.line_lt]
  · rw [if_neg room] at valid' ⊢
    rw [if_neg room]
    have bottom : ¬ sheet.line < minus screen.lines 1 := by
      have := valid.line_lt
      omega
    obtain ⟨bytes', moved, all'⟩ := suitable.scrollDown sheet.line 0 display all
    refine ⟨screen.console (screen.lines - 1) 0 bytes' (screen.scrolled sheet.rows display), ?_,
      valid', bytes', rfl, all'⟩
    rw [nextLine_of_bottom bottom moved]
    dsimp only [console]
    rw [last, suitable.y_mod (Nat.sub_le screen.lines 1)]

theorem Shows.makeRoom (shows : screen.Shows sheet display s)
    (suitable : screen.Suitable) (c : UInt8) :
    ∃ s', Console.makeRoom screen c (sheet.column * screen.fontWidth)
      (sheet.line * screen.fontHeight) s =
        some (s', (sheet.makeRoom screen.columns screen.lines c).column * screen.fontWidth,
          (sheet.makeRoom screen.columns screen.lines c).line * screen.fontHeight) ∧
      screen.Shows (sheet.makeRoom screen.columns screen.lines c)
        (screen.drawRoom sheet c display) s' := by
  obtain ⟨s', moved, shows'⟩ := shows.nextLine suitable
  obtain ⟨valid, bytes, rfl, all⟩ := shows
  have zero : (sheet.nextLine screen.lines).column = 0 := by
    rw [Sheet.nextLine]
    split
    · rfl
    · rfl
  rw [Sheet.makeRoom, drawRoom, Console.makeRoom]
  by_cases full : screen.columns ≤ sheet.column ∨ c = Console.newline
  · have here : (screen.console sheet.line sheet.column bytes display).column ≥ screen.columns ∨
        c = Console.newline :=
      full
    refine ⟨s', ?_, ?_⟩
    · rw [if_pos full, zero, Nat.zero_mul]
      refine (if_pos here).trans ?_
      rw [moved]
      rfl
    · rwa [if_pos full, if_pos full]
  · have here : ¬ ((screen.console sheet.line sheet.column bytes display).column ≥ screen.columns ∨
        c = Console.newline) := full
    rw [if_neg full, if_neg full]
    exact ⟨_, if_neg here, valid, bytes, rfl, all⟩

theorem Shows.put (shows : screen.Shows sheet display s) (suitable : screen.Suitable)
    (room : sheet.column < screen.columns) (c : UInt8) (x y : Nat) :
    ∃ s', Console.put screen c x y s = some s' ∧
      screen.Shows (sheet.put c) (screen.writeCharacter x y c display) s' := by
  obtain ⟨valid, bytes, rfl, all⟩ := shows
  have first := screen.index_lt valid.line_lt (Nat.le_of_lt room)
  have second := screen.index_lt valid.line_lt room
  have valid' := valid.put room c
  have fits : (putAt (sheet.rows sheet.line) sheet.column c).length ≤ screen.columns := by
    have behind := valid'.behind
    rw [Sheet.put] at behind
    dsimp only at behind
    rw [Function.update_self] at behind
    omega
  have inside : sheet.column + [c, 0].length ≤ screen.columns + 1 := by
    rw [List.length_cons, List.length_singleton]
    omega
  have written := all.overwrite inside fits ((all sheet.line valid.line_lt).2.put valid.behind c)
  have cell :
      (screen.console sheet.line sheet.column bytes display).character sheet.column sheet.line =
        sheet.line * (screen.columns + 1) + sheet.column :=
        suitable.character_eq valid.line_lt (Nat.le_of_lt room)
  have behind : (screen.console sheet.line sheet.column bytes display).character
    (sheet.column + 1) sheet.line =
      sheet.line * (screen.columns + 1) + (sheet.column + 1) :=
        suitable.character_eq valid.line_lt room
  have count : (sheet.column + 1) % 2 ^ 32 = sheet.column + 1 := by
    have := suitable.columns_lt
    omega
  rw [← List.singleton_append, overwrite_append, List.length_singleton, Nat.add_assoc] at written
  refine ⟨screen.console sheet.line (sheet.column + 1) _ _, ?_, valid', _, rfl, written⟩
  rw [Console.put]
  dsimp only [console, Buffer.write] at cell behind ⊢
  rw [cell, behind, count, if_pos first, Option.bind_eq_bind, Option.bind_some, if_pos second,
    Option.bind_some]

/-- What a round of the loop of `print` does. -/
theorem Shows.type (shows : screen.Shows sheet display s) (suitable : screen.Suitable) (c : UInt8) :
    ∃ s', screen.Shows (sheet.type screen.columns screen.lines c) (screen.draw sheet c display) s' ∧
      ∀ str, Console.printLoop screen (c :: str) (sheet.column * screen.fontWidth)
          (sheet.line * screen.fontHeight) s =
        Console.printLoop screen str
          ((sheet.type screen.columns screen.lines c).column * screen.fontWidth)
          ((sheet.type screen.columns screen.lines c).line * screen.fontHeight) s' := by
  obtain ⟨s₁, moved, shows₁⟩ := shows.makeRoom suitable c
  obtain ⟨_, room⟩ := shows.1.makeRoom suitable.columns_pos c
  rw [Sheet.type, draw]
  by_cases ended : c = Console.newline
  · rw [if_pos ended, if_pos ended]
    refine ⟨s₁, shows₁, fun str => ?_⟩
    rw [Console.printLoop, moved, Option.bind_eq_bind, Option.bind_some]
    exact if_pos ended
  · obtain ⟨s', put, shows'⟩ := shows₁.put suitable room c
      ((sheet.makeRoom screen.columns screen.lines c).column * screen.fontWidth)
      ((sheet.makeRoom screen.columns screen.lines c).line * screen.fontHeight)
    obtain ⟨_, bytes, rfl, _⟩ := shows₁
    rw [if_neg ended, if_neg ended]
    refine ⟨s', shows', fun str => ?_⟩
    have further := suitable.x_mod room
    rw [Nat.succ_mul] at further
    rw [Console.printLoop, moved, Option.bind_eq_bind, Option.bind_some]
    dsimp only
    rw [if_neg ended, put, Option.bind_eq_bind, Option.bind_some]
    dsimp only [console, Sheet.put]
    rw [further, Nat.succ_mul]

theorem Shows.printLoop (shows : screen.Shows sheet display s) (suitable : screen.Suitable)
    (str : List UInt8) :
    ∃ s', screen.Shows (str.foldl screen.typed (sheet, display)).1
      (str.foldl screen.typed (sheet, display)).2 s' ∧
      ∀ further, Console.printLoop screen (str ++ further) (sheet.column * screen.fontWidth)
          (sheet.line * screen.fontHeight) s =
        Console.printLoop screen further (s'.column * screen.fontWidth)
          (s'.line * screen.fontHeight) s' := by
  induction str generalizing sheet display s with
  | nil =>
      obtain ⟨valid, bytes, rfl, all⟩ := shows
      exact ⟨_, ⟨valid, bytes, rfl, all⟩, fun _ => rfl⟩
  | cons c str ih =>
      obtain ⟨s₁, shows₁, first⟩ := shows.type suitable c
      obtain ⟨s', shows', rest⟩ := ih shows₁
      refine ⟨s', shows', fun further => ?_⟩
      rw [List.cons_append, first, rest]

theorem Suitable.clearLines (suitable : screen.Suitable) (display : δ) {count i : Nat}
    (total : i + count = screen.lines) (cleared : ReadsRows screen.columns i bytes fun _ => []) :
    ∃ bytes', Console.clearLines count i (screen.console 0 0 bytes display) =
        some (screen.console 0 0 bytes' display) ∧
      ReadsRows screen.columns screen.lines bytes' fun _ => [] := by
  induction count generalizing i bytes with
  | zero =>
      obtain rfl : i = screen.lines := total
      exact ⟨bytes, rfl, cleared⟩
  | succ count ih =>
      have below : i < screen.lines := by omega
      have further : ReadsRows screen.columns (i + 1)
          (overwrite bytes (i * (screen.columns + 1)) [0]) fun _ => [] := by
        intro l le
        by_cases same : l = i
        · rw [same]
          exact ⟨Nat.zero_le _, reads_overwrite bytes _ List.not_mem_nil⟩
        · have kept := cleared.clear i l (by omega)
          rwa [Function.update_of_ne same] at kept
      obtain ⟨bytes', rest, all⟩ := ih (by omega) further
      refine ⟨bytes', ?_, all⟩
      have cell : (screen.console 0 0 bytes display).character 0 i = i * (screen.columns + 1) :=
        suitable.character_eq below (Nat.zero_le _)
      have inside := screen.index_lt below (Nat.zero_le screen.columns)
      rw [Console.clearLines, cell]
      exact Option.bind_eq_some_iff.mpr ⟨_, if_pos inside, rest⟩

/-- The console before the first call. -/
def start (display : δ) : Console δ := { display := display }

theorem Suitable.valid_empty (suitable : screen.Suitable) :
    Sheet.Valid screen.columns screen.lines {} :=
  ⟨suitable.lines_pos, Nat.zero_le _, Nat.le_refl 0, fun _ _ => rfl⟩

theorem Suitable.initialise (suitable : screen.Suitable) (fresh : Nat → UInt8) (display : δ) :
    ∃ s, Console.initialise screen fresh (start display) = some s ∧ screen.Shows {} display s := by
  have none : ReadsRows screen.columns 0 fresh fun _ => [] :=
    fun l below => absurd below (Nat.not_lt_zero l)
  obtain ⟨bytes, cleared, all⟩ := suitable.clearLines display (Nat.zero_add _) none
  have size := suitable.size_lt
  have whole : (screen.columns + 1) * screen.lines % 2 ^ 32 =
    (screen.columns + 1) * screen.lines := by omega
  refine ⟨_, ?_, suitable.valid_empty, bytes, rfl, all⟩
  rw [columns, lines] at whole
  rw [Console.initialise, start]
  dsimp only
  rw [whole]
  exact cleared

theorem Shows.columns_ne_zero (shows : screen.Shows sheet display s) (suitable : screen.Suitable) :
    s.columns ≠ 0 := by
  obtain ⟨_, bytes, rfl, _⟩ := shows
  exact Nat.ne_of_gt suitable.columns_pos

theorem Shows.print_eq (shows : screen.Shows sheet display s) (suitable : screen.Suitable)
    (fresh : Nat → UInt8) (str : List UInt8) :
    Console.print screen fresh s str =
      Console.printLoop screen str (s.column * screen.fontWidth)
        (s.line * screen.fontHeight) s := by
  have later := shows.columns_ne_zero suitable
  obtain ⟨valid, bytes, rfl, _⟩ := shows
  have x := suitable.x_mod valid.column_le
  have y := suitable.y_mod (Nat.le_of_lt valid.line_lt)
  rw [Console.print, if_neg later, Option.bind_eq_bind, Option.bind_some]
  dsimp only [console]
  rw [x, y]

/-- What `print` does to a console that holds a text; the text may come in two parts. -/
theorem Shows.print (shows : screen.Shows sheet display s) (suitable : screen.Suitable)
    (fresh : Nat → UInt8) (str : List UInt8) :
    ∃ s', Console.print screen fresh s str = some s' ∧
      screen.Shows (str.foldl screen.typed (sheet, display)).1
        (str.foldl screen.typed (sheet, display)).2 s' ∧
      ∀ further, Console.print screen fresh s (str ++ further) =
        Console.print screen fresh s' further := by
  obtain ⟨s', shows', loop⟩ := shows.printLoop suitable str
  have line : s.line = sheet.line ∧ s.column = sheet.column := by
    obtain ⟨_, bytes, rfl, _⟩ := shows
    exact ⟨rfl, rfl⟩
  refine ⟨s', ?_, shows', fun further => ?_⟩
  · have all := loop []
    rw [List.append_nil] at all
    rw [shows.print_eq suitable, line.1, line.2, all]
    rfl
  · rw [shows.print_eq suitable, shows'.print_eq suitable, line.1, line.2, loop]

/-- The first call is like the others, on an empty sheet. -/
theorem Suitable.print_start (suitable : screen.Suitable) (fresh : Nat → UInt8) (display : δ) :
    ∃ s, screen.Shows {} display s ∧
      ∀ str, Console.print screen fresh (start display) str = Console.print screen fresh s str := by
  obtain ⟨s, made, shows⟩ := suitable.initialise fresh display
  refine ⟨s, shows, fun str => ?_⟩
  have first : (start display).columns = 0 := rfl
  rw [Console.print, if_pos first, made, Console.print, if_neg (shows.columns_ne_zero suitable)]

/-- Calls one after the other print the text of all of them. -/
theorem Shows.prints (shows : screen.Shows sheet display s) (suitable : screen.Suitable)
    (fresh : Nat → UInt8) (texts : List (List UInt8)) :
    texts.foldlM (Console.print screen fresh) s = Console.print screen fresh s texts.flatten := by
  induction texts generalizing sheet display s with
  | nil =>
      rw [shows.print_eq suitable]
      rfl
  | cons text texts ih =>
      obtain ⟨s', first, shows', further⟩ := shows.print suitable fresh text
      rw [List.foldlM_cons, first, List.flatten_cons, further]
      exact ih shows'

/-- What all the calls do. -/
theorem Suitable.prints (suitable : screen.Suitable) (fresh : Nat → UInt8) (display : δ)
    (text : List UInt8) (texts : List (List UInt8)) :
    ∃ s, (text :: texts).foldlM (Console.print screen fresh) (start display) = some s ∧
      Console.print screen fresh (start display) (text :: texts).flatten = some s ∧
      screen.Shows ((text :: texts).flatten.foldl screen.typed ({}, display)).1
        ((text :: texts).flatten.foldl screen.typed ({}, display)).2 s := by
  obtain ⟨s₀, shows₀, first⟩ := suitable.print_start fresh display
  obtain ⟨s, printed, shows, _⟩ := shows₀.print suitable fresh (text :: texts).flatten
  refine ⟨s, ?_, ?_, shows⟩
  · rw [List.foldlM_cons, first, ← List.foldlM_cons, shows₀.prints suitable, printed]
  · rw [first, printed]

end Screen

end Printing

end Mykonos.Display
