import Mykonos.Fs.String
import Mykonos.Util.Copying

/-! # The console

`print` writes text to the display and keeps it, a C string for each line, in a screen
buffer, so that the display can be scrolled. The display and the font are a parameter: the
console only calls them. An access outside the screen buffer has no result.
-/

namespace Mykonos.Display

open Lib Util

/-- A difference of two `unsigned` numbers. -/
def minus (a b : Nat) : Nat :=
  (a + 2 ^ 32 - b) % 2 ^ 32

/-- An allocated block. -/
structure Buffer where
  bytes : Nat → UInt8 := fun _ => 0
  size : Nat := 0

namespace Buffer

def write (buffer : Buffer) (index : Nat) (c : UInt8) : Option Buffer :=
  if index < buffer.size then some { buffer with bytes := overwrite buffer.bytes index [c] }
  else none

def strlen (buffer : Buffer) (str : Nat) : Option Nat :=
  Fs.strlen buffer.bytes str (min (2 ^ 31) (buffer.size - str))

def strcpy (buffer : Buffer) (dst src : Nat) : Option Buffer := do
  let size ← buffer.strlen src
  { buffer with bytes := memcpy buffer.bytes dst src size }.write (dst + size) 0

end Buffer

/-- What the console uses of the display and of the font. -/
structure Screen (δ : Type) where
  getWidth : Nat
  getHeight : Nat
  fontWidth : Nat
  fontHeight : Nat
  writeCharacter : Nat → Nat → UInt8 → δ → δ
  removeCharacter : Nat → Nat → δ → δ
  copyRegion : Nat → Nat → Nat → Nat → Nat → Nat → δ → δ

/-- The static variables of the console. -/
structure Console (δ : Type) where
  line : Nat := 0
  column : Nat := 0
  lines : Nat := 0
  columns : Nat := 0
  screenBuffer : Buffer := {}
  displayWidth : Nat := 0
  displayHeight : Nat := 0
  fontWidth : Nat := 0
  fontHeight : Nat := 0
  display : δ

variable {δ : Type} (screen : Screen δ)

namespace Console

/-- `SCREEN_BUFFER_CHARACTER`, as an index. -/
def character (s : Console δ) (column line : Nat) : Nat :=
  (line * (s.columns + 1) + column) % 2 ^ 32

/-- `SCREEN_BUFFER_LINE`, as an index. -/
def lineStart (s : Console δ) (line : Nat) : Nat :=
  line * (s.columns + 1) % 2 ^ 32

/-- So many characters are removed, from `x` on. -/
def removeCharacters (fontWidth y : Nat) : Nat → Nat → δ → δ
  | 0, _, display => display
  | count + 1, x, display =>
      removeCharacters fontWidth y count ((x + fontWidth) % 2 ^ 32)
        (screen.removeCharacter x y display)

/-- The body of the loop of `scrollDown`. -/
def scrollLine (i y : Nat) (s : Console δ) : Option (Console δ) := do
  let line := s.lineStart i
  let previousLine := s.lineStart (i - 1)
  let lineLength ← s.screenBuffer.strlen line
  let previousLineLength ← s.screenBuffer.strlen previousLine
  let width := lineLength * s.fontWidth % 2 ^ 32
  let above := minus y s.fontHeight
  let display :=
    removeCharacters screen s.fontWidth above (previousLineLength - lineLength) width s.display
  let screenBuffer ← s.screenBuffer.strcpy previousLine line
  some { s with
    screenBuffer := screenBuffer
    display := screen.copyRegion 0 y width s.fontHeight 0 above display }

/-- The loop of `scrollDown`, with the `y` that it leaves behind. -/
def scrollLines : Nat → Nat → Nat → Console δ → Option (Console δ × Nat)
  | 0, _, y, s => some (s, y)
  | count + 1, i, y, s => do
      let y := (y + s.fontHeight) % 2 ^ 32
      scrollLines count (i + 1) y (← scrollLine screen i y s)

def scrollDown (s : Console δ) : Option (Console δ) := do
  let (s, y) ← scrollLines screen (s.lines - 1) 1 0 s
  let lastLine := s.lineStart (minus s.lines 1)
  let lastLineLength ← s.screenBuffer.strlen lastLine
  let display := removeCharacters screen s.fontWidth y lastLineLength 0 s.display
  let screenBuffer ← s.screenBuffer.write lastLine 0
  some { s with screenBuffer := screenBuffer, display := display }

def newline : UInt8 := 10

/-- The cursor goes to the start of the next line; `y` goes with it. -/
def nextLine (y : Nat) (s : Console δ) : Option (Console δ × Nat) :=
  let s := { s with column := 0 }
  if s.line < minus s.lines 1 then
    some ({ s with line := s.line + 1 }, (y + s.fontHeight) % 2 ^ 32)
  else do
    let s ← scrollDown screen s
    let s := { s with line := minus s.lines 1 }
    some (s, s.line * s.fontHeight % 2 ^ 32)

/-- The line ends where it is full, and at a newline. -/
def makeRoom (c : UInt8) (x y : Nat) (s : Console δ) : Option (Console δ × Nat × Nat) :=
  if s.column ≥ s.columns ∨ c = newline then (nextLine screen y s).map fun (s, y) => (s, 0, y)
  else some (s, x, y)

/-- A character at the cursor, with an end of the line behind it. -/
def put (c : UInt8) (x y : Nat) (s : Console δ) : Option (Console δ) := do
  let display := screen.writeCharacter x y c s.display
  let screenBuffer ← s.screenBuffer.write (s.character s.column s.line) c
  let screenBuffer ← screenBuffer.write (s.character (s.column + 1) s.line) 0
  some { s with
    screenBuffer := screenBuffer
    display := display
    column := (s.column + 1) % 2 ^ 32 }

/-- The loop of `print`. -/
def printLoop : List UInt8 → Nat → Nat → Console δ → Option (Console δ)
  | [], _, _, s => some s
  | c :: str, x, y, s => do
      let (s, x, y) ← makeRoom screen c x y s
      if c = newline then printLoop str x y s
      else printLoop str ((x + s.fontWidth) % 2 ^ 32) y (← put screen c x y s)

/-- Each line of the new screen buffer is empty. -/
def clearLines : Nat → Nat → Console δ → Option (Console δ)
  | 0, _, s => some s
  | count + 1, i, s => do
      let screenBuffer ← s.screenBuffer.write (s.character 0 i) 0
      clearLines count (i + 1) { s with screenBuffer := screenBuffer }

/-- The first call asks for the sizes and allocates the screen buffer, over the bytes that
    happen to be in the memory. -/
def initialise (fresh : Nat → UInt8) (s : Console δ) : Option (Console δ) :=
  let columns := screen.getWidth / screen.fontWidth
  let lines := screen.getHeight / screen.fontHeight
  clearLines lines 0 { s with
    displayWidth := screen.getWidth
    displayHeight := screen.getHeight
    fontWidth := screen.fontWidth
    fontHeight := screen.fontHeight
    columns := columns
    lines := lines
    screenBuffer := ⟨fresh, (columns + 1) * lines % 2 ^ 32⟩ }

def print (fresh : Nat → UInt8) (s : Console δ) (str : List UInt8) : Option (Console δ) := do
  let s ← if s.columns = 0 then initialise screen fresh s else some s
  printLoop screen str (s.column * s.fontWidth % 2 ^ 32) (s.line * s.fontHeight % 2 ^ 32) s

end Console

end Mykonos.Display
