import Mykonos.Fs.String
import Mykonos.Util.Vector

/-! # The initramfs

The constructor of `InitramfsFsProvider` walks over the headers of a ustar archive in
memory and records the files and the directories.
-/

namespace Mykonos.Fs

open Lib Util

inductive FileType where
  | none
  | file
  | directory
  deriving Repr, DecidableEq, Inhabited

structure InitramfsEntry where
  name : String := {}
  type : FileType := .none
  data : Nat := 0
  size : Nat := 0
  deriving Repr, DecidableEq

instance : Inhabited InitramfsEntry := ⟨{}⟩

/-- A character has a sign, and the difference is an `int`. -/
def octalDigit (c : UInt8) : UInt32 :=
  c.toInt8.toInt32.toUInt32 - 48

def parseOctal (memory : Nat → UInt8) (str length : Nat) : UInt32 :=
  (bytesAt memory str length).foldl (fun result c => result * 8 + octalDigit c) 0

/-- `SIGNATURE_OFFSET`. -/
abbrev signatureOffset : Nat := 257

/-- `SIGNATURE`, the text "ustar". -/
def signature : List UInt8 := [117, 115, 116, 97, 114]

/-- `SIGNATURE_LENGTH`. -/
abbrev signatureLength : Nat := 5

/-- `TYPE_OFFSET`. -/
abbrev typeOffset : Nat := 156

/-- `TYPE_FILE`, the character `0`. -/
abbrev typeFile : UInt8 := 48

/-- `TYPE_DIRECTORY`, the character `5`. -/
abbrev typeDirectory : UInt8 := 53

/-- `SIZE_OFFSET`. -/
abbrev sizeOffset : Nat := 124

/-- `SIZE_LENGTH`. -/
abbrev sizeLength : Nat := 11

abbrev slash : UInt8 := 47

def fileType (type : UInt8) : FileType :=
  if type = typeFile then .file else if type = typeDirectory then .directory else .none

section Reading

variable (memory : Nat → UInt8)

def isHeader (initramfsPointer : Nat) : Bool :=
  memeq (bytesAt memory (initramfsPointer + signatureOffset) signatureLength) signature

def headerSize (initramfsPointer : Nat) : Nat :=
  (parseOctal memory (initramfsPointer + sizeOffset) sizeLength).toNat

/-- Directories often end in a slash. -/
def trimSlash (name : String) : String :=
  if name.get memory (name.length - 1) = slash then name.subString 0 (name.length - 1) else name

/-- The body of the loop, but for the step to the next header. -/
def readHeader (initramfsPointer : Nat) (entries : Vector × Store InitramfsEntry) :
    Option (Vector × Store InitramfsEntry) :=
  let fileType := fileType (memory (initramfsPointer + typeOffset))
  let size := headerSize memory initramfsPointer
  if fileType ≠ .none then
    (String.ofCString memory initramfsPointer).map fun name =>
      entries.1.pushBack ⟨trimSlash memory name, fileType, initramfsPointer + 512, size⟩ entries.2
  else some entries

def nextHeader (initramfsPointer : Nat) : Nat :=
  initramfsPointer + ((headerSize memory initramfsPointer + 511) / 512 * 512 + 512)

def readEntries : Nat → Nat → Vector × Store InitramfsEntry →
    Option (Vector × Store InitramfsEntry)
  | 0, _, _ => none
  | fuel + 1, initramfsPointer, entries =>
      if isHeader memory initramfsPointer then
        (readHeader memory initramfsPointer entries).bind
          (readEntries fuel (nextHeader memory initramfsPointer))
      else some entries

/-- The constructor, which gives the vector of entries. -/
def initramfsFsProvider (fuel pointer : Nat) : Option (Vector × Store InitramfsEntry) :=
  readEntries memory fuel pointer ({}, {})

end Reading

end Mykonos.Fs
