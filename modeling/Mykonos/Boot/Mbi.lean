import Mykonos.Heap.Kmalloc
import Mykonos.Lib.Bytes
import Mykonos.Memory.Reserve

/-! # The boot information

`parseMbi` walks over the tags of the multiboot information and fills the globals that
the rest of the kernel starts from: the pool of physical memory, the initramfs, the
frame buffer and the root pointer of ACPI.
-/

namespace Mykonos.Boot

open Lib Memory Heap

/-- Where the linker has put the image of the kernel. -/
structure Symbols where
  kernelPhysicalAddress : Nat
  kernelPhysicalEnd : Nat
  deriving Repr, DecidableEq

structure Initramfs where
  pointer : Nat := 0
  size : Nat := 0
  deriving Repr, DecidableEq

structure FrameBuffer where
  pointer : Nat := 0
  width : Nat := 0
  height : Nat := 0
  pitch : Nat := 0
  depth : Nat := 0
  deriving Repr, DecidableEq

/-- The globals that `mbi.cpp` writes; `rsdp` by its bytes. -/
structure Globals where
  physicalMemory : BlockMap := {}
  initramfs : Initramfs := {}
  frameBuffer : FrameBuffer := {}
  rsdp : Nat → UInt8 := fun _ => 0

/-- `MBI_TAG_MODULE`. -/
abbrev mbiTagModule : Nat := 3

/-- `MBI_TAG_MEMORY`. -/
abbrev mbiTagMemory : Nat := 6

/-- `MBI_TAG_FRAME_BUFFER`. -/
abbrev mbiTagFrameBuffer : Nat := 8

/-- `MBI_TAG_RSDP_OLD`. -/
abbrev mbiTagRsdpOld : Nat := 14

/-- `MBI_TAG_RSDP_NEW`. -/
abbrev mbiTagRsdpNew : Nat := 15

section Parsing

variable (memory : Nat → UInt8)

def read32 (address : Nat) : Nat :=
  readLittleEndian memory address 4

def read64 (address : Nat) : Nat :=
  readLittleEndian memory address 8

/-- The difference is one of 32 bits. -/
def parseModuleTag (tag : Nat) (globals : Globals) : Globals :=
  let moduleStart := read32 memory (tag + 8)
  let moduleEnd := read32 memory (tag + 12)
  { globals with initramfs := ⟨moduleStart, (moduleEnd + 2 ^ 32 - moduleStart) % 2 ^ 32⟩ }

/-- The block that is added for an entry: its base is rounded up and its length down. -/
def entryBlock (base length : Nat) : Block :=
  let entryBase := pageAlignUp base
  let entrySize := pageAlignDown length
  ⟨entryBase, (entryBase + entrySize) % 2 ^ 64⟩

/-- The body of the loop over the entries, each of 24 bytes. -/
def parseEntry (tag : Nat) (physicalMemory : BlockMap) (i : Nat) : BlockMap :=
  let entry := tag + 16 + 24 * i
  if read32 memory (entry + 16) = 1 then
    physicalMemory.addBlock (entryBlock (read64 memory entry) (read64 memory (entry + 8)))
  else physicalMemory

def kernelBlock (symbols : Symbols) : Block :=
  ⟨pageAlignDown symbols.kernelPhysicalAddress, pageAlignUp symbols.kernelPhysicalEnd⟩

def lowBlock : Block := ⟨0, 0x100000⟩

/-- The two reserves after the loop. -/
def reserveKernel (symbols : Symbols) (physicalMemory : BlockMap) : BlockMap :=
  (physicalMemory.reserve (kernelBlock symbols)).reserve lowBlock

/-- The division is one of 64 bits, and traps for entries of size zero. -/
def parseMemoryMapTag (symbols : Symbols) (tag : Nat) (globals : Globals) : Option Globals :=
  let size := read32 memory (tag + 4)
  let entrySize := read32 memory (tag + 8)
  if entrySize = 0 then none
  else
    let numEntries := (size + 2 ^ 64 - 16) % 2 ^ 64 / entrySize % 2 ^ 32
    let filled := (List.range numEntries).foldl (parseEntry memory tag) globals.physicalMemory
    some { globals with physicalMemory := reserveKernel symbols filled }

def parseFrameBufferTag (tag : Nat) (globals : Globals) : Globals :=
  { globals with
    frameBuffer :=
      { pointer := read64 memory (tag + 8)
        pitch := read32 memory (tag + 16)
        width := read32 memory (tag + 20)
        height := read32 memory (tag + 24)
        depth := (memory (tag + 28)).toNat } }

/-- `memcpy` to the front of `rsdp`. -/
def copyRsdp (tag count : Nat) (globals : Globals) : Globals :=
  { globals with rsdp := fun i => if i < count then memory (tag + 8 + i) else globals.rsdp i }

def parseOldRsdpTag (tag : Nat) (globals : Globals) : Globals :=
  copyRsdp memory tag 20 globals

def parseNewRsdpTag (tag : Nat) (globals : Globals) : Globals :=
  copyRsdp memory tag 36 globals

def parseMbiTag (symbols : Symbols) (type tag : Nat) (globals : Globals) : Option Globals :=
  if type = mbiTagModule then some (parseModuleTag memory tag globals)
  else if type = mbiTagMemory then parseMemoryMapTag memory symbols tag globals
  else if type = mbiTagFrameBuffer then some (parseFrameBufferTag memory tag globals)
  else if type = mbiTagRsdpOld then some (parseOldRsdpTag memory tag globals)
  else if type = mbiTagRsdpNew then some (parseNewRsdpTag memory tag globals)
  else some globals

/-- The size is rounded in 32 bits, the address is one of 64. -/
def nextTag (tag : Nat) : Nat :=
  (tag + (read32 memory (tag + 4) + 7) % 2 ^ 32 / 8 * 8) % 2 ^ 64

/-- The loop of `parseMbi`, which ends at a tag of type zero. -/
def parseTags (symbols : Symbols) : Nat → Nat → Globals → Option Globals
  | 0, _, _ => none
  | fuel + 1, tag, globals =>
      let type := read32 memory tag
      if type = 0 then some globals
      else (parseMbiTag memory symbols type tag globals).bind
        (parseTags symbols fuel (nextTag memory tag))

def initramfsBlock (initramfs : Initramfs) : Block :=
  ⟨pageAlignDown initramfs.pointer, pageAlignUp ((initramfs.pointer + initramfs.size) % 2 ^ 64)⟩

/-- What `parseMbi` does after the loop. -/
def reserveInitramfs (globals : Globals) : Globals :=
  if 0 < globals.initramfs.size then
    { globals with
      physicalMemory := globals.physicalMemory.reserve (initramfsBlock globals.initramfs) }
  else globals

def parseMbi (symbols : Symbols) (fuel mbiPointer : Nat) (globals : Globals) : Option Globals :=
  (parseTags memory symbols fuel (mbiPointer + 8) globals).map reserveInitramfs

end Parsing

end Mykonos.Boot
