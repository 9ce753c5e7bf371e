import Mykonos.Boot.Mbi

/-! # Well-formed boot information

The tags as the boot loader writes them, and what the walk of `parseMbi` over them
does to the pool of memory and to the initramfs.
-/

namespace Mykonos.Boot

open Lib Memory Heap

/-- An entry of the memory map. -/
structure Entry where
  base : Nat
  length : Nat
  type : Nat
  reserved : Nat := 0
  wide : base < 2 ^ 64 ∧ length < 2 ^ 64
  narrow : type < 2 ^ 32
  deriving Repr, DecidableEq

namespace Entry

def bytes (e : Entry) : List UInt8 :=
  littleEndian e.base 8 ++ (littleEndian e.length 8 ++
    (littleEndian e.type 4 ++ littleEndian e.reserved 4))

@[simp] theorem bytes_length (e : Entry) : e.bytes.length = 24 := by
  simp [bytes]

def block (e : Entry) : Block :=
  entryBlock e.base e.length

/-- One iteration over the entries, for an entry as it is written. -/
def add (physicalMemory : BlockMap) (e : Entry) : BlockMap :=
  if e.type = 1 then physicalMemory.addBlock e.block else physicalMemory

end Entry

/-- A tag as it is written. A memory map may end with a part of an entry. -/
inductive Tag where
  | module (moduleStart moduleEnd : Nat) (string : List UInt8)
      (fits : moduleStart < 2 ^ 32 ∧ moduleEnd < 2 ^ 32)
  | memoryMap (version : Nat) (entries : List Entry) (trailing : List UInt8)
      (short : trailing.length < 24)
  | other (type : Nat) (content : List UInt8) (fits : type < 2 ^ 32)
      (unlike : type ≠ 0 ∧ type ≠ mbiTagModule ∧ type ≠ mbiTagMemory)
  deriving Repr, DecidableEq

namespace Tag

def type : Tag → Nat
  | module _ _ _ _ => mbiTagModule
  | memoryMap _ _ _ _ => mbiTagMemory
  | other type _ _ _ => type

def content : Tag → List UInt8
  | module moduleStart moduleEnd string _ =>
    littleEndian moduleStart 4 ++ (littleEndian moduleEnd 4 ++ string)
  | memoryMap version entries trailing _ =>
      littleEndian 24 4 ++ (littleEndian version 4 ++ (entries.flatMap Entry.bytes ++ trailing))
  | other _ content _ _ => content

def size (tag : Tag) : Nat :=
  8 + tag.content.length

/-- The tags stand at multiples of eight bytes. -/
def padded (tag : Tag) : Nat :=
  (tag.size + 7) / 8 * 8

def bytes (tag : Tag) : List UInt8 :=
  littleEndian tag.type 4 ++ (littleEndian tag.size 4 ++ tag.content)

/-- What the tag does to the pool and to the initramfs. -/
def record (symbols : Symbols) : Tag → BlockMap × Initramfs → BlockMap × Initramfs
  | module moduleStart moduleEnd _ _, (physicalMemory, _) =>
      (physicalMemory, ⟨moduleStart, (moduleEnd + 2 ^ 32 - moduleStart) % 2 ^ 32⟩)
  | memoryMap _ entries _ _, (physicalMemory, initramfs) =>
      (reserveKernel symbols (entries.foldl Entry.add physicalMemory), initramfs)
  | other _ _ _ _, globals => globals

theorem type_lt (tag : Tag) : tag.type < 2 ^ 32 := by
  cases tag with
  | module _ _ _ _ => exact (by decide : mbiTagModule < 2 ^ 32)
  | memoryMap _ _ _ _ => exact (by decide : mbiTagMemory < 2 ^ 32)
  | other _ _ fits _ => exact fits

theorem type_ne_zero (tag : Tag) : tag.type ≠ 0 := by
  cases tag with
  | module _ _ _ _ => simp [type]
  | memoryMap _ _ _ _ => simp [type]
  | other _ _ _ unlike => exact unlike.1

end Tag

/-- The tags stand one after the other, with any bytes between them, and are followed by
    one of type zero. -/
def Stored (memory : Nat → UInt8) : Nat → List Tag → Prop
  | address, [] => Holds memory address (littleEndian 0 4)
  | address, tag :: rest => Holds memory address tag.bytes ∧
    Stored memory (address + tag.padded) rest

instance (memory : Nat → UInt8) :
    (address : Nat) → (tags : List Tag) → Decidable (Stored memory address tags)
  | address, [] => inferInstanceAs (Decidable (Holds memory address (littleEndian 0 4)))
  | address, tag :: rest =>
      have := instDecidableStored memory (address + tag.padded) rest
      inferInstanceAs (Decidable (Holds memory address tag.bytes ∧
        Stored memory (address + tag.padded) rest))

/-- The size of the whole structure, its header and the last tag included. -/
def totalSize (tags : List Tag) : Nat :=
  8 + (tags.map Tag.padded).sum + 8

/-- The structure is as the specification of multiboot has it: its size is a number of 32
    bits, and it does not reach beyond the end of memory. -/
structure Mbi (memory : Nat → UInt8) (mbiPointer : Nat) (tags : List Tag) : Prop where
  stored : Stored memory (mbiPointer + 8) tags
  small : totalSize tags < 2 ^ 32
  inside : mbiPointer + totalSize tags ≤ 2 ^ 64

section Reading

variable {memory : Nat → UInt8} {address : Nat}

theorem read32_holds {value : Nat} (h : Holds memory address (littleEndian value 4))
    (fits : value < 2 ^ 32) :
    read32 memory address = value :=
  h.readLittleEndian (Nat.lt_of_lt_of_eq fits (by decide))

theorem read64_holds {value : Nat} (h : Holds memory address (littleEndian value 8))
    (fits : value < 2 ^ 64) :
    read64 memory address = value :=
  h.readLittleEndian (Nat.lt_of_lt_of_eq fits (by decide))

theorem parseEntry_holds {e : Entry} {i : Nat} (h : Holds memory (address + 16 + 24 * i) e.bytes)
    (physicalMemory : BlockMap) :
    parseEntry memory address physicalMemory i = Entry.add physicalMemory e := by
  simp only [Entry.bytes, holds_append, littleEndian_length] at h
  obtain ⟨base, length, type, _⟩ := h
  unfold parseEntry
  simp only [read64_holds base e.wide.1, read64_holds length e.wide.2, read32_holds type e.narrow]
  rfl

theorem parseEntries_holds (entries : List Entry) {k : Nat}
    (h : Holds memory (address + 16 + 24 * k) (entries.flatMap Entry.bytes))
    (physicalMemory : BlockMap) :
    (List.range' k entries.length).foldl (parseEntry memory address) physicalMemory =
      entries.foldl Entry.add physicalMemory := by
  induction entries generalizing k physicalMemory with
  | nil => rfl
  | cons e rest ih =>
      have next : address + 16 + 24 * k + 24 = address + 16 + 24 * (k + 1) := by omega
      rw [List.flatMap_cons, holds_append, Entry.bytes_length, next] at h
      rw [List.length_cons, List.range'_succ, List.foldl_cons, List.foldl_cons,
        parseEntry_holds h.1]
      exact ih h.2 _

theorem entries_length (entries : List Entry) :
    (entries.flatMap Entry.bytes).length = 24 * entries.length := by
  induction entries with
  | nil => rfl
  | cons e rest ih => rw [List.flatMap_cons, List.length_append, ih, Entry.bytes_length,
      List.length_cons, Nat.mul_succ, Nat.add_comm]

/-- The size of a tag gives back how many entries it has. -/
theorem parseMemoryMapTag_holds {version : Nat} {entries : List Entry} {trailing : List UInt8}
    {short : trailing.length < 24}
    (h : Holds memory address (Tag.memoryMap version entries trailing short).bytes)
    (small : (Tag.memoryMap version entries trailing short).size < 2 ^ 32) (symbols : Symbols)
    (globals : Globals) :
    parseMemoryMapTag memory symbols address globals =
      some { globals with
        physicalMemory :=
          reserveKernel symbols (entries.foldl Entry.add globals.physicalMemory) } := by
  simp only [Tag.bytes, Tag.content, holds_append, littleEndian_length] at h
  obtain ⟨_, size, entrySize, _, written, _⟩ := h
  have total : (Tag.memoryMap version entries trailing short).size =
      16 + 24 * entries.length + trailing.length := by
    simp [Tag.size, Tag.content, ← entries_length]
    omega
  rw [Nat.add_assoc address 4 4] at entrySize written
  have sizeRead := read32_holds size small
  have entrySizeRead := read32_holds entrySize (by decide)
  rw [total] at small
  have count : (16 + 24 * entries.length + trailing.length + 2 ^ 64 - 16) % 2 ^ 64 / 24 % 2 ^ 32 =
      entries.length := by
    have written : (16 + 24 * entries.length + trailing.length + 2 ^ 64 - 16) % 2 ^ 64 =
        24 * entries.length + trailing.length := by
      omega
    have quotient : (24 * entries.length + trailing.length) / 24 = entries.length := by omega
    rw [written, quotient]
    exact Nat.mod_eq_of_lt (by omega)
  unfold parseMemoryMapTag
  simp only [sizeRead, entrySizeRead, total, count, List.range_eq_range']
  rw [if_neg (by decide)]
  rw [parseEntries_holds entries (by simpa using written)]

theorem parseMbiTag_other {type : Nat} (symbols : Symbols) (globals : Globals)
    (noModule : type ≠ mbiTagModule) (noMemory : type ≠ mbiTagMemory) :
    ∃ globals', parseMbiTag memory symbols type address globals = some globals' ∧
      (globals'.physicalMemory, globals'.initramfs) =
        (globals.physicalMemory, globals.initramfs) := by
  unfold parseMbiTag
  rw [if_neg noModule, if_neg noMemory]
  split
  · refine ⟨parseFrameBufferTag memory address globals, rfl, ?_⟩
    unfold parseFrameBufferTag
    rfl
  · split
    · exact ⟨parseOldRsdpTag memory address globals, rfl, rfl⟩
    · split
      · exact ⟨parseNewRsdpTag memory address globals, rfl, rfl⟩
      · exact ⟨globals, rfl, rfl⟩

theorem parseMbiTag_holds {tag : Tag} (h : Holds memory address tag.bytes)
    (small : tag.size < 2 ^ 32) (symbols : Symbols) (globals : Globals) :
    ∃ globals', parseMbiTag memory symbols tag.type address globals = some globals' ∧
      (globals'.physicalMemory, globals'.initramfs) =
        tag.record symbols (globals.physicalMemory, globals.initramfs) := by
  cases tag with
  | module moduleStart moduleEnd string fits =>
      simp only [Tag.bytes, Tag.content, holds_append, littleEndian_length] at h
      obtain ⟨_, _, first, last, _⟩ := h
      have startRead := read32_holds first fits.1
      have endRead := read32_holds last fits.2
      refine ⟨_, if_pos rfl, ?_⟩
      simp only [parseModuleTag, startRead, endRead]
      rfl
  | memoryMap version entries trailing short =>
      refine ⟨_, (if_neg (by decide : mbiTagMemory ≠ mbiTagModule)).trans
        ((if_pos rfl).trans (parseMemoryMapTag_holds h small symbols globals)), rfl⟩
  | other type content fits unlike =>
      exact parseMbiTag_other symbols globals unlike.2.1 unlike.2.2

/-- The walk visits the tags in order and ends behind the last one. -/
theorem parseTags_stored {tags : List Tag} (h : Stored memory address tags)
    (small : (tags.map Tag.padded).sum < 2 ^ 32)
    (inside : address + (tags.map Tag.padded).sum < 2 ^ 64) (symbols : Symbols) {fuel : Nat}
    (enough : tags.length < fuel) (globals : Globals) :
    ∃ globals', parseTags memory symbols fuel address globals = some globals' ∧
      (globals'.physicalMemory, globals'.initramfs) =
        tags.foldl (fun recorded tag => tag.record symbols recorded) (globals.physicalMemory,
          globals.initramfs) := by
  induction tags generalizing address fuel globals with
  | nil =>
      obtain ⟨fuel, rfl⟩ := Nat.exists_eq_add_one.mpr enough
      have last := read32_holds h (by decide)
      exact ⟨globals, if_pos last, rfl⟩
  | cons tag rest ih =>
      obtain ⟨fuel, rfl⟩ := Nat.exists_eq_add_one.mpr (Nat.zero_lt_of_lt enough)
      obtain ⟨here, after⟩ := h
      rw [List.map_cons, List.sum_cons] at small inside
      have fits : tag.size ≤ tag.padded := by
        unfold Tag.padded
        omega
      obtain ⟨next, taken, recorded⟩ := parseMbiTag_holds here (by omega) symbols globals
      have header := here
      simp only [Tag.bytes, holds_append, littleEndian_length] at header
      have typeRead := read32_holds header.1 tag.type_lt
      have sizeRead := read32_holds header.2.1 (by omega)
      have onward : nextTag memory address = address + tag.padded := by
        have whole : (tag.size + 7) % 2 ^ 32 / 8 * 8 = tag.padded := by
          unfold Tag.padded at *
          omega
        rw [nextTag, sizeRead, whole]
        exact Nat.mod_eq_of_lt (by omega)
      obtain ⟨final, finished, result⟩ :=
        ih after (by omega) (by omega) (Nat.lt_of_succ_lt_succ enough) next
      refine ⟨final, ?_, ?_⟩
      · simp only [parseTags, typeRead, tag.type_ne_zero, if_false, taken, Option.bind_some, onward]
        exact finished
      · rw [result, recorded, List.foldl_cons]

end Reading

end Mykonos.Boot
