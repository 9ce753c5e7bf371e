import Mykonos.Boot.Tags

/-! # Entries at the advertised stride

A memory map says how large its entries are, so that they can grow. `parseMemoryMapTag`
counts them by that size and then addresses them as elements of an array of 24 bytes each.
-/

namespace Mykonos.Boot

open Lib Memory Heap

section Stride

variable (memory : Nat → UInt8)

/-- The reads of the loop body for the entry at an address, each with its width. -/
def entryReads (entry : Nat) : List (Nat × Nat) :=
  (entry + 16, 4) :: if read32 memory (entry + 16) = 1 then [(entry, 8), (entry + 8, 8)] else []

/-- How often the loop of `parseMemoryMapTag` runs. -/
def numEntries (tag : Nat) : Nat :=
  (read32 memory (tag + 4) + 2 ^ 64 - 16) % 2 ^ 64 / read32 memory (tag + 8) % 2 ^ 32

/-- Where the array has its elements. -/
def elements (tag : Nat) : List Nat :=
  (List.range (numEntries memory tag)).map fun i => tag + 16 + 24 * i

/-- The reads of `parseMemoryMapTag`, in order. -/
def memoryMapReads (tag : Nat) : List (Nat × Nat) :=
  (tag + 4, 4) :: (tag + 8, 4) :: (elements memory tag).flatMap (entryReads memory)

/-- Where the tag says that its entries are. -/
def advertised (tag : Nat) : List Nat :=
  (List.range ((read32 memory (tag + 4) - 16) / read32 memory (tag + 8))).map fun i =>
    tag + 16 + i * read32 memory (tag + 8)

/-- What the entry at an address does to the pool. -/
def addEntryAt (physicalMemory : BlockMap) (entry : Nat) : BlockMap :=
  if read32 memory (entry + 16) = 1 then
    physicalMemory.addBlock (entryBlock (read64 memory entry) (read64 memory (entry + 8)))
  else physicalMemory

end Stride

/-- The entries are larger than those the kernel knows, or as large, and the tag is large
    enough for its own header. -/
structure MapHeader (memory : Nat → UInt8) (tag : Nat) : Prop where
  aligned : 8 ∣ read32 memory (tag + 8)
  large : 24 ≤ read32 memory (tag + 8)
  size : 16 ≤ read32 memory (tag + 4)

/-- The entries that are looked at are those the tag advertises, each of type one adds its
    block, and nothing outside the tag is read. -/
structure Strided (memory : Nat → UInt8) (symbols : Symbols) (tag : Nat)
    (globals : Globals) : Prop where
  reads : memoryMapReads memory tag =
    (tag + 4, 4) :: (tag + 8, 4) :: (advertised memory tag).flatMap (entryReads memory)
  inside : ∀ read ∈ memoryMapReads memory tag, tag ≤ read.1 ∧ read.1 + read.2 ≤
    tag + read32 memory (tag + 4)
  result : parseMemoryMapTag memory symbols tag globals =
    some { globals with
      physicalMemory := reserveKernel symbols
        ((advertised memory tag).foldl (addEntryAt memory) globals.physicalMemory) }

section Header

variable {memory : Nat → UInt8} {tag : Nat}

theorem numEntries_eq (header : MapHeader memory tag) :
    numEntries memory tag = (read32 memory (tag + 4) - 16) / read32 memory (tag + 8) := by
  have size := header.size
  have large := header.large
  have narrow : read32 memory (tag + 4) < 2 ^ 32 := readLittleEndian_lt memory (tag + 4) 4
  have difference : (read32 memory (tag + 4) + 2 ^ 64 - 16) % 2 ^ 64 =
    read32 memory (tag + 4) - 16 := by omega
  rw [numEntries, difference]
  exact Nat.mod_eq_of_lt ((Nat.div_le_self _ _).trans_lt (by omega))

/-- The loop adds the elements of the array. -/
theorem parseMemoryMapTag_elements (header : MapHeader memory tag) (symbols : Symbols)
    (globals : Globals) :
    parseMemoryMapTag memory symbols tag globals =
      some { globals with
        physicalMemory := reserveKernel symbols
          ((elements memory tag).foldl (addEntryAt memory) globals.physicalMemory) } := by
  have large := header.large
  unfold parseMemoryMapTag
  simp only [show read32 memory (tag + 8) ≠ 0 by omega, if_false, elements, List.foldl_map]
  rfl

theorem flatMap_entryReads_inj {first second : List Nat} (length : first.length = second.length)
    (same : first.flatMap (entryReads memory) = second.flatMap (entryReads memory)) :
    first = second := by
  induction first generalizing second with
  | nil => exact (List.length_eq_zero_iff.mp length.symm).symm
  | cons entry rest ih =>
      obtain ⟨other, others, rfl⟩ := List.exists_cons_of_length_eq_add_one length.symm
      rw [List.flatMap_cons, List.flatMap_cons] at same
      have heads : entry = other := by
        have first := congrArg List.head? same
        simpa [entryReads] using first
      subst heads
      rw [ih (Nat.succ_injective length) (List.append_cancel_left same)]

/-- The array and the tag agree for entries of 24 bytes, and as long as there is one at
    most. -/
theorem elements_eq_advertised_iff (header : MapHeader memory tag) :
    elements memory tag = advertised memory tag ↔
      read32 memory (tag + 8) = 24 ∨ numEntries memory tag ≤ 1 := by
  have count := numEntries_eq header
  rw [elements, advertised, ← count, List.map_inj_left]
  constructor
  · intro same
    by_contra other
    rw [not_or] at other
    have second := same 1 (List.mem_range.mpr (by omega))
    omega
  · rintro (stride | few) i below
    · rw [stride, Nat.mul_comm]
    · have first : i = 0 := by
        have := List.mem_range.mp below
        omega
      rw [first, Nat.zero_mul, Nat.mul_zero]

/-- Elements of the array lie within the tag, whatever they are taken for. -/
theorem memoryMapReads_inside (header : MapHeader memory tag) :
    ∀ read ∈ memoryMapReads memory tag, tag ≤ read.1 ∧ read.1 + read.2 ≤
      tag + read32 memory (tag + 4) := by
  have size := header.size
  rw [memoryMapReads, List.forall_mem_cons, List.forall_mem_cons]
  refine ⟨by simp only; omega, by simp only; omega, fun read member => ?_⟩
  obtain ⟨entry, listed, here⟩ := List.mem_flatMap.mp member
  obtain ⟨i, below, rfl⟩ := List.mem_map.mp listed
  have within : 24 * (i + 1) ≤ read32 memory (tag + 4) - 16 := by
    calc 24 * (i + 1) ≤ read32 memory (tag + 8) * numEntries memory tag :=
          Nat.mul_le_mul header.large (List.mem_range.mp below)
      _ = read32 memory (tag + 8) * ((read32 memory (tag + 4) - 16) / read32 memory (tag + 8)) := by
          rw [numEntries_eq header]
      _ ≤ read32 memory (tag + 4) - 16 := Nat.mul_div_le _ _
  simp only [entryReads] at here
  split_ifs at here <;> simp only [List.mem_cons, List.not_mem_nil, or_false] at here
  · rcases here with rfl | rfl | rfl <;> simp only <;> omega
  · subst here
    simp only
    omega

end Header

/-- The advertised entries are read, and they alone, exactly if they are of 24 bytes or
    the tag has room for one at most. -/
theorem memory_map_strided_iff {memory : Nat → UInt8} {tag : Nat} (header : MapHeader memory tag)
    (symbols : Symbols) (globals : Globals) :
    Strided memory symbols tag globals ↔
      read32 memory (tag + 8) = 24 ∨
        (read32 memory (tag + 4) - 16) / read32 memory (tag + 8) ≤ 1 := by
  rw [← numEntries_eq header, ← elements_eq_advertised_iff header]
  constructor
  · intro strided
    have reads := strided.reads
    rw [memoryMapReads, List.cons_inj_right, List.cons_inj_right] at reads
    refine flatMap_entryReads_inj ?_ reads
    rw [elements, advertised, List.length_map, List.length_map, List.length_range,
      List.length_range, numEntries_eq header]
  · intro same
    refine ⟨by rw [memoryMapReads, same], memoryMapReads_inside header, ?_⟩
    rw [parseMemoryMapTag_elements header, same]

/-- A tag with two entries of so many bytes each. -/
def twoEntries (entrySize : Nat) (address : Nat) : UInt8 :=
  ((littleEndian 6 4 ++ (littleEndian (16 + 2 * entrySize) 4 ++
    littleEndian entrySize 4))[address]?).getD 0

theorem entries_of_24_bytes :
    Strided (twoEntries 24) ⟨0x200000, 0x280000⟩ 0 {} :=
  (memory_map_strided_iff ⟨by decide, by decide, by decide⟩ _ _).mpr (by decide)

/-- With entries of 32 bytes the second one is looked for eight bytes before its start. -/
theorem entries_of_32_bytes :
    ¬ ∀ memory symbols tag globals, MapHeader memory tag → Strided memory symbols tag globals := by
  intro always
  have strided := always (twoEntries 32) ⟨0x200000, 0x280000⟩ 0 {} ⟨by decide, by decide, by decide⟩
  exact absurd strided.reads (by decide)

end Mykonos.Boot
