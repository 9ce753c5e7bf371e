import Mathlib.Data.List.Perm.Basic
import Mykonos.Boot.Tags

/-! # The memory that is free after boot

The pool is filled from the memory map, and the pages of the kernel, of low memory and
of the module are taken out of it again.
-/

namespace Mykonos.Memory.BlockMap

open Lib

/-- Disjoint blocks that find a slot are all added. -/
theorem addBlocks_free {blocks : List Block} {m : BlockMap} (h : m.WellFormed)
    (formed : ∀ b ∈ blocks, b.WellFormed)
    (disjoint : blocks.Pairwise fun b c => Disjoint b.range c.range)
    (apart : ∀ b ∈ blocks, Disjoint b.range m.free)
    (room : m.numBlocks + blocks.length ≤ blockMapSize) :
    (blocks.foldl addBlock m).WellFormed ∧ (blocks.foldl addBlock m).free =
      m.free ∪ covered Block.range blocks ∧
      (blocks.foldl addBlock m).numBlocks ≤ m.numBlocks + blocks.length := by
  induction blocks generalizing m with
  | nil => exact ⟨h, by simp, Nat.le_refl _⟩
  | cons b rest ih =>
      have hb := formed b List.mem_cons_self
      obtain ⟨before, later⟩ := List.pairwise_cons.mp disjoint
      rw [List.length_cons] at room
      have spare : ¬m.Saturated := fun full => by
        have := full.full
        omega
      have added := addBlock_free h.toTidy spare hb
      have grown := addBlock_numBlocks_le m b
      have next : ∀ c ∈ rest, Disjoint c.range (m.addBlock b).free := by
        intro c member
        rw [added]
        exact Set.disjoint_union_right.mpr ⟨apart c (List.mem_cons_of_mem _ member),
          (before c member).symm⟩
      obtain ⟨wellFormed, all, count⟩ := ih (addBlock_wellFormed h hb (apart b List.mem_cons_self))
        (fun c member => formed c (List.mem_cons_of_mem _ member)) later next (by omega)
      refine ⟨wellFormed, ?_, ?_⟩
      · rw [List.foldl_cons, all, added, covered_cons, Set.union_assoc]
      · rw [List.foldl_cons, List.length_cons]
        omega

/-- A range is reserved as a whole while there are slots. -/
theorem reserve_spare {m : BlockMap} {r : Block} (h : m.WellFormed) (ordered : r.start ≤ r.stop)
    (spare : m.numBlocks < blockMapSize) :
    (m.reserve r).WellFormed ∧ (m.reserve r).free = m.free \ r.range ∧ (m.reserve r).numBlocks ≤
      m.numBlocks + 2 :=
  ⟨reserve_wellFormed h ordered, reserve_free h fun torn => spare.ne torn.1.full,
    reserve_numBlocks_le h r⟩

end Mykonos.Memory.BlockMap

namespace Mykonos.Boot

open Lib Memory Heap

/-- The pages that meet a range of addresses. -/
def pageHull (start stop : Nat) : Set Nat :=
  {a | ∃ b, start ≤ b ∧ b < stop ∧ a / 4096 = b / 4096}

theorem mem_pageHull {start stop a : Nat} (some_page : start < stop) :
    a ∈ pageHull start stop ↔ start / 4096 * 4096 ≤ a ∧ a < (stop + 4095) / 4096 * 4096 := by
  constructor
  · rintro ⟨b, first, last, page⟩
    omega
  · intro ⟨first, last⟩
    by_cases below : a < start
    · exact ⟨start, Nat.le_refl _, some_page, by omega⟩
    · by_cases beyond : stop ≤ a
      · exact ⟨stop - 1, by omega, by omega, by omega⟩
      · exact ⟨a, by omega, by omega, rfl⟩

theorem pageHull_empty {start stop : Nat} (nothing : stop ≤ start) : pageHull start stop = ∅ := by
  apply Set.eq_empty_of_forall_notMem
  rintro a ⟨b, first, last, _⟩
  omega

/-- The image is not empty and does not reach the last page of the address space. -/
structure Symbols.Placed (symbols : Symbols) : Prop where
  ordered : symbols.kernelPhysicalAddress < symbols.kernelPhysicalEnd
  bounded : symbols.kernelPhysicalEnd + 4095 < 2 ^ 64

theorem kernelBlock_range {symbols : Symbols} (placed : symbols.Placed) :
    (kernelBlock symbols).range =
      pageHull symbols.kernelPhysicalAddress symbols.kernelPhysicalEnd := by
  ext a
  rw [mem_pageHull placed.ordered, Block.mem_range]
  simp only [kernelBlock, pageAlignUp, pageAlignDown, Nat.mod_eq_of_lt placed.bounded]

theorem kernelBlock_ordered {symbols : Symbols} (placed : symbols.Placed) :
    (kernelBlock symbols).start ≤ (kernelBlock symbols).stop := by
  have ordered := placed.ordered
  simp only [kernelBlock, pageAlignUp, pageAlignDown, Nat.mod_eq_of_lt placed.bounded]
  omega

namespace Entry

def range (e : Entry) : Set Nat :=
  Set.Ico e.base (e.base + e.length)

end Entry

/-- The entries of available memory. -/
def usable (entries : List Entry) : List Entry :=
  entries.filter fun e => e.type = 1

/-- The addresses of available memory. -/
def available (entries : List Entry) : Set Nat :=
  covered Entry.range (usable entries)

theorem foldl_add (entries : List Entry) (m : BlockMap) :
    entries.foldl Entry.add m = ((usable entries).map Entry.block).foldl BlockMap.addBlock m := by
  induction entries generalizing m with
  | nil => rfl
  | cons e rest ih =>
      rw [List.foldl_cons, ih]
      by_cases one : e.type = 1 <;> simp [usable, Entry.add, one]

/-- The map is as the specification has it, with as many entries as the pool has slots
    for and some to spare. -/
structure Regular (entries : List Entry) : Prop where
  few : (usable entries).length ≤ 250
  disjoint : (usable entries).Pairwise fun d e => Disjoint d.range e.range
  bounded : ∀ e ∈ usable entries, e.base + e.length < 2 ^ 64
  aligned : ∀ e ∈ usable entries, e.base % 4096 = 0 ∧ e.length % 4096 = 0

theorem Regular.block {entries : List Entry} (h : Regular entries) {e : Entry}
    (member : e ∈ usable entries) :
    e.block = ⟨e.base, e.base + e.length⟩ := by
  obtain ⟨base, length⟩ := h.aligned e member
  have bounded := h.bounded e member
  have up : pageAlignUp e.base = e.base := by
    have := e.wide.1
    unfold pageAlignUp
    omega
  have down : pageAlignDown e.length = e.length := by
    unfold pageAlignDown
    omega
  simp only [Entry.block, entryBlock, up, down, Nat.mod_eq_of_lt bounded]

/-- The memory map as the pool has it before the reserves. -/
theorem filled_free {entries : List Entry} (few : (usable entries).length ≤ 250)
    (formed : ∀ e ∈ usable entries, e.block.WellFormed)
    (disjoint : (usable entries).Pairwise fun d e => Disjoint d.block.range e.block.range) :
    (entries.foldl Entry.add {}).WellFormed ∧
      (entries.foldl Entry.add {}).free = covered (fun e => e.block.range) (usable entries) ∧
      (entries.foldl Entry.add {}).numBlocks ≤ 250 := by
  have blocks : ∀ b ∈ (usable entries).map Entry.block, b.WellFormed :=
    List.forall_mem_map.mpr formed
  have fits : ((usable entries).map Entry.block).length ≤ 250 := (List.length_map _).trans_le few
  obtain ⟨wellFormed, all, count⟩ := BlockMap.addBlocks_free BlockMap.empty_wellFormed blocks
    (List.pairwise_map.mpr disjoint) (fun b _ => by simp [BlockMap.free])
    (Nat.zero_add _ |>.trans_le (fits.trans (by decide)))
  rw [foldl_add]
  refine ⟨wellFormed, ?_, ?_⟩
  · rw [all]
    simp [BlockMap.free, covered]
  · exact count.trans (Nat.zero_add _ |>.trans_le fits)

theorem Regular.filled {entries : List Entry} (h : Regular entries) :
    (entries.foldl Entry.add {}).WellFormed ∧ (entries.foldl Entry.add {}).free =
      available entries ∧
      (entries.foldl Entry.add {}).numBlocks ≤ 250 := by
  have range {e : Entry} (member : e ∈ usable entries) : e.block.range = e.range := by
    rw [h.block member]
    rfl
  obtain ⟨formed, free, count⟩ := filled_free h.few
    (fun e member => by rw [h.block member]; exact ⟨Nat.le_add_right _ _, h.bounded e member⟩)
    (h.disjoint.imp_of_mem fun left right apart => by rwa [range left, range right])
  refine ⟨formed, ?_, count⟩
  rw [free]
  exact covered_congr _ fun e member => range member

/-- What the reserves leave. -/
theorem reserveKernel_free {symbols : Symbols} (placed : symbols.Placed) {m : BlockMap}
    (h : m.WellFormed) (few : m.numBlocks ≤ 250) :
    (reserveKernel symbols m).WellFormed ∧
      (reserveKernel symbols m).free =
        (m.free \ pageHull symbols.kernelPhysicalAddress symbols.kernelPhysicalEnd) \
          Set.Ico 0 0x100000 ∧
      (reserveKernel symbols m).numBlocks ≤ 254 := by
  obtain ⟨formed, kernel, count⟩ := BlockMap.reserve_spare h (kernelBlock_ordered placed)
    (Nat.lt_of_le_of_lt few (by decide))
  obtain ⟨formed', low, count'⟩ := BlockMap.reserve_spare (r := lowBlock) formed (Nat.zero_le _)
    (Nat.lt_of_le_of_lt count (Nat.lt_of_le_of_lt (Nat.add_le_add_right few 2) (by decide)))
  refine ⟨formed', ?_, ?_⟩
  · rw [reserveKernel, low, kernel, kernelBlock_range placed]
    rfl
  · exact count'.trans (Nat.add_le_add_right (count.trans (Nat.add_le_add_right few 2)) 2)

/-! ## The tags -/

namespace Tag

def entries? : Tag → Option (List Entry)
  | memoryMap _ entries _ _ => some entries
  | module _ _ _ _ | other _ _ _ _ => none

def initramfs? : Tag → Option Initramfs
  | module moduleStart moduleEnd _ _ =>
    some ⟨moduleStart, (moduleEnd + 2 ^ 32 - moduleStart) % 2 ^ 32⟩
  | memoryMap _ _ _ _ | other _ _ _ _ => none

theorem initramfs?_bounded {tag : Tag} {initramfs : Initramfs}
    (found : tag.initramfs? = some initramfs) :
    initramfs.pointer + initramfs.size < 2 ^ 33 := by
  cases tag with
  | memoryMap _ _ _ _ | other _ _ _ _ => cases found
  | module moduleStart moduleEnd _ fits =>
      obtain rfl := Option.some.inj found
      simp only
      omega

end Tag

/-- Memory maps and modules do not meet, so their order does not matter. -/
theorem foldl_record (symbols : Symbols) (tags : List Tag) (m : BlockMap) (initramfs : Initramfs) :
    tags.foldl (fun recorded tag => tag.record symbols recorded) (m, initramfs) =
      ((tags.filterMap Tag.entries?).foldl
        (fun m entries => reserveKernel symbols (entries.foldl Entry.add m)) m,
        (tags.filterMap Tag.initramfs?).foldl (fun _ last => last) initramfs) := by
  induction tags generalizing m initramfs with
  | nil => rfl
  | cons tag rest ih =>
      cases tag with
      | module moduleStart moduleEnd string fits => exact ih _ _
      | memoryMap version entries trailing short => exact ih _ _
      | other type content fits unlike => exact ih _ _

/-- The pages of the modules. -/
def modulePages (tags : List Tag) : Set Nat :=
  {a | ∃ initramfs ∈ tags.filterMap Tag.initramfs?,
    a ∈ pageHull initramfs.pointer (initramfs.pointer + initramfs.size)}

theorem initramfsBlock_range {initramfs : Initramfs}
    (bounded : initramfs.pointer + initramfs.size < 2 ^ 33) (some_size : 0 < initramfs.size) :
    (initramfsBlock initramfs).range =
      pageHull initramfs.pointer (initramfs.pointer + initramfs.size) ∧
      (initramfsBlock initramfs).start ≤ (initramfsBlock initramfs).stop := by
  have small : (initramfs.pointer + initramfs.size) % 2 ^ 64 =
    initramfs.pointer + initramfs.size := by omega
  have padded : (initramfs.pointer + initramfs.size + 4095) % 2 ^ 64 =
      initramfs.pointer + initramfs.size + 4095 := by
    omega
  constructor
  · ext a
    rw [mem_pageHull (Nat.lt_add_of_pos_right some_size), Block.mem_range]
    simp only [initramfsBlock, pageAlignUp, pageAlignDown, small, padded]
  · simp only [initramfsBlock, pageAlignUp, pageAlignDown, small, padded]
    omega

/-- The last reserve takes out the pages of the module, if there is one. -/
theorem reserveInitramfs_free {tags : List Tag} (one : (tags.filterMap Tag.initramfs?).length ≤ 1)
    {globals : Globals}
    (recorded : globals.initramfs = (tags.filterMap Tag.initramfs?).foldl (fun _ last => last) {})
    (h : globals.physicalMemory.WellFormed)
    (spare : globals.physicalMemory.numBlocks < blockMapSize) :
    (reserveInitramfs globals).physicalMemory.free = globals.physicalMemory.free \
      modulePages tags := by
  have bounded (initramfs : Initramfs) (member : initramfs ∈ tags.filterMap Tag.initramfs?) :
      initramfs.pointer + initramfs.size < 2 ^ 33 := by
    obtain ⟨tag, _, found⟩ := List.mem_filterMap.mp member
    exact Tag.initramfs?_bounded found
  unfold reserveInitramfs modulePages
  generalize tags.filterMap Tag.initramfs? = found at one recorded bounded ⊢
  cases found with
  | nil =>
      rw [recorded]
      simp
  | cons initramfs rest =>
      obtain rfl : rest = [] := List.eq_nil_of_length_eq_zero (by simpa using one)
      obtain rfl : globals.initramfs = initramfs := recorded
      have pages : {a | ∃ i ∈ [globals.initramfs], a ∈ pageHull i.pointer (i.pointer + i.size)} =
          pageHull globals.initramfs.pointer
            (globals.initramfs.pointer + globals.initramfs.size) := by
        ext a
        simp
      rw [pages]
      by_cases some_size : 0 < globals.initramfs.size
      · obtain ⟨range, ordered⟩ := initramfsBlock_range (bounded _ List.mem_cons_self) some_size
        rw [if_pos some_size, (BlockMap.reserve_spare h ordered spare).2.1, range]
      · rw [if_neg some_size, pageHull_empty (by omega), Set.sdiff_empty]

/-- The pool after `parseMbi`, for the tags in any order. -/
theorem parseMbi_pool {memory : Nat → UInt8} {mbiPointer : Nat} {tags : List Tag}
    (mbi : Mbi memory mbiPointer tags) {symbols : Symbols} (placed : symbols.Placed)
    {entries : List Entry} (maps : tags.filterMap Tag.entries? = [entries])
    (one : (tags.filterMap Tag.initramfs?).length ≤ 1) (regular : Regular entries) {fuel : Nat}
    (enough : tags.length < fuel) :
    ∃ globals, parseMbi memory symbols fuel mbiPointer {} = some globals ∧
      globals.physicalMemory.free =
        ((available entries \ pageHull symbols.kernelPhysicalAddress symbols.kernelPhysicalEnd) \
          Set.Ico 0 0x100000) \ modulePages tags := by
  have small := mbi.small
  have inside := mbi.inside
  unfold totalSize at small inside
  obtain ⟨walked, found, recorded⟩ :=
    parseTags_stored mbi.stored (by omega) (by omega) symbols enough {}
  rw [foldl_record, maps] at recorded
  obtain ⟨pool, initramfs⟩ := Prod.mk.inj recorded
  obtain ⟨formed, free, count⟩ := regular.filled
  obtain ⟨formed', free', count'⟩ := reserveKernel_free placed formed count
  refine ⟨reserveInitramfs walked, by rw [parseMbi, found, Option.map_some], ?_⟩
  rw [reserveInitramfs_free one initramfs (pool ▸ formed')
    (pool ▸ Nat.lt_of_le_of_lt count' (by decide)), pool]
  exact congrArg (· \ modulePages tags) (free'.trans (by rw [free]))

/-- After `parseMbi` exactly that memory is free which the map has as available, without
    the pages of the kernel, of the first megabyte and of the module; the order of the
    tags makes no difference. -/
theorem parseMbi_exact (memory : Nat → UInt8) (mbiPointer : Nat) (tags : List Tag)
    (symbols : Symbols) (entries : List Entry) (fuel : Nat) (mbi : Mbi memory mbiPointer tags)
    (placed : symbols.Placed) (maps : tags.filterMap Tag.entries? = [entries])
    (one : (tags.filterMap Tag.initramfs?).length ≤ 1) (regular : Regular entries)
    (enough : tags.length < fuel) :
    ∃ globals, parseMbi memory symbols fuel mbiPointer {} = some globals ∧
      globals.physicalMemory.free =
        ((available entries \ pageHull symbols.kernelPhysicalAddress symbols.kernelPhysicalEnd) \
          Set.Ico 0 0x100000) \ modulePages tags ∧
      ∀ memory' mbiPointer' tags' fuel', Mbi memory' mbiPointer' tags' → tags'.Perm tags →
      tags'.length < fuel' →
        ∃ globals', parseMbi memory' symbols fuel' mbiPointer' {} = some globals' ∧
          globals'.physicalMemory.free = globals.physicalMemory.free := by
  obtain ⟨globals, parsed, free⟩ := parseMbi_pool mbi placed maps one regular enough
  refine ⟨globals, parsed, free, ?_⟩
  intro memory' mbiPointer' tags' fuel' mbi' perm enough'
  have maps' : tags'.filterMap Tag.entries? = [entries] :=
    List.perm_singleton.mp (maps ▸ perm.filterMap Tag.entries?)
  have modules := perm.filterMap Tag.initramfs?
  obtain ⟨globals', parsed', free'⟩ :=
    parseMbi_pool mbi' placed maps' (modules.length_eq.trans_le one) regular enough'
  have pages : modulePages tags' = modulePages tags := by
    ext a
    simp only [modulePages, Set.mem_ofPred_eq, modules.mem_iff]
  exact ⟨globals', parsed', by rw [free', free, pages]⟩

/-- Boot information with a name, a module and a memory map. -/
def sampleTags : List Tag :=
  [.other 1 [107] (by decide) (by decide),
    .module 0x300000 0x300800 [109, 0] (by decide),
    .memoryMap 0
      [⟨0, 0x9F000, 1, 0, by decide, by decide⟩, ⟨0x100000, 0x1000000, 1, 0, by decide, by decide⟩,
        ⟨0xF0000000, 0x1000, 2, 0, by decide, by decide⟩]
      [] (by decide)]

/-- The bytes of the tags, each filled up to a multiple of eight. -/
def sampleMemory (address : Nat) : UInt8 :=
  (sampleTags.flatMap fun tag => tag.bytes ++ List.replicate (tag.padded - tag.size) 0).getD
    (address - 0x9008) 0

def sampleSymbols : Symbols := ⟨0x2000E8, 0x280123⟩

theorem parseMbi_exact_sample :
    ∃ globals, parseMbi sampleMemory sampleSymbols 4 0x9000 {} = some globals ∧
      0x2FFFFF ∈ globals.physicalMemory.free ∧ 0x300FFF ∉ globals.physicalMemory.free := by
  have mbi : Mbi sampleMemory 0x9000 sampleTags := ⟨by decide +kernel, by decide, by decide⟩
  have regular : Regular [⟨0, 0x9F000, 1, 0, by decide, by decide⟩,
    ⟨0x100000, 0x1000000, 1, 0, by decide, by decide⟩,
      ⟨0xF0000000, 0x1000, 2, 0, by decide, by decide⟩] := by
    refine ⟨by decide, ?_, by decide, by decide⟩
    have apart : Disjoint (Set.Ico 0 0x9F000) (Set.Ico 0x100000 0x1100000) := by
      rw [Set.disjoint_left]
      intro a first second
      rw [Set.mem_Ico] at first second
      omega
    exact List.pairwise_pair.mpr apart
  obtain ⟨globals, parsed, free, _⟩ :=
    parseMbi_exact _ _ _ sampleSymbols _ 4 mbi ⟨by decide, by decide⟩ rfl (by decide)
      regular (by decide)
  refine ⟨globals, parsed, ?_, ?_⟩
  · rw [free]
    refine ⟨⟨⟨⟨_, List.mem_cons_of_mem _ List.mem_cons_self, by decide, by decide⟩, ?_⟩, ?_⟩, ?_⟩
    · rw [mem_pageHull (by decide)]
      decide
    · rw [Set.mem_Ico]
      decide
    · rintro ⟨initramfs, member, inside⟩
      obtain rfl : initramfs = ⟨0x300000, 0x800⟩ := List.mem_singleton.mp member
      rw [mem_pageHull (by decide)] at inside
      exact absurd inside (by decide)
  · rw [free]
    rintro ⟨_, outside⟩
    exact outside ⟨⟨0x300000, 0x800⟩, by decide, 0x300000, by decide, by decide, by decide⟩

end Mykonos.Boot
