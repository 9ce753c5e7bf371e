import Mykonos.Boot.MemoryMap
import Mykonos.Memory.Offered

/-! # Rounding the memory map

The base of an entry is rounded up and its length is rounded down, each on its own. The
block starts inside of its entry, but it ends behind it when the length has less to lose
than the base gains.
-/

namespace Mykonos.Boot

open Lib Memory Heap

/-- How far the base is from the next page. -/
def padding (base : Nat) : Nat :=
  (4096 - base % 4096) % 4096

theorem entryBlock_bounded (base length : Nat) : (entryBlock base length).Bounded := by
  constructor
  · simp only [entryBlock, pageAlignUp]
    omega
  · exact Nat.mod_lt _ (by decide)

/-- The entry does not reach the last page of the address space. -/
def Entry.Low (e : Entry) : Prop :=
  e.base + e.length + 4095 < 2 ^ 64

instance (e : Entry) : Decidable e.Low :=
  inferInstanceAs (Decidable (e.base + e.length + 4095 < 2 ^ 64))

theorem Entry.Low.block {e : Entry} (low : e.Low) :
    e.block = ⟨e.base + padding e.base, e.base + padding e.base + e.length / 4096 * 4096⟩ := by
  unfold Entry.Low at low
  have up : pageAlignUp e.base = e.base + padding e.base := by
    simp only [pageAlignUp, padding]
    omega
  have down : (e.base + padding e.base + e.length / 4096 * 4096) % 2 ^ 64 =
      e.base + padding e.base + e.length / 4096 * 4096 := by
    unfold padding
    omega
  simp only [Entry.block, entryBlock, up, pageAlignDown, down]

theorem Entry.Low.wellFormed {e : Entry} (low : e.Low) : e.block.WellFormed := by
  rw [low.block]
  unfold Entry.Low at low
  refine ⟨Nat.le_add_right _ _, ?_⟩
  unfold padding
  simp only
  omega

/-- The block is inside of its entry if there is none, or if rounding the length gives up
    what rounding the base takes. -/
theorem Entry.Low.inside_iff {e : Entry} (low : e.Low) :
    e.block.cells ⊆ e.range ↔ e.length < 4096 ∨ padding e.base ≤ e.length % 4096 := by
  rw [low.wellFormed.cells, low.block]
  constructor
  · intro inside
    by_contra beyond
    rw [not_or] at beyond
    have last : e.base + padding e.base + e.length / 4096 * 4096 - 1 ∈ e.range := by
      apply inside
      rw [Block.mem_range]
      simp only
      omega
    simp only [Entry.range, Set.mem_Ico] at last
    omega
  · intro fits a inside
    rw [Block.mem_range] at inside
    simp only [Entry.range, Set.mem_Ico] at inside ⊢
    omega

/-- The blocks of disjoint entries are disjoint. -/
theorem Entry.Low.disjoint {d e : Entry} (hd : d.Low) (he : e.Low)
    (apart : Disjoint d.range e.range) :
    Disjoint d.block.range e.block.range := by
  rw [Set.disjoint_left] at apart ⊢
  rw [hd.block, he.block]
  intro a inD inE
  rw [Block.mem_range] at inD inE
  simp only [padding] at inD inE
  have first := @apart d.base
  have second := @apart e.base
  simp only [Entry.range, Set.mem_Ico] at first second
  omega

/-- Few disjoint entries that leave the last page of the address space alone. -/
structure Sparse (entries : List Entry) : Prop where
  few : (usable entries).length ≤ 250
  disjoint : (usable entries).Pairwise fun d e => Disjoint d.range e.range
  low : ∀ e ∈ usable entries, e.Low

/-- Whatever the map is, only addresses of its blocks are offered. -/
theorem offered_blocks (symbols : Symbols) (entries : List Entry) :
    (reserveKernel symbols (entries.foldl Entry.add {})).offered ⊆
      covered (fun e => e.block.cells) (usable entries) := by
  have fold (l : List Entry) (m : BlockMap) (hm : m.Bounded) :
      ((l.map Entry.block).foldl BlockMap.addBlock m).offered ⊆
        m.offered ∪ covered (fun e => e.block.cells) l ∧
        ((l.map Entry.block).foldl BlockMap.addBlock m).Bounded := by
    induction l generalizing m with
    | nil => simpa using hm
    | cons e rest ih =>
        obtain ⟨smaller, bounded⟩ :=
          BlockMap.addBlock_offered hm (entryBlock_bounded e.base e.length)
        obtain ⟨later, bounded'⟩ := ih _ bounded
        refine ⟨later.trans ?_, bounded'⟩
        rw [covered_cons, ← Set.union_assoc]
        exact Set.union_subset_union_left _ smaller
  obtain ⟨filled, bounded⟩ := fold (usable entries) {} nofun
  have nothing : BlockMap.offered {} = ∅ := covered_nil Block.cells
  rw [nothing, Set.empty_union, ← foldl_add] at filled
  rw [← foldl_add] at bounded
  obtain ⟨kernel, bounded'⟩ := BlockMap.reserve_offered bounded (kernelBlock symbols)
  exact ((BlockMap.reserve_offered bounded' lowBlock).1.trans kernel).trans filled

theorem Sparse.offered {entries : List Entry} (h : Sparse entries) {symbols : Symbols}
    (placed : symbols.Placed) :
    (reserveKernel symbols (entries.foldl Entry.add {})).offered =
      covered (fun e => e.block.cells) (usable entries) \
        (pageHull symbols.kernelPhysicalAddress symbols.kernelPhysicalEnd ∪
          Set.Ico 0 0x100000) := by
  obtain ⟨formed, free, count⟩ := filled_free h.few (fun e member => (h.low e member).wellFormed)
    (h.disjoint.imp_of_mem fun left right apart => (h.low _ left).disjoint (h.low _ right) apart)
  obtain ⟨formed', free', _⟩ := reserveKernel_free placed formed count
  have same : covered (fun e : Entry => e.block.cells) (usable entries) =
      covered (fun e => e.block.range) (usable entries) :=
    covered_congr _ fun e member => (h.low e member).wellFormed.cells
  rw [formed'.toTidy.offered, free', free, same, Set.sdiff_sdiff]

/-- Nothing is offered but available memory if no block has addresses beyond it, and for
    a sparse map only then, apart from the pages that are reserved anyway. A block
    has none beyond its own entry exactly if the base gains no more than the length loses. -/
theorem parseMemoryMapTag_sound (memory : Nat → UInt8) (address version : Nat)
    (entries : List Entry) (trailing : List UInt8) (short : trailing.length < 24)
    (symbols : Symbols) (placed : symbols.Placed)
    (holds : Holds memory address (Tag.memoryMap version entries trailing short).bytes)
    (small : (Tag.memoryMap version entries trailing short).size < 2 ^ 32) :
    ∃ globals, parseMemoryMapTag memory symbols address {} = some globals ∧
      ((∀ e ∈ usable entries, e.block.cells ⊆ available entries) →
        globals.physicalMemory.offered ⊆ available entries) ∧
      (Sparse entries → (globals.physicalMemory.offered ⊆ available entries ↔
        ∀ e ∈ usable entries, e.block.cells ⊆ available entries ∪
          (pageHull symbols.kernelPhysicalAddress symbols.kernelPhysicalEnd ∪
            Set.Ico 0 0x100000))) ∧
      ∀ e ∈ usable entries, e.Low →
        (e.block.cells ⊆ e.range ↔ e.length < 4096 ∨ padding e.base ≤ e.length % 4096) := by
  refine ⟨_, parseMemoryMapTag_holds holds small symbols {}, ?_, ?_, fun e _ low => low.inside_iff⟩
  · intro inside a offered
    obtain ⟨e, member, cell⟩ := offered_blocks symbols entries offered
    exact inside e member cell
  · intro sparse
    simp only [sparse.offered placed, Set.sdiff_subset_iff]
    rw [Set.union_comm]
    constructor
    · intro all e member a cell
      exact all ⟨e, member, cell⟩
    · rintro each a ⟨e, member, cell⟩
      exact each e member cell

theorem usableType_lt : 1 < 2 ^ 32 := by
  decide

def unalignedEntry : Entry := ⟨0x40000800, 0x2800, 1, 0, by decide, usableType_lt⟩

/-- An entry that is not aligned but long enough. -/
theorem parseMemoryMapTag_sound_unaligned :
    ∃ globals, parseMemoryMapTag
      (fun a => (Tag.memoryMap 0 [unalignedEntry] [] (by decide)).bytes.getD a 0)
        sampleSymbols 0 {} = some globals ∧
      globals.physicalMemory.offered ⊆ available [unalignedEntry] := by
  obtain ⟨globals, parsed, sound, _, each⟩ := parseMemoryMapTag_sound
    (fun a => (Tag.memoryMap 0 [unalignedEntry] [] (by decide)).bytes.getD a 0) 0 0 [unalignedEntry]
    [] (by decide)
    sampleSymbols ⟨by decide, by decide⟩ (by decide +kernel) (by decide)
  refine ⟨globals, parsed, sound fun e member a cell => ⟨e, member, ?_⟩⟩
  obtain rfl : e = unalignedEntry := List.mem_singleton.mp member
  exact (each _ member (by decide)).mpr (by decide) cell

def shiftedEntry : Entry := ⟨0x40000FFF, 0x1000, 1, 0, by decide, usableType_lt⟩

/-- The block of an entry of one page is shifted beyond its end. -/
theorem shifted_not_available :
    ∃ globals, parseMemoryMapTag
      (fun a => (Tag.memoryMap 0 [shiftedEntry] [] (by decide)).bytes.getD a 0)
        sampleSymbols 0 {} = some globals ∧
      0x40001FFF ∈ globals.physicalMemory.offered ∧ 0x40001FFF ∉ available [shiftedEntry] := by
  have holds : Holds (fun a => (Tag.memoryMap 0 [shiftedEntry] [] (by decide)).bytes.getD a 0) 0
      (Tag.memoryMap 0 [shiftedEntry] [] (by decide)).bytes := by
    decide +kernel
  refine ⟨_, parseMemoryMapTag_holds holds (by decide) sampleSymbols {}, ?_, ?_⟩
  · have blocks : (reserveKernel sampleSymbols ([shiftedEntry].foldl Entry.add {})).blocks =
        [⟨0x40001000, 0x40002000⟩] := by
      decide +kernel
    refine ⟨⟨0x40001000, 0x40002000⟩, ?_, by decide, by decide⟩
    rw [blocks]
    exact List.mem_singleton_self _
  · rintro ⟨e, member, inside⟩
    obtain rfl : e = shiftedEntry := List.mem_singleton.mp member
    exact absurd inside.2 (by decide)

end Mykonos.Boot
