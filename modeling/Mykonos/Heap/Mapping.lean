import Mykonos.Heap.Release

/-! # Mapping a physical range and back

`mapAddress` rounds the physical range to pages, `unmapMemory` the virtual one. The
offset into the first page is the same on both sides, so the two agree on the
pages, and only a saturated virtual pool keeps a range from coming back.
-/

namespace Mykonos.Heap

open Lib Memory Paging

/-- The bytes behind the pointer are those of the physical range, and unmapping
    them leaves the pages, both pools and their alignment as they were; `t` is the
    machine in between. -/
structure Roundtrip (s t u : Machine) (physicalAddress n ptr : Nat) : Prop where
  offset : ptr % 4096 = physicalAddress % 4096
  bytes : ∀ k < n, ∃ frame, t.translate (ptr + k) = some frame ∧
    frame * 4096 + (ptr + k) % 4096 = physicalAddress + k
  pages : ∀ k, Outside k → u.walk k = s.walk k
  ranges : u.virtualMemory.free = s.virtualMemory.free
  frames : u.physicalMemory = t.physicalMemory
  aligned : u.virtualMemory.Aligned

section Mapping

variable {s t : Machine} {address n ptr : Nat} {cacheable : Bool}

/-- A range that shows consecutive frames from a physical page on. -/
structure Shown (s t : Machine) (ptr pages target : Nat) (cacheable : Bool) : Prop
    extends Acquires s t ptr pages where
  entries : ∀ j < pages, t.leaf (page ptr + j) = (target + j) * 4096 + leafFlags false cacheable

/-- What `mapAddress` has done when it returns a pointer, also for a range that ends where
    the address space does. -/
theorem mapAddress_shows (sane : Sane s) (low : address < 2 ^ 64) (ends : address + n ≤ 2 ^ 64)
    (fits : address % 4096 + n + 4095 < 2 ^ 64) (fed : Fed (mapAddress address n cacheable) s)
    (got : mapAddress address n cacheable s = .ok ptr t) (nonnull : ptr ≠ 0) :
    ∃ base, base ≠ 0 ∧ ptr = base + address % 4096 ∧
      Shown s t base (spanPages address n) (address / 4096) cacheable := by
  rcases mapAddress_pages sane (span_size_around low fits) fed with
    ⟨u, null, -⟩ | ⟨base, u, new, returned, start, acquired, rewritten, -⟩
  · rw [got] at null
    injection null with same
    exact absurd same nonnull
  · rw [got] at returned
    injection returned with pointer machine
    subst machine
    have small : address % 4096 < 4096 := Nat.mod_lt _ (by decide)
    have room := acquired.range.low
    refine ⟨base, start, ?_, acquired, fun j inside => ?_⟩
    · have aligned := acquired.range.aligned
      rw [pointer]
      exact Nat.mod_eq_of_lt (by omega)
    · have short :
          j < (mapEntries (pageAlignDown address) cacheable 0 (spanPages address n)).length := by
        simpa [mapEntries] using inside
      have target : addToPointer (pageAlignDown address) ((0 + j) * 4096) =
          (address / 4096 + j) * 4096 := by
        simp only [spanPages] at inside
        rw [addToPointer, pageAlignDown, Nat.zero_add, ← Nat.add_mul]
        exact Nat.mod_eq_of_lt (by omega)
      have low : (address / 4096 + j) * 4096 < 2 ^ 64 := target ▸ addToPointer_lt _ _
      rw [rewritten.leaf _ (acquired.range.outside inside), overlay_inside short]
      simp only [mapEntries, List.getElem_map, List.getElem_range, target]
      rw [leafEntry_eq low, Nat.mul_div_cancel _ (by decide)]

theorem mapAddress_returns (sane : Sane s) (bounded : address + n + 4095 < 2 ^ 64)
    (fed : Fed (mapAddress address n cacheable) s)
    (got : mapAddress address n cacheable s = .ok ptr t) (nonnull : ptr ≠ 0) :
    ∃ base, base ≠ 0 ∧ ptr = base + address % 4096 ∧
      Shown s t base (spanPages address n) (address / 4096) cacheable :=
  mapAddress_shows sane (by omega) (by omega) (by omega) fed got nonnull

theorem Shown.low {pages target : Nat} (h : Shown s t ptr pages target cacheable)
    (bounded : (target + pages) * 4096 < 2 ^ 64) {j : Nat} (inside : j < pages) :
    isPresent (t.leaf (page ptr + j)) = true ∧ isAllocated (t.leaf (page ptr + j)) = false ∧
    entryFrame (t.leaf (page ptr + j)) = target + j := by
  have fields := leafEntry_fields (show target + j < 2 ^ 52 by omega) false cacheable
  rw [h.entries j inside]
  exact ⟨fields.1, fields.2.1, fields.2.2.1⟩

/-- Every byte of the range translates to its counterpart. -/
theorem Shown.translates {pages target offset : Nat} (h : Shown s t ptr pages target cacheable)
    (bounded : (target + pages) * 4096 < 2 ^ 64) (inside : offset < pages * 4096) :
    t.translate (ptr + offset) = some (target + offset / 4096) := by
  have index : offset / 4096 < pages := by omega
  have aligned := h.range.aligned
  have here : page (ptr + offset) = page ptr + offset / 4096 := by
    rw [← h.range.page index, h.range.address index]
    simp only [page]
    omega
  obtain ⟨present, -, frame⟩ := h.low bounded index
  rw [translate_eq, here, child_some.mpr ⟨present, frame⟩]

end Mapping

/-- Mapping a physical range and unmapping it again changes nothing, and shows the
    right bytes in between, exactly when the virtual pool is not saturated while
    the range is out of it. -/
theorem mapAddress_roundtrip_iff {s t : Machine} {address n ptr : Nat} {cacheable : Bool}
    (sane : Sane s) (some : 0 < n) (bounded : address + n + 4095 < 2 ^ 64)
    (fed : Fed (mapAddress address n cacheable) s)
    (got : mapAddress address n cacheable s = .ok ptr t) (nonnull : ptr ≠ 0) :
    ∃ u, unmapMemory ptr n t = .ok () u ∧ (Roundtrip s t u address n ptr ↔
      ¬ t.virtualMemory.Saturated) := by
  obtain ⟨base, start, pointer, shown⟩ := mapAddress_returns sane bounded fed got nonnull
  have small : address % 4096 < 4096 := Nat.mod_lt _ (by decide)
  have span : (address % 4096 + n + 4095) / 4096 = spanPages address n := by
    simp only [spanPages]
    omega
  obtain ⟨u, unmapped, released⟩ := shown.toAcquires.unmapMemory start small span.le
  rw [← pointer] at unmapped
  rw [span] at released
  have positive : 0 < spanPages address n := by omega
  have limit : (address / 4096 + spanPages address n) * 4096 < 2 ^ 64 := by
    simp only [spanPages]
    omega
  have ranges := shown.toAcquires.ranges_iff released positive le_rfl
  refine ⟨u, unmapped, fun trip => (ranges.mp trip.ranges).2, fun room => ?_⟩
  refine ⟨?_, fun k inside => ?_,
    fun k outside => shown.toAcquires.walk_restored sane released outside,
    ranges.mpr ⟨rfl, room⟩, ?_, released.sane.pages⟩
  · have aligned := shown.range.aligned
    rw [pointer]
    omega
  · have aligned := shown.range.aligned
    refine ⟨address / 4096 + (address % 4096 + k) / 4096, ?_, ?_⟩
    · rw [pointer, Nat.add_assoc]
      exact shown.translates limit (by omega)
    · rw [pointer]
      omega
  · rw [released.physicalMemory, ownedFrames_plain fun j inside => (shown.low limit inside).2.1]
    rfl

/-- A device register block, mapped and unmapped on a fresh heap. -/
theorem device_roundtrip :
    ∃ u, unmapMemory 0xFFFF800000A00010 32
      ((mapAddress 0xFEC00010 32 false).after Session.freshMachine) = .ok () u ∧
      Roundtrip Session.freshMachine ((mapAddress 0xFEC00010 32 false).after Session.freshMachine)
        u 0xFEC00010 32
        0xFFFF800000A00010 := by
  have got : mapAddress 0xFEC00010 32 false Session.freshMachine =
      .ok 0xFFFF800000A00010 ((mapAddress 0xFEC00010 32 false).after Session.freshMachine) :=
    ok_of_value (by decide +kernel)
  have fed : Fed (mapAddress 0xFEC00010 32 false) Session.freshMachine :=
    show 0 ∉ _ by decide +kernel
  have ranges :
      ((mapAddress 0xFEC00010 32 false).after Session.freshMachine).virtualMemory.numBlocks =
        1 := by
    decide +kernel
  generalize (mapAddress 0xFEC00010 32 false).after Session.freshMachine = t at got ranges ⊢
  obtain ⟨u, unmapped, trip⟩ :=
    mapAddress_roundtrip_iff Session.freshMachine_initial.sound.sane (by decide)
    (by decide) fed got (by decide)
  refine ⟨u, unmapped, trip.mpr fun full => ?_⟩
  have := full.full
  rw [ranges] at this
  exact absurd this (by decide)

/-! ## A pool without frames for tables -/

/-- The upper tables of the heap exist, the physical pool is empty, and the free
    range starts in the last page of one lowest-level table. -/
def starvedMachine : Machine where
  memory frame word :=
    if frame = 1 ∧ word = 511 then 0x1003
    else if frame = 1 ∧ word = 256 then 0x2003
    else if frame = 2 ∧ word = 0 then 0x3003
    else 0
  cr3 := 1
  physicalMemory := ⟨[]⟩
  virtualMemory := ⟨[⟨0xFFFF800000BFF000, 0xFFFF800020A00000⟩]⟩

/-- Both missing tables are put into frame zero. Clearing the second wipes out the
    entry of the first page, whose bytes then translate to nothing. -/
theorem starved_mapping_lost :
    starvedMachine.virtualMemory.Aligned ∧
    (mapAddress 0x100000 8192 true).value starvedMachine = some 0xFFFF800000BFF000 ∧
    ∀ u, ¬ Roundtrip starvedMachine ((mapAddress 0x100000 8192 true).after starvedMachine)
      u 0x100000 8192
      0xFFFF800000BFF000 := by
  have lost : ((mapAddress 0x100000 8192 true).after starvedMachine).translate 0xFFFF800000BFF000 =
      none := by
    decide +kernel
  refine ⟨by simp [starvedMachine, BlockMap.Aligned, BlockMap.Ends], by decide +kernel,
    fun u trip => ?_⟩
  obtain ⟨frame, translated, -⟩ := trip.bytes 0 (by decide)
  rw [Nat.add_zero, lost] at translated
  exact absurd translated (by simp)

end Mykonos.Heap
