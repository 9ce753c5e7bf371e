import Mykonos.Heap.Loops

/-! # The calls of the heap

What each function of `kmalloc.cpp` does to a machine whose virtual ranges,
entries, tables and frames are in order. Failure by null leaves everything in
place; running out of frames stops the kernel.
-/

namespace Mykonos.Heap

open Lib Memory Paging

/-! ## Addresses of the heap -/

/-- The addresses of a range of pages. -/
def addresses (ptr pages : Nat) : Set Nat := Set.Ico ptr (ptr + pages * 4096)

/-- An address of the upper half below the recursive window. -/
def HeapAddress (a : Nat) : Prop := 0xFFFF800000000000 ≤ a ∧ a < pageTablePointer

/-- The pages of a heap range are those of its addresses. -/
theorem HeapRange.page_mem {ptr pages a : Nat} (h : HeapRange ptr pages) (heap : HeapAddress a) :
    Paging.page a ∈ Set.Ico (Paging.page ptr) (Paging.page ptr + pages) ↔
      a ∈ addresses ptr pages := by
  have aligned := h.aligned
  have above := h.above
  have below := h.below
  simp only [HeapAddress, Paging.page, addresses, Set.mem_Ico, pageTablePointer] at *
  rcases Nat.eq_zero_or_pos pages with rfl | positive
  · omega
  · have := above positive
    have := below positive
    omega

theorem HeapAddress.outside {a : Nat} (heap : HeapAddress a) : Outside (page a) := by
  simp only [HeapAddress, page, Outside, pageTablePointer] at *
  omega

/-! ## The virtual pool -/

/-- The pool is a table of whole pages of the heap. -/
structure HeapPool (vm : BlockMap) : Prop where
  ranges : vm.WellFormed
  pages : vm.Aligned
  heap : ∀ a ∈ vm.free, HeapAddress a

section Pool

variable {vm next : BlockMap} {base pages ptr size : Nat}

theorem HeapRange.bounded (range : HeapRange base pages) : base + pages * 4096 < 2 ^ 64 := by
  have low := range.low
  have below := range.below
  simp only [pageTablePointer] at below
  rcases Nat.eq_zero_or_pos pages with rfl | positive
  · omega
  · have := below positive
    omega

theorem HeapRange.heap {a : Nat} (range : HeapRange base pages)
    (inside : a ∈ addresses base pages) :
    HeapAddress a := by
  obtain ⟨low, high⟩ := inside
  have positive : 0 < pages := by
    rcases Nat.eq_zero_or_pos pages with rfl | positive
    · omega
    · exact positive
  exact ⟨(range.above positive).trans low, high.trans_le (range.below positive)⟩

/-- A granted range of whole pages is a heap range. -/
theorem HeapPool.granted (h : HeapPool vm) (granted : vm.Granted next ptr size)
    (aligned : ptr % 4096 = 0) (whole : size % 4096 = 0) : HeapRange ptr (size / 4096) := by
  refine ⟨aligned, (Nat.le_add_right _ _).trans_lt granted.bounded, fun some => ?_, fun some => ?_⟩
  · exact (h.heap ptr (granted.taken ⟨le_rfl, by omega⟩)).1
  · have last := (h.heap (ptr + size - 1) (granted.taken ⟨by omega, by omega⟩)).2
    simp only [pageTablePointer] at *
    omega

/-- What taking whole pages out of the pool does: nothing, or a heap range leaves. -/
theorem HeapPool.allocate (h : HeapPool vm) (whole : size % 4096 = 0) :
    vm.allocate size = (0, vm) ∨
    vm.Granted (vm.allocate size).2 (vm.allocate size).1 size ∧
      HeapRange (vm.allocate size).1 (size / 4096) ∧ HeapPool (vm.allocate size).2 := by
  rcases BlockMap.allocate_spec h.ranges size with ⟨-, same⟩ | ⟨⟨c, member, start, -⟩, granted⟩
  · exact .inl same
  · have aligned := (h.pages c member).1
    rw [← start] at aligned
    refine .inr ⟨granted, h.granted granted aligned whole, granted.wellFormed,
      BlockMap.allocate_aligned h.ranges.toTidy h.pages whole, fun a held => h.heap a ?_⟩
    rw [granted.free] at held
    exact held.1

/-- What putting a heap range back does, as far as the pool takes it. -/
theorem HeapPool.refill (h : HeapPool vm) (range : HeapRange base pages)
    (apart : Disjoint (addresses base pages) vm.free)
    (added : next = vm.addBlock ⟨base, base + pages * 4096⟩) :
    HeapPool next ∧ next.free ⊆ vm.free ∪ addresses base pages := by
  have block : (⟨base, base + pages * 4096⟩ : Block).WellFormed :=
    ⟨Nat.le_add_right _ _, range.bounded⟩
  have ends : base % 4096 = 0 ∧ (base + pages * 4096) % 4096 = 0 := by
    have := range.aligned
    omega
  have ranges := BlockMap.addBlock_wellFormed h.ranges block apart
  have aligned := BlockMap.addBlock_aligned (b := ⟨base, base + pages * 4096⟩) h.pages ends
  have free := BlockMap.addBlock_free_subset h.ranges.toTidy block
  rw [← added] at ranges aligned free
  exact ⟨⟨ranges, aligned, fun a held => (free held).elim (h.heap a) range.heap⟩, free⟩

theorem returnMemory_range (vm : BlockMap) (range : HeapRange base pages) :
    vm.returnMemory base (pages * 4096) = vm.addBlock ⟨base, base + pages * 4096⟩ := by
  rw [BlockMap.returnMemory, Nat.mod_eq_of_lt range.bounded]

end Pool

/-! ## Machines in order -/

/-- Frames are kept apart, the virtual pool is a set of heap pages, and no free
    page is mapped. -/
structure Sane (s : Machine) : Prop extends Owned s where
  ranges : s.virtualMemory.WellFormed
  pages : s.virtualMemory.Aligned
  heap : ∀ a ∈ s.virtualMemory.free, HeapAddress a
  unmapped : ∀ a ∈ s.virtualMemory.free, isPresent (s.leaf (page a)) = false

section Virtual

variable {s t : Machine}

/-- Taking ranges out of the virtual pool. -/
theorem Sane.shrink (h : Sane s) {vm : BlockMap} (ranges : vm.WellFormed) (pages : vm.Aligned)
    (fewer : vm.free ⊆ s.virtualMemory.free) : Sane { s with virtualMemory := vm } where
  tree := ⟨h.tree.loop, h.tree.unique⟩
  wellFormed := h.wellFormed
  aligned := h.aligned
  tables := h.tables
  held n outside owns := ⟨(h.held n outside owns).bounded, (h.held n outside owns).notTable,
    (h.held n outside owns).notFree⟩
  exclusive := h.exclusive
  ranges := ranges
  pages := pages
  heap a free := h.heap a (fewer free)
  unmapped a free := h.unmapped a (fewer free)

/-- Editing pages that are not in the virtual pool. -/
theorem Sane.preserves (h : Sane s) {pages : Set Nat} (preserved : Preserves s t pages)
    (apart : ∀ a ∈ s.virtualMemory.free, page a ∉ pages) : Sane t where
  toOwned := preserved.owned
  ranges := preserved.virtualMemory ▸ h.ranges
  pages := preserved.virtualMemory ▸ h.pages
  heap := preserved.virtualMemory ▸ h.heap
  unmapped a free := by
    rw [preserved.virtualMemory] at free
    rw [preserved.leaf _ (h.heap a free).outside (apart a free)]
    exact h.unmapped a free

theorem Sane.pool (h : Sane s) : HeapPool s.virtualMemory := ⟨h.ranges, h.pages, h.heap⟩

theorem virtualAllocate_spec (h : Sane s) {size : Nat} (whole : size % 4096 = 0) :
    ∃ ptr vm, virtualAllocate size s = .ok ptr { s with virtualMemory := vm } ∧
      Sane { s with virtualMemory := vm } ∧
      (ptr = 0 ∧ vm = s.virtualMemory ∨ s.virtualMemory.Granted vm ptr size ∧
        HeapRange ptr (size / 4096)) := by
  refine ⟨(s.virtualMemory.allocate size).1, (s.virtualMemory.allocate size).2, rfl, ?_⟩
  rcases h.pool.allocate whole with same | ⟨granted, range, pool⟩
  · rw [same]
    exact ⟨h, .inl ⟨rfl, rfl⟩⟩
  · refine ⟨h.shrink pool.ranges pool.pages ?_, .inr ⟨granted, range⟩⟩
    exact granted.free.subset.trans Set.sdiff_subset

/-- Null is returned for want of a block that is large enough, and for nothing else. -/
theorem virtualAllocate_null_iff (h : Sane s) {size ptr : Nat} (some : 0 < size)
    (allocated : virtualAllocate size s = .ok ptr t) :
    ptr = 0 ↔ ∀ b ∈ s.virtualMemory.blocks, b.capacity < size := by
  injection allocated with pointer _
  rcases BlockMap.allocate_spec h.ranges size with ⟨small, same⟩ | ⟨⟨c, member, -, fit⟩, granted⟩
  · rw [same] at pointer
    exact ⟨fun _ => small, fun _ => pointer.symm⟩
  · rw [pointer] at granted
    refine ⟨fun null => ?_, fun small => absurd (small c member) (Nat.not_lt.mpr fit)⟩
    have heap := (h.heap ptr (granted.taken ⟨le_rfl, Nat.lt_add_of_pos_right some⟩)).1
    rw [null] at heap
    exact absurd heap (by decide)

end Virtual

/-! ## Acquiring a range -/

/-- A range has left the virtual pool, and only its pages have been edited. -/
structure Acquires (s t : Machine) (ptr pages : Nat) : Prop where
  sane : Sane t
  range : HeapRange ptr pages
  taken : addresses ptr pages ⊆ s.virtualMemory.free
  free : t.virtualMemory.free = s.virtualMemory.free \ addresses ptr pages
  leaf : ∀ k, Outside k → k ∉ Set.Ico (page ptr) (page ptr + pages) → t.leaf k = s.leaf k
  memory : ∀ k, Outside k → k ∉ Set.Ico (page ptr) (page ptr + pages) →
    isAllocated (s.leaf k) = true →
    t.memory (entryFrame (s.leaf k)) = s.memory (entryFrame (s.leaf k))

/-- A range backed by frames. -/
structure Allocated (s t : Machine) (ptr pages : Nat) (data : List Nat) (new : Set Nat) : Prop
    extends Acquires s t ptr pages where
  backed : BackedAll { s with virtualMemory := t.virtualMemory } t (page ptr) data new
  count : data.length = pages

section Acquire

variable {s t : Machine} {ptr size : Nat}

theorem pageAlignUp_whole (x : Nat) : pageAlignUp x % 4096 = 0 := Nat.mul_mod_left _ _

theorem acquires_nothing (h : Sane s) : Acquires s s 0 0 :=
  ⟨h, ⟨rfl, by decide, by simp, by simp⟩, by simp [addresses], by simp [addresses],
    fun _ _ _ => rfl, fun _ _ _ _ => rfl⟩

theorem addresses_of_size (ptr : Nat) {size : Nat} (whole : size % 4096 = 0) :
    addresses ptr (size / 4096) = Set.Ico ptr (ptr + size) := by
  rw [addresses, Nat.div_mul_cancel (Nat.dvd_of_mod_eq_zero whole)]

theorem acquires_of_preserves {vm : BlockMap} (h : Sane { s with virtualMemory := vm })
    (whole : size % 4096 = 0) (granted : s.virtualMemory.Granted vm ptr size)
    (range : HeapRange ptr (size / 4096)) (preserved : Preserves { s with virtualMemory := vm } t
      (Set.Ico (page ptr) (page ptr + size / 4096))) : Acquires s t ptr (size / 4096) := by
  have area := addresses_of_size ptr whole
  refine ⟨h.preserves preserved fun a free inside => ?_, range, area ▸ granted.taken, ?_,
    preserved.leaf, preserved.memory⟩
  · have heap := h.heap a free
    rw [range.page_mem heap, area] at inside
    exact (granted.free.subset free).2 inside
  · rw [preserved.virtualMemory, area]
    exact granted.free

/-- Only an empty range can be granted at address zero. -/
theorem acquires_null {vm : BlockMap} (h : Sane { s with virtualMemory := vm })
    (whole : size % 4096 = 0) (granted : s.virtualMemory.Granted vm 0 size)
    (range : HeapRange 0 (size / 4096)) :
    Acquires s { s with virtualMemory := vm } 0 0 := by
  have empty : size / 4096 = 0 := by
    by_contra some
    have := range.above (Nat.pos_of_ne_zero some)
    omega
  have acquired := acquires_of_preserves h whole granted range (.refl h.toOwned _)
  rwa [empty] at acquired

/-- An allocation that returns null has taken nothing. -/
theorem acquires_refused {vm : BlockMap} (h : Sane s) (sane : Sane { s with virtualMemory := vm })
    (whole : size % 4096 = 0)
    (outcome : ptr = 0 ∧ vm = s.virtualMemory ∨ s.virtualMemory.Granted vm ptr size ∧
      HeapRange ptr (size / 4096))
    (null : ptr = 0) : Acquires s { s with virtualMemory := vm } 0 0 := by
  rcases outcome with ⟨-, rfl⟩ | ⟨granted, range⟩
  · exact acquires_nothing h
  · rw [null] at granted range
    exact acquires_null sane whole granted range

/-- The specification of `allocateMemory`: null, a backed range, or a panic. -/
theorem allocateMemory_spec {n : Nat} (h : Sane s) (fed : Fed (allocateMemory n) s)
    (total : size = pageAlignUp ((n + headerSize) % 2 ^ 64)) :
    (∃ t, allocateMemory n s = .ok 0 t ∧ Acquires s t 0 0) ∨
    (∃ ptr t data new, allocateMemory n s = .ok ptr t ∧ ptr ≠ 0 ∧
      Allocated s t ptr (size / 4096) data new) ∨
    ∃ ptr t, allocateMemory n s = .error (.kpanic "Out of memory") t ∧
    Acquires s t ptr (size / 4096) := by
  have whole : size % 4096 = 0 := total ▸ pageAlignUp_whole _
  obtain ⟨ptr, vm, allocated, sane, outcome⟩ := virtualAllocate_spec h whole
  have start : allocateMemory n s = (if ptr = 0 then pure 0 else do
      forPages (allocateMemoryBody ptr) (size / pageSize) 0
      pure ptr : Kernel Nat) { s with virtualMemory := vm } := by
    subst total
    exact bind_ok allocated _
  by_cases null : ptr = 0
  · left
    refine ⟨{ s with virtualMemory := vm }, by rw [start, null]; rfl,
      acquires_refused h sane whole outcome null⟩
  · right
    obtain ⟨granted, range⟩ := outcome.resolve_left fun failed => null failed.1
    simp only [null, if_false] at start
    have loop : Fed (forPages (allocateMemoryBody ptr) (size / 4096) (0 * 4096))
        { s with virtualMemory := vm } := by
      rw [Fed, Kernel.after, start] at fed
      rw [Nat.zero_mul]
      exact Fed.first fed fun _ => .of_same fun _ => rfl
    rcases forPages_backs range (Nat.zero_add _) sane.toOwned loop with
      ⟨t, data, new, looped, count, backed⟩ | ⟨t, stopped, preserved⟩
    · left
      have preserved := backed.preserves sane.toOwned
      rw [count, Nat.add_zero] at preserved
      refine ⟨ptr, t, data, new, ?_, null,
        acquires_of_preserves sane whole granted range preserved, ?_, count⟩
      · rw [Nat.zero_mul] at looped
        exact start.trans (bind_ok looped _)
      · rw [preserved.virtualMemory]
        exact backed
    · right
      refine ⟨ptr, t, ?_, acquires_of_preserves sane whole granted range preserved⟩
      rw [Nat.zero_mul] at stopped
      exact start.trans (bind_error stopped _)

/-- What `allocateMemory` has done when it returns a pointer. -/
theorem allocateMemory_returns {n : Nat} (h : Sane s) (fed : Fed (allocateMemory n) s)
    (got : allocateMemory n s = .ok ptr t) (nonnull : ptr ≠ 0) :
    ∃ data new, Allocated s t ptr (pageAlignUp ((n + headerSize) % 2 ^ 64) / 4096) data new := by
  rcases allocateMemory_spec h fed rfl with ⟨u, null, -⟩ |
    ⟨base, u, data, new, returned, -, allocated⟩ |
    ⟨base, u, stopped, -⟩
  · rw [got] at null
    injection null with same
    exact absurd same nonnull
  · rw [got] at returned
    injection returned with pointer machine
    subst pointer machine
    exact ⟨data, new, allocated⟩
  · rw [got] at stopped
    exact nomatch stopped

/-- How many pages the bytes from an address on touch. -/
def spanPages (address size : Nat) : Nat := (address + size + 4095) / 4096 - address / 4096

/-- Both roundings together, as `mapAddress` and `unmapMemory` form them. The range may go
    around the end of the address space. -/
theorem span_size_around {address n : Nat} (bounded : address < 2 ^ 64)
    (fits : address % 4096 + n + 4095 < 2 ^ 64) :
    (pageAlignUp ((address + n) % 2 ^ 64) + 2 ^ 64 - pageAlignDown address) % 2 ^ 64 =
      spanPages address n * 4096 := by
  simp only [pageAlignUp, pageAlignDown, spanPages]
  omega

theorem span_size {address n : Nat} (bounded : address + n + 4095 < 2 ^ 64) :
    (pageAlignUp ((address + n) % 2 ^ 64) + 2 ^ 64 - pageAlignDown address) % 2 ^ 64 =
      spanPages address n * 4096 :=
  span_size_around (by omega) (by omega)

/-- `mapAddress` once the virtual range has been asked for. -/
theorem mapAddress_start {address n pages : Nat} (cacheable : Bool)
    (size : (pageAlignUp ((address + n) % 2 ^ 64) + 2 ^ 64 - pageAlignDown address) % 2 ^ 64 =
      pages * 4096)
    (allocated : virtualAllocate (pages * 4096) s = .ok ptr t) :
    mapAddress address n cacheable s = (if ptr = 0 then pure 0 else do
      forPages (mapAddressBody ptr (pageAlignDown address) cacheable) pages 0
      pure (addToPointer ptr (address % pageSize)) : Kernel Nat) t := by
  simp only [mapAddress, size, pageSize, Nat.mul_div_cancel pages (show 0 < 4096 by decide)]
  exact bind_ok allocated _

/-- The specification of `mapAddress`: null, or the pages of the physical range, which
    may go around the end of the address space. -/
theorem mapAddress_pages {address n pages : Nat} {cacheable : Bool} (h : Sane s)
    (size : (pageAlignUp ((address + n) % 2 ^ 64) + 2 ^ 64 - pageAlignDown address) % 2 ^ 64 =
      pages * 4096)
    (fed : Fed (mapAddress address n cacheable) s) :
    (∃ t, mapAddress address n cacheable s = .ok 0 t ∧ Acquires s t 0 0) ∨
    ∃ ptr t new, mapAddress address n cacheable s =
      .ok (addToPointer ptr (address % 4096)) t ∧ ptr ≠ 0 ∧
      Acquires s t ptr pages ∧
      Rewritten { s with virtualMemory := t.virtualMemory } t (page ptr)
        (mapEntries (pageAlignDown address) cacheable 0 pages) new ∧
      Withdrawn s.physicalMemory t.physicalMemory new := by
  have whole : pages * 4096 % 4096 = 0 := Nat.mul_mod_left _ _
  have count : pages * 4096 / 4096 = pages := Nat.mul_div_cancel _ (by decide)
  obtain ⟨ptr, vm, allocated, sane, outcome⟩ := virtualAllocate_spec h whole
  have start := mapAddress_start cacheable size allocated
  by_cases null : ptr = 0
  · left
    refine ⟨{ s with virtualMemory := vm }, by rw [start, null]; rfl,
      acquires_refused h sane whole outcome null⟩
  · right
    obtain ⟨granted, range⟩ := outcome.resolve_left fun failed => null failed.1
    simp only [null, if_false] at start
    rw [count] at range
    have loop : Fed (forPages (mapAddressBody ptr (pageAlignDown address) cacheable) pages
        (0 * 4096)) { s with virtualMemory := vm } := by
      rw [Fed, Kernel.after, start] at fed
      rw [Nat.zero_mul]
      exact Fed.first fed fun _ => .of_same fun _ => rfl
    obtain ⟨t, new, looped, rewritten, withdrawn, owned⟩ :=
      forPages_maps range (Nat.zero_add _) sane.toOwned loop
    have preserved := rewritten.preserves sane.toOwned owned withdrawn.taken
    rw [mapEntries, List.length_map, List.length_range, Nat.add_zero, ← count] at preserved
    have acquired := acquires_of_preserves sane whole granted (count.symm ▸ range) preserved
    rw [count] at acquired
    refine ⟨ptr, t, new, ?_, null, acquired, ?_, withdrawn⟩
    · rw [Nat.zero_mul] at looped
      exact start.trans (bind_ok looped _)
    · rw [preserved.virtualMemory]
      exact rewritten

/-- The same for a range that does not go around. -/
theorem mapAddress_spec {address n : Nat} {cacheable : Bool} (h : Sane s)
    (bounded : address + n + 4095 < 2 ^ 64) (fed : Fed (mapAddress address n cacheable) s) :
    (∃ t, mapAddress address n cacheable s = .ok 0 t ∧ Acquires s t 0 0) ∨
    ∃ ptr t new, mapAddress address n cacheable s =
      .ok (addToPointer ptr (address % 4096)) t ∧ ptr ≠ 0 ∧
      Acquires s t ptr (spanPages address n) ∧
      Rewritten { s with virtualMemory := t.virtualMemory } t (page ptr)
        (mapEntries (pageAlignDown address) cacheable 0 (spanPages address n)) new ∧
      Withdrawn s.physicalMemory t.physicalMemory new :=
  mapAddress_pages h (span_size bounded) fed

/-- `mapAddress` returns null exactly when no block of the virtual pool has room. -/
theorem mapAddress_null_iff {address n pages : Nat} (cacheable : Bool) (h : Sane s)
    (some : 0 < pages)
    (size : (pageAlignUp ((address + n) % 2 ^ 64) + 2 ^ 64 - pageAlignDown address) % 2 ^ 64 =
      pages * 4096) :
    (∃ t, mapAddress address n cacheable s = .ok 0 t) ↔
      ∀ b ∈ s.virtualMemory.blocks, b.capacity < pages * 4096 := by
  obtain ⟨ptr, vm, allocated, -, outcome⟩ := virtualAllocate_spec h (Nat.mul_mod_left pages 4096)
  rw [← virtualAllocate_null_iff h (by omega) allocated, mapAddress_start cacheable size allocated]
  constructor
  · rintro ⟨t, returned⟩
    by_contra nonnull
    obtain ⟨-, range⟩ := outcome.resolve_left fun failed => nonnull failed.1
    rw [Nat.mul_div_cancel _ (by decide)] at range
    have above := range.above some
    have below := range.below some
    have aligned := range.aligned
    rw [if_neg nonnull] at returned
    cases looped : forPages (mapAddressBody ptr (pageAlignDown address) cacheable) pages 0
        { s with virtualMemory := vm } with
    | error fault u =>
        rw [bind_error looped] at returned
        exact nomatch returned
    | ok _ u =>
        rw [bind_ok looped] at returned
        injection returned with null _
        simp only [addToPointer, pageSize, pageTablePointer] at null below
        omega
  · intro null
    exact ⟨_, by rw [if_pos null]; rfl⟩

end Acquire

/-! ## Releasing a range -/

/-- The pages of a range are unmapped, their frames are back in the pool and the
    range is back in the virtual pool, as far as the two pools took them. -/
structure Releases (s t : Machine) (base pages : Nat) : Prop where
  sane : Sane t
  virtualMemory : t.virtualMemory = s.virtualMemory.addBlock ⟨base, base + pages * 4096⟩
  physicalMemory :
    t.physicalMemory = returnFrames s.physicalMemory (ownedFrames s.leaf (page base) pages)
  inside : ∀ k, Outside k → k ∈ Set.Ico (page base) (page base + pages) → t.leaf k = 0
  leaf : ∀ k, Outside k → k ∉ Set.Ico (page base) (page base + pages) → t.leaf k = s.leaf k
  memory : ∀ k, Outside k → k ∉ Set.Ico (page base) (page base + pages) →
    isAllocated (s.leaf k) = true →
    t.memory (entryFrame (s.leaf k)) = s.memory (entryFrame (s.leaf k))
  isTable : ∀ frame, t.IsTable frame ↔ s.IsTable frame
  log : t.tableFrames = s.tableFrames

section Release

variable {s : Machine}

/-- Putting an unmapped range back into the virtual pool. -/
theorem Sane.refill (h : Sane s) {base pages : Nat} (range : HeapRange base pages)
    (apart : Disjoint (addresses base pages) s.virtualMemory.free)
    (unmapped : ∀ k, Outside k → k ∈ Set.Ico (page base) (page base + pages) →
      isPresent (s.leaf k) = false)
    {vm : BlockMap} (added : vm = s.virtualMemory.addBlock ⟨base, base + pages * 4096⟩) :
    virtualReturn base (pages * 4096) s = .ok () { s with virtualMemory := vm } ∧
    Sane { s with virtualMemory := vm } := by
  obtain ⟨pool, free⟩ := h.pool.refill range apart added
  refine ⟨by rw [virtualReturn, returnMemory_range _ range, added], ?_⟩
  refine ⟨⟨⟨⟨h.tree.loop, h.tree.unique⟩, h.wellFormed, h.aligned, h.tables⟩,
    fun n outside owns => ?_, h.exclusive⟩, pool.ranges, pool.pages, pool.heap, fun a held => ?_⟩
  · have hidden := h.held n outside owns
    exact ⟨hidden.bounded, hidden.notTable, hidden.notFree⟩
  · rcases free held with old | new
    · exact h.unmapped a old
    · have heap := range.heap new
      exact unmapped _ heap.outside ((range.page_mem heap).mpr new)

/-- The specification of `unmapMemory` on a range that is not free. -/
theorem unmapMemory_spec {address n : Nat} (h : Sane s) (nonnull : address ≠ 0)
    (bounded : address + n + 4095 < 2 ^ 64)
    (range : HeapRange (pageAlignDown address) (spanPages address n))
    (apart : Disjoint (addresses (pageAlignDown address) (spanPages address n))
      s.virtualMemory.free) :
    ∃ t, unmapMemory address n s = .ok () t ∧
    Releases s t (pageAlignDown address) (spanPages address n) := by
  have start := congrFun (unmapMemory_eq nonnull (span_size bounded)) s
  obtain ⟨mid, looped, rewritten, owned, log, pool⟩ :=
    forPages_unmaps range (Nat.zero_add _) h.toOwned
  rw [Nat.zero_mul] at looped
  rw [Nat.add_zero] at rewritten pool
  have preserved := rewritten.preserves h.toOwned owned (by simp)
  rw [List.length_replicate] at preserved
  have sane : Sane mid := h.preserves preserved fun a free inside =>
    Set.disjoint_left.mp apart ((range.page_mem (h.heap a free)).mp inside) free
  have cleared : ∀ k, Outside k → k ∈ Set.Ico (page (pageAlignDown address))
      (page (pageAlignDown address) + spanPages address n) → mid.leaf k = 0 := by
    intro k outside inside
    obtain ⟨d, rfl⟩ :
        ∃ d, k = page (pageAlignDown address) + d := ⟨k - page (pageAlignDown address), by
      have := inside.1
      omega⟩
    have short : d < (List.replicate (spanPages address n) 0).length := by
      rw [List.length_replicate]
      have := inside.2
      omega
    rw [rewritten.leaf _ outside, overlay_inside short, List.getElem_replicate]
  obtain ⟨vm, added⟩ : ∃ vm, vm = mid.virtualMemory.addBlock
    ⟨pageAlignDown address, pageAlignDown address + spanPages address n * 4096⟩ := ⟨_, rfl⟩
  obtain ⟨returned, final⟩ := sane.refill range (preserved.virtualMemory ▸ apart)
      (fun k outside inside => by
    rw [cleared k outside inside]
    decide) added
  rw [preserved.virtualMemory] at added
  refine ⟨_, start.trans ((bind_ok looped _).trans returned), final, added, pool, cleared,
    preserved.leaf, preserved.memory, fun frame => ?_, log⟩
  rw [← or_false (s.IsTable frame)]
  exact rewritten.isTable frame

end Release

/-! ## The header of a block -/

section Header

variable {s t : Machine} {frame : Nat}

theorem tableAt_write_data (unused : ¬ s.IsTable frame) (i value : Nat) {path : List Nat}
    (allowed : TablePath path) :
    (s.write frame i value).tableAt path = s.tableAt path := by
  refine descend_congr (P := TablePath) TablePath.shorter (fun p j node longer found => ?_) allowed
  have different : node ≠ frame :=
    fun same => unused ⟨p, TablePath.shorter p j longer, same ▸ found⟩
  simp only [Machine.write, Function.update_of_ne different]

theorem isTable_write_data (unused : ¬ s.IsTable frame) (i value table : Nat) :
    (s.write frame i value).IsTable table ↔ s.IsTable table :=
  exists_congr fun path => and_congr_right
    fun allowed => by rw [tableAt_write_data unused i value allowed]

theorem leaf_write_data (unused : ¬ s.IsTable frame) (i value : Nat) {k : Nat}
    (outside : Outside k) :
    (s.write frame i value).leaf k = s.leaf k := by
  have allowed := leafPath_allowed outside
  have same := tableAt_write_data unused i value allowed
  cases found : s.tableAt (leafPath k) with
  | none => rw [Machine.leaf, Machine.leaf, Machine.slot_of_none (same.trans found),
      Machine.slot_of_none found]
  | some table =>
      have different : table ≠ frame := fun here => unused ⟨_, allowed, here ▸ found⟩
      rw [Machine.leaf, Machine.leaf, Machine.slot_of_table (same.trans found),
        Machine.slot_of_table found]
      simp only [Machine.write, Function.update_of_ne different]

/-- Data can be written without touching the tables. -/
theorem Owned.write (h : Owned s) (unused : ¬ s.IsTable frame) (i value : Nat) :
    Owned (s.write frame i value) := by
  have tables := isTable_write_data unused i value
  have root : s.cr3 ≠ frame := fun same => unused ⟨[], .nil, congrArg some same⟩
  refine ⟨⟨⟨?_, fun path other table hp ho => ?_⟩, h.wellFormed, h.aligned, fun table used =>
    h.tables table ((tables table).mp used)⟩, fun k outside owns => ?_,
      fun k j hk hj ownk ownj same => ?_⟩
  · simp only [Machine.write, Function.update_of_ne root]
    exact h.tree.loop
  · rw [tableAt_write_data unused i value hp, tableAt_write_data unused i value ho]
    exact h.tree.unique path other table hp ho
  · rw [leaf_write_data unused i value outside] at owns ⊢
    have hidden := h.held k outside owns
    exact ⟨hidden.bounded, fun used => hidden.notTable ((tables _).mp used), hidden.notFree⟩
  · rw [leaf_write_data unused i value hk] at ownk same
    rw [leaf_write_data unused i value hj] at ownj same
    exact h.exclusive k j hk hj ownk ownj same

theorem Sane.write (h : Sane s) (unused : ¬ s.IsTable frame) (i value : Nat) :
    Sane (s.write frame i value) := by
  refine ⟨h.toOwned.write unused i value, h.ranges, h.pages, h.heap, fun a free => ?_⟩
  rw [leaf_write_data unused i value (h.heap a free).outside]
  exact h.unmapped a free

/-- The header goes into the frame of the first page of the new range. -/
theorem Acquires.write {ptr pages : Nat} (h : Acquires s t ptr pages) (some : 0 < pages)
    (owns : isAllocated (t.leaf (page ptr)) = true) (value : Nat) :
    Acquires s (t.write (entryFrame (t.leaf (page ptr))) 0 value) ptr pages := by
  have first : Outside (page ptr) := h.range.outside some
  have unused := (h.sane.held _ first owns).notTable
  refine ⟨h.sane.write unused 0 value, h.range, h.taken, h.free, fun k outside apart => ?_,
    fun k outside apart held => ?_⟩
  · rw [leaf_write_data unused 0 value outside, h.leaf k outside apart]
  · have same := h.leaf k outside apart
    have different : entryFrame (s.leaf k) ≠ entryFrame (t.leaf (page ptr)) := fun shared => by
      have here := h.sane.exclusive k (page ptr) outside first (by rwa [same]) owns (by rwa [same])
      exact apart ⟨here.ge, by omega⟩
    simp only [Machine.write, Function.update_of_ne different]
    exact h.memory k outside apart held

theorem Allocated.leaf_eq {ptr pages j : Nat} {data : List Nat} {new : Set Nat}
    (h : Allocated s t ptr pages data new) (inside : j < data.length) :
    t.leaf (page ptr + j) = dataEntry data[j] := by
  have short : j < (data.map dataEntry).length := by rwa [List.length_map]
  rw [h.backed.rewritten.leaf _ (h.range.outside (h.count ▸ inside)), overlay_inside short,
    List.getElem_map]

theorem Allocated.bounded {ptr pages : Nat} {data : List Nat} {new : Set Nat}
    (h : Allocated s t ptr pages data new) {f : Nat} (member : f ∈ data) : f < 2 ^ 52 :=
  h.backed.withdrawn.frame_lt (.inl member)

/-- The first page of a backed range is mapped to a frame of its own. -/
theorem Allocated.first {ptr pages : Nat} {data : List Nat} {new : Set Nat}
    (h : Allocated s t ptr pages data new) (some : 0 < pages) :
    isPresent (t.leaf (page ptr)) = true ∧ isAllocated (t.leaf (page ptr)) = true := by
  have inside : 0 < data.length := h.count ▸ some
  have entry := h.leaf_eq inside
  obtain ⟨present, owns, -⟩ := dataEntry_fields (h.bounded (List.getElem_mem inside))
  rw [Nat.add_zero] at entry
  rw [entry]
  exact ⟨present, owns⟩

theorem word_of_aligned {ptr : Nat} (aligned : ptr % 4096 = 0) : ptr % 4096 / 8 = 0 := by
  rw [aligned]

theorem pageAlignUp_request {n : Nat} (small : n + 4103 < 2 ^ 64) :
    pageAlignUp ((n + headerSize) % 2 ^ 64) / 4096 = (n + 4103) / 4096 := by
  have first : (n + headerSize) % 2 ^ 64 = n + 8 := Nat.mod_eq_of_lt (show n + 8 < 2 ^ 64 by omega)
  have second : (n + 8 + 4095) % 2 ^ 64 = n + 4103 := Nat.mod_eq_of_lt (by omega)
  rw [first, pageAlignUp, second, Nat.mul_div_cancel _ (by decide)]

/-- The specification of `kmalloc` for a size that does not overflow. -/
theorem kmalloc_spec {n : Nat} (h : Sane s) (small : n + 4103 < 2 ^ 64) (fed : Fed (kmalloc n) s) :
    (∃ t, kmalloc n s = .ok 0 t ∧ Acquires s t 0 0) ∨
    (∃ ptr t data new, kmalloc n s = .ok (ptr + 8) (t.write (entryFrame (t.leaf (page ptr))) 0 n) ∧
      Allocated s t ptr ((n + 4103) / 4096) data new) ∨
    ∃ ptr t, kmalloc n s = .error (.kpanic "Out of memory") t ∧
    Acquires s t ptr ((n + 4103) / 4096) := by
  have early : Fed (allocateMemory n) s := Fed.first fed fun ptr =>
    .of_draws (.ite (.pure 0) ((Draws.store ptr n).bind fun _ => .pure _))
  rcases allocateMemory_spec h early rfl with ⟨t, null, acquired⟩ |
    ⟨ptr, t, data, new, got, nonnull, allocated⟩ |
    ⟨ptr, t, stopped, acquired⟩
  · exact .inl ⟨t, bind_ok null _, acquired⟩
  · right; left
    rw [pageAlignUp_request small] at allocated
    have some : 0 < (n + 4103) / 4096 := by omega
    obtain ⟨present, -⟩ := allocated.first some
    have storing := store_ok ((translate_eq t ptr).trans (child_some.mpr ⟨present, rfl⟩)) n
    rw [word_of_aligned allocated.range.aligned] at storing
    have sum : addToPointer ptr headerSize = ptr + 8 := by
      have below := allocated.range.below some
      simp only [pageTablePointer] at below
      exact Nat.mod_eq_of_lt (show ptr + 8 < 2 ^ 64 by omega)
    refine ⟨ptr, t, data, new, (bind_ok got _).trans ?_, allocated⟩
    rw [if_neg nonnull, ← sum]
    exact bind_ok storing _
  · rw [pageAlignUp_request small] at acquired
    exact .inr (.inr ⟨ptr, t, bind_error stopped _, acquired⟩)

/-- What `kmalloc` has done when it returns a pointer. -/
theorem kmalloc_returns {n ptr : Nat} (h : Sane s) (small : n + 4103 < 2 ^ 64)
    (fed : Fed (kmalloc n) s) (got : kmalloc n s = .ok ptr t) (nonnull : ptr ≠ 0) :
    ∃ base u data new, ptr = base + 8 ∧ t = u.write (entryFrame (u.leaf (page base))) 0 n ∧
      Allocated s u base ((n + 4103) / 4096) data new := by
  rcases kmalloc_spec h small fed with ⟨u, null, -⟩ | ⟨base, u, data, new, returned, allocated⟩ |
    ⟨base, u, stopped, -⟩
  · rw [got] at null
    injection null with same
    exact absurd same nonnull
  · rw [got] at returned
    injection returned with pointer machine
    exact ⟨base, u, data, new, pointer, machine, allocated⟩
  · rw [got] at stopped
    exact nomatch stopped

/-- `kfree` releases as many bytes as the header says. -/
theorem kfree_spec {base : Nat} (range : base % 4096 = 0) (low : base + 8 < 2 ^ 64)
    (present : isPresent (s.leaf (page base)) = true) :
    kfree (base + 8) s = unmapMemory base (s.memory (entryFrame (s.leaf (page base))) 0) s := by
  have loading := load_ok ((translate_eq s base).trans (child_some.mpr ⟨present, rfl⟩))
  rw [word_of_aligned range] at loading
  have header : (base + 8 + 2 ^ 64 - headerSize) % 2 ^ 64 = base := by
    have : base + 8 + 2 ^ 64 - headerSize = base + 2 ^ 64 :=
      show base + 8 + 2 ^ 64 - 8 = base + 2 ^ 64 by omega
    rw [this, Nat.add_mod_right, Nat.mod_eq_of_lt (by omega)]
  have nonnull : ¬ base + 8 = 0 := by omega
  simp only [kfree, nonnull, if_false, header]
  exact bind_ok loading _

end Header

end Mykonos.Heap
