import Mykonos.Heap.Release

/-! # What has been taken from the heap

Between two machines a set of addresses has left the virtual pool and only its pages
have been edited. Each call of the heap adds a range to such a set or takes one out of
it again, whatever has been taken in between.
-/

namespace Mykonos.Heap

open Lib Memory Paging

variable {s t u : Machine} {area more : Set Nat} {ptr address n : Nat}

/-! ## Additions -/

/-- The addresses have left the virtual pool, and no page without them has been edited. -/
structure Adds (s t : Machine) (area : Set Nat) : Prop where
  sane : Sane t
  taken : area ⊆ s.virtualMemory.free
  free : t.virtualMemory.free = s.virtualMemory.free \ area
  walk : ∀ k, Outside k → k ∉ page '' area → t.walk k = s.walk k

theorem Adds.refl (sane : Sane s) : Adds s s ∅ :=
  ⟨sane, Set.empty_subset _, Set.sdiff_empty.symm, fun _ _ _ => rfl⟩

theorem Adds.trans (first : Adds s t area) (second : Adds t u more) : Adds s u (area ∪ more) where
  sane := second.sane
  taken :=
    Set.union_subset first.taken (second.taken.trans (first.free.subset.trans Set.sdiff_subset))
  free := by rw [second.free, first.free, Set.sdiff_sdiff]
  walk k outside apart := by
    rw [Set.image_union, Set.mem_union, not_or] at apart
    rw [second.walk k outside apart.2, first.walk k outside apart.1]

/-- What has been taken later was free until then. -/
theorem Adds.apart (first : Adds s t area) (second : Adds t u more) : Disjoint area more := by
  refine Set.disjoint_right.mpr fun a inside held => ?_
  have free := second.taken inside
  rw [first.free] at free
  exact free.2 held

/-- No page that was mapped has been edited. -/
theorem Adds.walk_mapped (h : Adds s t area) (sane : Sane s) {k : Nat} (outside : Outside k)
    (mapped : s.walk k ≠ none) : t.walk k = s.walk k := by
  refine h.walk k outside ?_
  rintro ⟨a, inside, rfl⟩
  exact mapped (walk_absent.mpr (sane.unmapped a (h.taken inside)))

/-- The heap is in the upper half. -/
theorem Adds.walk_zero (h : Adds s t area) (sane : Sane s) : t.walk 0 = s.walk 0 := by
  refine h.walk 0 (by decide) ?_
  rintro ⟨a, inside, same⟩
  obtain ⟨above, below⟩ := sane.heap a (h.taken inside)
  simp only [page, pageTablePointer] at same below
  omega

theorem Acquires.adds {pages : Nat} (h : Acquires s t ptr pages) :
    Adds s t (addresses ptr pages) where
  sane := h.sane
  taken := h.taken
  free := h.free
  walk k outside apart := by
    have elsewhere : k ∉ Set.Ico (page ptr) (page ptr + pages) := by
      intro inside
      obtain ⟨j, rfl⟩ : ∃ j, k = page ptr + j := ⟨k - page ptr, by have := inside.1; omega⟩
      have short : j < pages := by
        have := inside.2
        omega
      refine apart ⟨ptr + j * 4096, ⟨Nat.le_add_right _ _, ?_⟩, ?_⟩
      · exact Nat.add_lt_add_left (Nat.mul_lt_mul_of_pos_right short (by decide)) ptr
      · rw [← h.range.address short, h.range.page short]
    simp only [Machine.walk, h.leaf k outside elsewhere]

theorem Acquires.adds_nothing (h : Acquires s t ptr 0) : Adds s t ∅ := by
  have added := h.adds
  rwa [show addresses ptr 0 = ∅ by simp [addresses]] at added

/-! ## Windows -/

/-- The physical address behind a virtual one. -/
def physical (s : Machine) (a : Nat) : Option Nat :=
  (s.translate a).map fun frame => frame * 4096 + a % 4096

/-- So many bytes behind the pointer are those from a physical address on. -/
def Window (s : Machine) (ptr address n : Nat) : Prop :=
  ∀ offset < n, Outside (page ((ptr + offset) % 2 ^ 64)) ∧
    physical s ((ptr + offset) % 2 ^ 64) = some ((address + offset) % 2 ^ 64)

theorem physical_absent {a : Nat} (absent : s.walk (page a) = none) : physical s a = none := by
  rw [physical, translate_walk, absent]
  rfl

theorem Window.adds (h : Window s ptr address n) (sane : Sane s) (added : Adds s t area) :
    Window t ptr address n := by
  intro offset below
  obtain ⟨outside, shown⟩ := h offset below
  have mapped : s.walk (page ((ptr + offset) % 2 ^ 64)) ≠ none := by
    intro absent
    rw [physical_absent absent] at shown
    exact nomatch shown
  refine ⟨outside, ?_⟩
  rw [← shown, physical, physical, translate_walk, translate_walk,
    added.walk_mapped sane outside mapped]

/-! ## Spans -/

/-- The addresses that `unmapMemory` releases. -/
def span (ptr n : Nat) : Set Nat := addresses (pageAlignDown ptr) (spanPages ptr n)

/-- A pointer and a size that can be given to `unmapMemory`. -/
structure Spanned (ptr n : Nat) : Prop where
  nonnull : ptr ≠ 0
  bounded : ptr + n + 4095 < 2 ^ 64
  range : HeapRange (pageAlignDown ptr) (spanPages ptr n)

theorem span_nonempty (some : 0 < n) : (span ptr n).Nonempty := by
  refine ⟨pageAlignDown ptr, le_rfl, ?_⟩
  simp only [spanPages]
  omega

/-- What `mapAddress` adds, and what can be seen there. -/
theorem mapAddress_adds {cacheable : Bool} (sane : Sane s) (bounded : address < 2 ^ 64)
    (fits : address % 4096 + n + 4095 < 2 ^ 64) (fed : Fed (mapAddress address n cacheable) s)
    (got : mapAddress address n cacheable s = .ok ptr t) :
    ptr = 0 ∧ Adds s t ∅ ∨ Spanned ptr n ∧ Adds s t (span ptr n) ∧ Window t ptr address n := by
  rcases mapAddress_pages sane (span_size_around bounded fits) fed with ⟨u, null, acquired⟩ |
    ⟨base, u, new, returned, start, acquired, rewritten, -⟩
  · rw [got] at null
    injection null with pointer machine
    subst pointer machine
    exact .inl ⟨rfl, acquired.adds_nothing⟩
  · rw [got] at returned
    injection returned with pointer machine
    subst machine
    have aligned := acquired.range.aligned
    have low := acquired.range.low
    have below := acquired.range.below
    simp only [pageTablePointer] at below
    have pages : spanPages address n = (address % 4096 + n + 4095) / 4096 := by
      simp only [spanPages]
      omega
    have sum : ptr = base + address % 4096 := by
      rw [pointer]
      exact Nat.mod_eq_of_lt (by omega)
    have down : pageAlignDown ptr = base := by
      simp only [pageAlignDown]
      omega
    have count : spanPages ptr n = spanPages address n := by
      simp only [spanPages]
      omega
    refine .inr ⟨⟨by omega, ?_, by rw [down, count]; exact acquired.range⟩, ?_,
      fun offset inside => ?_⟩
    · rcases Nat.eq_zero_or_pos (spanPages address n) with none | some
      · omega
      · have := below some
        omega
    · rw [span, down, count]
      exact acquired.adds
    · obtain ⟨j, place⟩ : ∃ j, j = (address % 4096 + offset) / 4096 := ⟨_, rfl⟩
      have short : j < spanPages address n := by omega
      have entry :
          j < (mapEntries (pageAlignDown address) cacheable 0 (spanPages address n)).length := by
        simpa [mapEntries] using short
      have room := below (by omega)
      have here : (ptr + offset) % 2 ^ 64 = base + j * 4096 + (address % 4096 + offset) % 4096 := by
        omega
      have index : page ((ptr + offset) % 2 ^ 64) = page base + j := by
        rw [← acquired.range.page short, acquired.range.address short, here]
        simp only [page]
        omega
      have target : addToPointer (pageAlignDown address) ((0 + j) * 4096) / 4096 * 4096 +
          (ptr + offset) % 2 ^ 64 % 4096 = (address + offset) % 2 ^ 64 := by
        rw [here]
        simp only [addToPointer, pageAlignDown]
        omega
      have limit : addToPointer (pageAlignDown address) ((0 + j) * 4096) < 2 ^ 64 :=
        addToPointer_lt _ _
      have leaf : t.leaf (page base + j) = _ :=
        (rewritten.leaf _ (acquired.range.outside short)).trans (overlay_inside entry)
      simp only [mapEntries, List.getElem_map, List.getElem_range] at leaf
      rw [leafEntry_eq limit] at leaf
      obtain ⟨present, -, frame, -⟩ := leafEntry_fields
        (show addToPointer (pageAlignDown address) ((0 + j) * 4096) / 4096 < 2 ^ 52 by omega)
        false cacheable
      rw [← leaf] at present frame
      rw [index]
      refine ⟨acquired.range.outside short, ?_⟩
      rw [physical, translate_eq, index, child_some.mpr ⟨present, frame⟩, Option.map_some, target]

/-- What `unmapMemory` takes back. -/
theorem Adds.unmapMemory (h : Adds s t (area ∪ span ptr n)) (sane : Sane s)
    (apart : Disjoint area (span ptr n)) (spanned : Spanned ptr n)
    (room : ¬t.virtualMemory.Saturated) (got : unmapMemory ptr n t = .ok () u) :
    Adds s u area := by
  have away : Disjoint (span ptr n) t.virtualMemory.free := by
    rw [h.free]
    exact Set.disjoint_sdiff_right.mono_left Set.subset_union_right
  obtain ⟨v, returned, released⟩ :=
    unmapMemory_spec h.sane spanned.nonnull spanned.bounded spanned.range away
  rw [got] at returned
  injection returned with _ machine
  subst machine
  have inner : area ⊆ s.virtualMemory.free := Set.subset_union_left.trans h.taken
  refine ⟨released.sane, inner, ?_, fun k outside elsewhere => ?_⟩
  · have block :
        (⟨pageAlignDown ptr, pageAlignDown ptr + spanPages ptr n * 4096⟩ : Block).WellFormed :=
      ⟨Nat.le_add_right _ _, spanned.range.bounded⟩
    have back : u.virtualMemory.free = s.virtualMemory.free \ (area ∪ span ptr n) ∪ span ptr n := by
      rw [released.virtualMemory, BlockMap.addBlock_free h.sane.ranges.toTidy room block, h.free]
      rfl
    rw [back, ← Set.sdiff_sdiff, Set.sdiff_union_of_subset]
    exact fun a inside => ⟨h.taken (.inr inside), Set.disjoint_right.mp apart inside⟩
  · by_cases inside :
      k ∈ Set.Ico (page (pageAlignDown ptr)) (page (pageAlignDown ptr) + spanPages ptr n)
    · obtain ⟨j, rfl⟩ : ∃ j, k = page (pageAlignDown ptr) + j :=
        ⟨k - page (pageAlignDown ptr), by have := inside.1; omega⟩
      have short : j < spanPages ptr n := by
        have := inside.2
        omega
      have member : pageAlignDown ptr + j * 4096 ∈ span ptr n := ⟨Nat.le_add_right _ _,
        Nat.add_lt_add_left (Nat.mul_lt_mul_of_pos_right short (by decide)) _⟩
      have before := sane.unmapped _ (h.taken (.inr member))
      rw [← spanned.range.address short, spanned.range.page short] at before
      rw [walk_absent.mpr before, walk_absent, released.inside _ outside inside]
      decide
    · have same : u.walk k = t.walk k := by simp only [Machine.walk, released.leaf k outside inside]
      rw [same]
      refine h.walk k outside ?_
      rw [Set.image_union, Set.mem_union, not_or]
      refine ⟨elsewhere, ?_⟩
      rintro ⟨a, member, rfl⟩
      exact inside ((spanned.range.page_mem (spanned.range.heap member)).mpr member)

/-! ## Blocks -/

/-- The addresses behind what `kmalloc` returned for a size. -/
def block (ptr n : Nat) : Set Nat :=
  if ptr = 0 then ∅ else addresses (ptr - headerSize) ((n + 4103) / 4096)

/-- What `kmalloc` adds. -/
theorem kmalloc_adds (sane : Sane s) (small : n + 4103 < 2 ^ 64) (fed : Fed (kmalloc n) s)
    (got : kmalloc n s = .ok ptr t) : Adds s t (block ptr n) := by
  rcases kmalloc_spec sane small fed with ⟨u, null, acquired⟩ |
    ⟨base, u, data, new, returned, allocated⟩ |
    ⟨base, u, stopped, -⟩
  · rw [got] at null
    injection null with pointer machine
    subst pointer machine
    exact acquired.adds_nothing
  · rw [got] at returned
    injection returned with pointer machine
    subst pointer machine
    have some : 0 < (n + 4103) / 4096 := by omega
    have acquired := allocated.toAcquires.write some (allocated.first some).2 n
    rw [block, if_neg (Nat.succ_ne_zero _), Nat.add_sub_cancel]
    exact acquired.adds
  · rw [got] at stopped
    exact nomatch stopped

end Mykonos.Heap
