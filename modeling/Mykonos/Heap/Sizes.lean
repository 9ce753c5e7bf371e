import Mykonos.Heap.Ownership

/-! # The bytes behind a pointer

`kmalloc` adds the header and rounds up to pages in 64-bit arithmetic. Up to the
size at which that sum wraps, every byte it promises, and the header before them,
lies in pages this call has reserved and mapped. Beyond it the promise is empty.
-/

namespace Mykonos.Heap

open Lib Memory Paging

/-- The header and the `n` bytes behind the pointer, counted without wrapping, lie
    in pages that have left the virtual pool and have been mapped in between. -/
structure Contained (s t : Machine) (ptr n : Nat) : Prop where
  header : headerSize ≤ ptr
  reserved : ∀ a, ptr - headerSize ≤ a → a < ptr + n →
    a ∈ s.virtualMemory.free ∧ a ∉ t.virtualMemory.free
  mapped : ∀ a, ptr - headerSize ≤ a → a < ptr + n →
    s.translate a = none ∧ (t.translate a).isSome = true

section Contained

variable {s t : Machine} {ptr n : Nat}

/-- All virtual memory lies below the window, and so do the bytes of a contained
    block. -/
theorem Contained.small (h : Contained s t ptr n) (sane : Sane s) : n + 4103 < 2 ^ 64 := by
  have header := h.header
  rcases Nat.eq_zero_or_pos n with rfl | some
  · decide
  · have last := (sane.heap _ (h.reserved (ptr + n - 1) (by omega) (by omega)).1).2
    simp only [pageTablePointer, headerSize] at last header
    omega

/-- Every page of a backed range translates. -/
theorem Allocated.translates {pages a : Nat} {data : List Nat} {new : Set Nat}
    (h : Allocated s t ptr pages data new) (inside : a ∈ addresses ptr pages) :
    (t.translate a).isSome = true := by
  obtain ⟨above, below⟩ := (h.range.page_mem (h.range.heap inside)).mpr inside
  obtain ⟨j, index⟩ : ∃ j, page a = page ptr + j := ⟨page a - page ptr, by omega⟩
  have short : j < data.length := by
    rw [h.count]
    omega
  have entry := h.leaf_eq short
  obtain ⟨present, -, -⟩ := dataEntry_fields (h.bounded (List.getElem_mem short))
  rw [translate_eq, index, entry, child_some.mpr ⟨present, rfl⟩, Option.isSome_some]

/-- What a successful `kmalloc` of a size that does not wrap has done. -/
theorem kmalloc_contained (sane : Sane s) (small : n + 4103 < 2 ^ 64) (fed : Fed (kmalloc n) s)
    (got : kmalloc n s = .ok ptr t) (nonnull : ptr ≠ 0) :
    Contained s t ptr n ∧ Set.Ico (ptr - headerSize) (ptr + n) ⊆ s.virtualMemory.free := by
  obtain ⟨base, u, data, new, pointer, machine, allocated⟩ :=
    kmalloc_returns sane small fed got nonnull
  have some : 0 < (n + 4103) / 4096 := by omega
  obtain ⟨-, owns⟩ := allocated.first some
  have outside : Outside (page base) := allocated.range.outside some
  have unused := (allocated.sane.held _ outside owns).notTable
  have acquired := allocated.toAcquires.write some owns n
  have inside : ∀ a, ptr - headerSize ≤ a → a < ptr + n →
      a ∈ addresses base ((n + 4103) / 4096) := by
    intro a above below
    rw [pointer, show base + 8 - headerSize = base from Nat.add_sub_cancel _ _] at above
    exact ⟨above, by omega⟩
  refine ⟨⟨?_, fun a above below => ?_, fun a above below => ⟨?_, ?_⟩⟩, fun a member => ?_⟩
  · rw [pointer]
    exact Nat.le_add_left _ _
  · rw [machine, acquired.free]
    exact ⟨acquired.taken (inside a above below), fun held => held.2 (inside a above below)⟩
  · rw [translate_eq, child_none]
    exact sane.unmapped a (acquired.taken (inside a above below))
  · have heap := allocated.range.heap (inside a above below)
    rw [machine, translate_eq, leaf_write_data unused 0 n heap.outside, ← translate_eq]
    exact allocated.translates (inside a above below)
  · exact acquired.taken (inside a member.1 member.2)

end Contained

namespace Session

/-- In every state reached without overflow, the bytes `kmalloc` promises are its
    own exactly when rounding up the request does not wrap. -/
theorem kmalloc_contained_iff {first : Machine} {heapStart heapEnd : Nat}
    (initial : Initial first heapStart heapEnd) {calls : List Call} {s : Session}
    (run : Run Step ⟨first, []⟩ calls s) {n ptr : Nat} {t : Machine}
    (fed : Fed (kmalloc n) s.machine) (got : kmalloc n s.machine = .ok ptr t) (nonnull : ptr ≠ 0) :
    (Contained s.machine t ptr n ∧
      ∀ r ∈ s.live, Disjoint (Set.Ico (ptr - headerSize) (ptr + n)) r.area) ↔
      n + 4103 < 2 ^ 64 := by
  have sound := initial.sound.run run
  refine ⟨fun held => held.1.small sound.sane, fun small => ?_⟩
  obtain ⟨contained, taken⟩ := kmalloc_contained sound.sane small fed got nonnull
  exact ⟨contained, fun r member => ((sound.kept r member).apart.mono_right taken).symm⟩

/-- The first hundred bytes of a fresh heap. -/
theorem hundred_bytes_contained :
    Contained freshMachine ((kmalloc 100).after freshMachine) 0xFFFF800000A00008 100 := by
  have got : kmalloc 100 freshMachine = .ok 0xFFFF800000A00008 ((kmalloc 100).after freshMachine) :=
    ok_of_value (by decide +kernel)
  have fed : Fed (kmalloc 100) freshMachine := show 0 ∉ _ by decide +kernel
  generalize (kmalloc 100).after freshMachine = t at got ⊢
  exact ((kmalloc_contained_iff freshMachine_initial (.start _) fed got (by decide)).mpr
    (by decide)).1

/-- A request for all but one byte of the address space is served with one page:
    the promised bytes run past the end of the heap. -/
theorem huge_request_not_contained :
    (kmalloc (2 ^ 64 - 1)).value freshMachine = some 0xFFFF800000A00008 ∧
    ¬ Contained freshMachine ((kmalloc (2 ^ 64 - 1)).after freshMachine) 0xFFFF800000A00008
      (2 ^ 64 - 1) := by
  refine ⟨by decide +kernel, fun contained => ?_⟩
  generalize (kmalloc (2 ^ 64 - 1)).after freshMachine = t at contained
  exact absurd (contained.small freshMachine_initial.sound.sane) (by decide)

end Session

end Mykonos.Heap
