import Mykonos.Heap.Calls
import Mykonos.Paging.Refinement

/-! # Ownership over whole runs

The callers of the heap hold regions. Each is released at most once, with the
pointer and size it was obtained with. Over any such run the virtual pool, the
leaf entries, the tables and the physical pool never share a page or a frame.
-/

namespace Mykonos.Heap

open Lib Memory Paging

/-! ## Regions and calls -/

/-- A region a caller holds: the pointer it was given, the size it asked for,
    whether `kmalloc` wrote a header, and the pages reserved for it. -/
structure Region where
  ptr : Nat
  size : Nat
  headed : Bool
  base : Nat
  pages : Nat
  deriving Repr, DecidableEq

def Region.area (r : Region) : Set Nat := addresses r.base r.pages

inductive Call where
  | kmalloc (size : Nat)
  | allocateMemory (size : Nat)
  | mapAddress (physicalAddress size : Nat) (cacheable : Bool)
  | kfree (ptr : Nat)
  | freeMemory (ptr size : Nat)
  | unmapMemory (address size : Nat)
  deriving Repr, DecidableEq

namespace Call

/-- The call, with zero for the pointer of a call that returns none. -/
def run : Call → Kernel Nat
  | kmalloc size => Heap.kmalloc size
  | allocateMemory size => Heap.allocateMemory size
  | mapAddress physicalAddress size cacheable => Heap.mapAddress physicalAddress size cacheable
  | kfree ptr => do Heap.kfree ptr; return 0
  | freeMemory ptr size => do Heap.freeMemory ptr size; return 0
  | unmapMemory address size => do Heap.unmapMemory address size; return 0

/-- The region a call obtains when it returns the pointer. -/
def obtains : Call → Nat → Option Region
  | kmalloc size, ptr => some ⟨ptr, size, true, ptr - headerSize, (size + 4103) / 4096⟩
  | allocateMemory size, ptr => some ⟨ptr, size, false, ptr, (size + 4103) / 4096⟩
  | mapAddress physicalAddress size _, ptr =>
      some ⟨ptr, size, false, pageAlignDown ptr, spanPages physicalAddress size⟩
  | _, _ => none

/-- The size arithmetic of an acquiring call does not overflow. -/
def Acquiring : Call → Prop
  | kmalloc size => size + 4103 < 2 ^ 64
  | allocateMemory size => size + 4103 < 2 ^ 64
  | mapAddress physicalAddress size _ => physicalAddress + size + 4095 < 2 ^ 64
  | _ => False

/-- The call releases the region with the pointer and size it was obtained with. -/
def Releasing : Call → Region → Prop
  | kfree ptr, r => r.headed = true ∧ r.ptr = ptr
  | freeMemory ptr size, r => r.ptr = ptr ∧ r.size = size
  | unmapMemory address size, r => r.ptr = address ∧ r.size = size
  | _, _ => False

end Call

/-- The machine with the regions its callers hold. -/
structure Session where
  machine : Machine
  live : List Region

namespace Session

/-- A region obtained is live; a call that returns null or stops obtains none. -/
def record (s : Session) (call : Call) : List Region :=
  match call.run s.machine with
  | .ok ptr _ => if ptr = 0 then s.live else (call.obtains ptr).toList ++ s.live
  | .error _ _ => s.live

/-- One call. No table is denied a frame, and only a live region is released. -/
inductive Step (s : Session) (call : Call) : Session → Prop where
  | acquire : call.Acquiring → Fed call.run s.machine →
      Step s call ⟨call.run.after s.machine, s.record call⟩
  | release {r : Region} : r ∈ s.live → call.Releasing r →
      Step s call ⟨call.run.after s.machine, s.live.erase r⟩

end Session

/-! ## What a live region guarantees -/

/-- The reserved pages are not free, a release stays inside them, and a header
    still holds the size. -/
structure Kept (s : Machine) (r : Region) : Prop where
  nonnull : r.ptr ≠ 0
  bounded : r.ptr + r.size + 4095 < 2 ^ 64
  base : pageAlignDown r.ptr = r.base
  span : spanPages r.ptr r.size ≤ r.pages
  range : HeapRange r.base r.pages
  apart : Disjoint r.area s.virtualMemory.free
  header : r.headed = true → r.ptr = r.base + 8 ∧ 0 < r.pages ∧
    isPresent (s.leaf (page r.base)) = true ∧
    isAllocated (s.leaf (page r.base)) = true ∧
    s.memory (entryFrame (s.leaf (page r.base))) 0 = r.size

/-- The invariant of a session. -/
structure Session.Sound (s : Session) : Prop where
  sane : Sane s.machine
  kept : ∀ r ∈ s.live, Kept s.machine r
  apart : s.live.Pairwise (fun r q => Disjoint r.area q.area)

section Keeping

variable {s t : Machine} {r : Region}

theorem HeapRange.shorter {base pages less : Nat} (h : HeapRange base pages)
    (fewer : less ≤ pages) :
    HeapRange base less := by
  refine ⟨h.aligned, h.low, fun some => h.above (some.trans_le fewer), fun some => ?_⟩
  exact (Nat.add_le_add_left (Nat.mul_le_mul_right 4096 fewer) base).trans
    (h.below (some.trans_le fewer))

theorem addresses_mono {base pages less : Nat} (fewer : less ≤ pages) :
    addresses base less ⊆ addresses base pages := by
  rintro a ⟨above, below⟩
  exact ⟨above, below.trans_le (Nat.add_le_add_left (Nat.mul_le_mul_right 4096 fewer) base)⟩

/-- A region survives whatever happens to pages outside it. -/
theorem Kept.transport {base pages : Nat} (h : Kept s r) (range : HeapRange base pages)
    (elsewhere : Disjoint r.area (addresses base pages))
    (apart : Disjoint r.area t.virtualMemory.free)
    (leaf : ∀ k, Outside k → k ∉ Set.Ico (page base) (page base + pages) → t.leaf k = s.leaf k)
    (memory : ∀ k, Outside k → k ∉ Set.Ico (page base) (page base + pages) →
      isAllocated (s.leaf k) = true →
      t.memory (entryFrame (s.leaf k)) = s.memory (entryFrame (s.leaf k))) : Kept t r := by
  refine ⟨h.nonnull, h.bounded, h.base, h.span, h.range, apart, fun headed => ?_⟩
  obtain ⟨ptr, some, present, owns, size⟩ := h.header headed
  have first : r.base ∈ r.area := ⟨le_rfl, by omega⟩
  have heap := h.range.heap first
  have outside : page r.base ∉ Set.Ico (page base) (page base + pages) := fun inside =>
    Set.disjoint_left.mp elsewhere first ((range.page_mem heap).mp inside)
  rw [leaf _ heap.outside outside, memory _ heap.outside outside owns]
  exact ⟨ptr, some, present, owns, size⟩

theorem Kept.acquires {ptr pages : Nat} (h : Kept s r) (acquired : Acquires s t ptr pages) :
    Kept t r :=
  h.transport acquired.range (h.apart.mono_right acquired.taken)
    (h.apart.mono_right (acquired.free.subset.trans Set.sdiff_subset)) acquired.leaf acquired.memory

theorem Releases.free_subset {base pages : Nat} (h : Releases s t base pages) (sane : Sane s)
    (range : HeapRange base pages) :
    t.virtualMemory.free ⊆ s.virtualMemory.free ∪ addresses base pages := by
  rw [h.virtualMemory]
  exact BlockMap.addBlock_free_subset sane.ranges.toTidy ⟨Nat.le_add_right _ _, range.bounded⟩

theorem Kept.releases {base pages : Nat} (h : Kept s r) (released : Releases s t base pages)
    (sane : Sane s) (range : HeapRange base pages)
    (elsewhere : Disjoint r.area (addresses base pages)) : Kept t r :=
  h.transport range elsewhere ((Set.disjoint_union_right.mpr ⟨h.apart, elsewhere⟩).mono_right
    (released.free_subset sane range)) released.leaf released.memory

end Keeping

/-! ## New regions -/

section Obtained

variable {s t : Machine} {ptr n : Nat}

theorem acquired_apart {pages : Nat} (h : Acquires s t ptr pages) :
    Disjoint (addresses ptr pages) t.virtualMemory.free := by
  rw [h.free]
  exact Set.disjoint_sdiff_right

theorem span_aligned {address : Nat} (aligned : address % 4096 = 0) (n : Nat) :
    spanPages address n = (n + 4095) / 4096 := by
  simp only [spanPages]
  omega

theorem span_offset {address offset : Nat} (aligned : address % 4096 = 0)
    (small : offset < 4096) (n : Nat) :
    spanPages (address + offset) n = (offset + n + 4095) / 4096 := by
  simp only [spanPages]
  omega

theorem pageAlignDown_offset {address offset : Nat} (aligned : address % 4096 = 0)
    (small : offset < 4096) :
    pageAlignDown (address + offset) = address := by
  simp only [pageAlignDown]
  omega

/-- A new region without a header, at some offset into its first page. -/
theorem kept_plain {pages offset : Nat} (h : Acquires s t ptr pages) (nonnull : ptr ≠ 0)
    (small : offset < 4096) (span : (offset + n + 4095) / 4096 ≤ pages) :
    Kept t ⟨ptr + offset, n, false, ptr, pages⟩ := by
  have aligned := h.range.aligned
  have low := h.range.low
  refine ⟨by simp only; omega, ?_, pageAlignDown_offset aligned small, ?_, h.range,
    acquired_apart h, by simp⟩
  · have below := h.range.below
    simp only [pageTablePointer] at below ⊢
    rcases Nat.eq_zero_or_pos pages with rfl | positive
    · omega
    · have := below positive
      omega
  · simp only [span_offset aligned small]
    exact span

theorem kept_kmalloc {data : List Nat} {new : Set Nat}
    (h : Allocated s t ptr ((n + 4103) / 4096) data new) :
    Kept (t.write (entryFrame (t.leaf (page ptr))) 0 n) ⟨ptr + 8, n, true, ptr,
      (n + 4103) / 4096⟩ := by
  have some : 0 < (n + 4103) / 4096 := by omega
  obtain ⟨present, owns⟩ := h.first some
  have outside : Outside (page ptr) := h.range.outside some
  have unused := (h.sane.held _ outside owns).notTable
  have acquired := h.toAcquires.write some owns n
  have nonnull : ptr ≠ 0 := by
    have := h.range.above some
    omega
  have plain := kept_plain acquired nonnull (show 8 < 4096 by decide)
    (show (8 + n + 4095) / 4096 ≤ (n + 4103) / 4096 by omega)
  refine ⟨plain.nonnull, plain.bounded, plain.base, plain.span, plain.range,
    plain.apart, fun _ => ?_⟩
  simp only [leaf_write_data unused 0 n outside]
  exact ⟨trivial, some, present, owns, by simp only [Machine.write, Function.update_self]⟩

end Obtained

/-! ## One call -/

section Calls

variable {s : Machine} {call : Call}

/-- An acquiring call takes one range, and whatever region it obtains is that
    range. -/
theorem acquiring_outcome (h : Sane s) (acquiring : call.Acquiring) (fed : Fed call.run s) :
    ∃ t ptr pages, Acquires s t ptr pages ∧
      ((∃ fault, call.run s = .error fault t) ∨ call.run s = .ok 0 t ∨
        ∃ p r, call.run s = .ok p t ∧ p ≠ 0 ∧ call.obtains p = some r ∧ Kept t r ∧
        r.area = addresses ptr pages) := by
  cases call with
  | kmalloc size =>
      rcases kmalloc_spec h acquiring fed with ⟨t, null, acquired⟩ |
        ⟨ptr, t, data, new, got, allocated⟩ |
        ⟨ptr, t, stopped, acquired⟩
      · exact ⟨t, 0, 0, acquired, .inr (.inl null)⟩
      · have some : 0 < (size + 4103) / 4096 := by omega
        refine ⟨_, ptr, _, allocated.toAcquires.write some (allocated.first some).2 size,
          .inr (.inr ⟨_, _, got, by omega, rfl, ?_, ?_⟩)⟩
        · simpa only [Nat.add_sub_cancel] using kept_kmalloc allocated
        · simp only [Region.area, Nat.add_sub_cancel]
      · exact ⟨t, ptr, _, acquired, .inl ⟨_, stopped⟩⟩
  | allocateMemory size =>
      have pages := pageAlignUp_request acquiring
      rcases allocateMemory_spec h fed rfl with ⟨t, null, acquired⟩ |
        ⟨ptr, t, data, new, got, nonnull, allocated⟩ |
        ⟨ptr, t, stopped, acquired⟩
      · exact ⟨t, 0, 0, acquired, .inr (.inl null)⟩
      · rw [pages] at allocated
        refine ⟨t, ptr, _, allocated.toAcquires, .inr (.inr ⟨ptr, _, got, nonnull, rfl, ?_, rfl⟩)⟩
        exact kept_plain allocated.toAcquires nonnull (show 0 < 4096 by decide) (by omega)
      · exact ⟨t, ptr, _, acquired, .inl ⟨_, stopped⟩⟩
  | mapAddress physicalAddress size cacheable =>
      rcases mapAddress_spec h acquiring fed with ⟨t, null, acquired⟩ |
        ⟨ptr, t, new, got, nonnull, acquired, -, -⟩
      · exact ⟨t, 0, 0, acquired, .inr (.inl null)⟩
      · have small : physicalAddress % 4096 < 4096 := Nat.mod_lt _ (by decide)
        have span : (physicalAddress % 4096 + size + 4095) / 4096 ≤
            spanPages physicalAddress size := by
          simp only [spanPages]
          omega
        have kept := kept_plain acquired nonnull small span
        have sum : addToPointer ptr (physicalAddress % 4096) = ptr + physicalAddress % 4096 := by
          have bounded := kept.bounded
          simp only at bounded
          exact Nat.mod_eq_of_lt (by omega)
        rw [sum] at got
        have down := pageAlignDown_offset acquired.range.aligned small
        refine ⟨t, ptr, _, acquired, .inr (.inr ⟨_, _, got, by omega, rfl, ?_, ?_⟩)⟩
        · rwa [down]
        · simp only [Region.area, down]
  | kfree | freeMemory | unmapMemory => exact acquiring.elim

/-- A releasing call returns, having released pages of the region. -/
theorem releasing_outcome {r : Region} (h : Sane s) (kept : Kept s r)
    (releasing : call.Releasing r) :
    ∃ t pages, call.run s = .ok 0 t ∧ pages ≤ r.pages ∧ Releases s t r.base pages := by
  have unmapping : ∃ t, unmapMemory r.ptr r.size s = .ok () t ∧
      Releases s t r.base (spanPages r.ptr r.size) := by
    have span := kept.span
    have apart := kept.apart.mono_left (addresses_mono span)
    have done := unmapMemory_spec h kept.nonnull kept.bounded
    rw [kept.base] at done
    exact done (kept.range.shorter span) apart
  cases call with
  | kfree ptr =>
      obtain ⟨headed, rfl⟩ := releasing
      obtain ⟨offset, some, present, -, size⟩ := kept.header headed
      have aligned := kept.range.aligned
      have bounded := kept.bounded
      rw [offset] at bounded
      have short : r.base + r.size + 4095 < 2 ^ 64 := by omega
      have low : r.base + 8 < 2 ^ 64 := by omega
      have span := kept.span
      rw [offset] at span
      have fewer : spanPages r.base r.size ≤ r.pages := by
        refine le_trans ?_ span
        rw [span_aligned aligned, span_offset aligned (by decide)]
        omega
      have down : pageAlignDown r.base = r.base :=
        Nat.div_mul_cancel (Nat.dvd_of_mod_eq_zero aligned)
      have nonnull : r.base ≠ 0 := by
        have := kept.range.above some
        omega
      have done := unmapMemory_spec h nonnull short
      rw [down] at done
      obtain ⟨t, returned, released⟩ :=
        done (kept.range.shorter fewer) (kept.apart.mono_left (addresses_mono fewer))
      have freed := kfree_spec aligned low present
      rw [← offset, size, returned] at freed
      exact ⟨t, _, bind_ok freed _, fewer, released⟩
  | freeMemory ptr size =>
      obtain ⟨rfl, rfl⟩ := releasing
      obtain ⟨t, returned, released⟩ := unmapping
      exact ⟨t, _, bind_ok returned _, kept.span, released⟩
  | unmapMemory ptr size =>
      obtain ⟨rfl, rfl⟩ := releasing
      obtain ⟨t, returned, released⟩ := unmapping
      exact ⟨t, _, bind_ok returned _, kept.span, released⟩
  | kmalloc | allocateMemory | mapAddress => exact releasing.elim

end Calls

namespace Session

variable {s t : Session} {call : Call}

theorem Sound.acquire (h : s.Sound) (acquiring : call.Acquiring) (fed : Fed call.run s.machine) :
    Sound ⟨call.run.after s.machine, s.record call⟩ := by
  obtain ⟨t, ptr, pages, acquired, outcome⟩ := acquiring_outcome h.sane acquiring fed
  have old : ∀ r ∈ s.live, Kept t r := fun r member => (h.kept r member).acquires acquired
  rcases outcome with ⟨fault, stopped⟩ | null | ⟨p, r, got, nonnull, obtained, kept, area⟩
  · simp only [Kernel.after, record, stopped]
    exact ⟨acquired.sane, old, h.apart⟩
  · simp only [Kernel.after, record, null, if_true]
    exact ⟨acquired.sane, old, h.apart⟩
  · simp only [Kernel.after, record, got, nonnull, if_false, obtained, Option.toList_some,
      List.singleton_append]
    refine ⟨acquired.sane, List.forall_mem_cons.mpr ⟨kept, old⟩,
      List.pairwise_cons.mpr ⟨fun q member => ?_, h.apart⟩⟩
    rw [area]
    exact ((h.kept q member).apart.mono_right acquired.taken).symm

theorem Sound.release {r : Region} (h : s.Sound) (member : r ∈ s.live)
    (releasing : call.Releasing r) :
    Sound ⟨call.run.after s.machine, s.live.erase r⟩ := by
  have kept := h.kept r member
  obtain ⟨t, pages, returned, fewer, released⟩ := releasing_outcome h.sane kept releasing
  have all : (r :: s.live.erase r).Pairwise (fun r q => Disjoint r.area q.area) :=
    (List.perm_cons_erase member).pairwise h.apart fun first => first.symm
  obtain ⟨apart, rest⟩ := List.pairwise_cons.mp all
  simp only [Kernel.after, returned]
  refine ⟨released.sane, fun q other => ?_, rest⟩
  exact (h.kept q (List.mem_of_mem_erase other)).releases released h.sane (kept.range.shorter fewer)
    ((apart q other).symm.mono_right (addresses_mono fewer))

theorem Sound.step (h : s.Sound) (step : Step s call t) : t.Sound := by
  cases step with
  | acquire acquiring fed => exact h.acquire acquiring fed
  | release member releasing => exact h.release member releasing

/-- The state the boot code hands over: the tables form a tree and are not in the
    pool, the pool is page aligned, no entry owns a frame, and the heap is one
    unmapped free block. -/
structure Initial (s : Machine) (heapStart heapEnd : Nat) : Prop where
  tree : TableTree s
  pool : s.physicalMemory.WellFormed
  whole : s.physicalMemory.Aligned
  tables : ∀ frame, s.IsTable frame → Disjoint (frameRange frame) s.physicalMemory.free
  plain : ∀ n, Outside n → isAllocated (s.leaf n) = false
  heap : s.virtualMemory = ⟨[⟨heapStart, heapEnd⟩]⟩
  aligned : heapStart % 4096 = 0 ∧ heapEnd % 4096 = 0
  within : 0xFFFF800000000000 ≤ heapStart ∧ heapStart ≤ heapEnd ∧ heapEnd ≤ pageTablePointer
  unmapped : ∀ a, heapStart ≤ a → a < heapEnd → isPresent (s.leaf (page a)) = false

theorem Initial.sound {s : Machine} {heapStart heapEnd : Nat} (h : Initial s heapStart heapEnd) :
    Sound ⟨s, []⟩ := by
  have owned : Owned s := by
    refine ⟨⟨h.tree, h.pool, h.whole, h.tables⟩, fun n outside owns => ?_,
      fun n k outside _ owns => ?_⟩
    · rw [h.plain n outside] at owns
      exact absurd owns (by decide)
    · rw [h.plain n outside] at owns
      exact absurd owns (by decide)
  have inside : ∀ a ∈ s.virtualMemory.free, heapStart ≤ a ∧ a < heapEnd := by
    rintro a ⟨b, member, held⟩
    rw [h.heap] at member
    rw [List.mem_singleton.mp member] at held
    exact held
  have below : heapEnd < 2 ^ 64 := lt_of_le_of_lt h.within.2.2 (by decide)
  refine ⟨⟨owned, ?_, ?_, fun a free => ?_,
    fun a free => h.unmapped a (inside a free).1 (inside a free).2⟩, by simp,
    List.Pairwise.nil⟩
  · rw [h.heap]
    refine ⟨⟨by simp [BlockMap.numBlocks, blockMapSize], fun b member => ?_⟩,
      List.pairwise_singleton _ _⟩
    rw [List.mem_singleton.mp member]
    exact ⟨h.within.2.1, below⟩
  · intro b member
    rw [h.heap] at member
    rw [List.mem_singleton.mp member]
    exact h.aligned
  · exact ⟨h.within.1.trans (inside a free).1, (inside a free).2.trans_le h.within.2.2⟩

theorem Sound.run {calls : List Call} (h : s.Sound) (run : Run Step s calls t) : t.Sound :=
  run.invariant h fun _ _ _ sound step => sound.step step

/-- After any run of calls no free virtual page is mapped, a frame owned by a leaf
    entry has no second owner, and it is neither free nor a page table. -/
theorem ownership_after_run {first : Machine} {heapStart heapEnd : Nat}
    (initial : Initial first heapStart heapEnd) {calls : List Call}
    (run : Run Step ⟨first, []⟩ calls t) :
    (∀ a ∈ t.machine.virtualMemory.free, isPresent (t.machine.leaf (page a)) = false) ∧
    (∀ n k, Outside n → Outside k → isAllocated (t.machine.leaf n) = true →
      isAllocated (t.machine.leaf k) = true →
      entryFrame (t.machine.leaf n) = entryFrame (t.machine.leaf k) → n = k) ∧
    ∀ n, Outside n → isAllocated (t.machine.leaf n) = true →
      Disjoint (frameRange (entryFrame (t.machine.leaf n))) t.machine.physicalMemory.free ∧
      ¬ t.machine.IsTable (entryFrame (t.machine.leaf n)) := by
  have sane := (initial.sound.run run).sane
  refine ⟨sane.unmapped, sane.exclusive, fun n outside owns => ?_⟩
  have hidden := sane.held n outside owns
  exact ⟨hidden.notFree, hidden.notTable⟩

/-- The machine with nothing mapped, and a heap of 512 MiB. -/
def freshMachine : Machine :=
  { bareMachine with virtualMemory := ⟨[⟨0xFFFF800000A00000, 0xFFFF800020A00000⟩]⟩ }

theorem freshMachine_leaf {n : Nat} (outside : Outside n) : freshMachine.leaf n = 0 := by
  cases here : freshMachine.tableAt (leafPath n) with
  | none => exact Machine.slot_of_none here _
  | some table =>
      exact absurd (bareMachine_tableAt (leafPath_allowed outside) here).1 (by simp [leafPath])

theorem freshMachine_initial : Initial freshMachine 0xFFFF800000A00000 0xFFFF800020A00000 where
  tree := ⟨bareMachine_tree.loop, bareMachine_tree.unique⟩
  pool := by
    refine ⟨⟨by decide, fun b member => ?_⟩, List.pairwise_singleton _ _⟩
    rw [List.mem_singleton.mp member]
    exact ⟨by decide, by decide⟩
  whole := by simp [freshMachine, bareMachine, BlockMap.Aligned, BlockMap.Ends]
  tables frame used := by
    rw [(bareMachine_isTable frame).mp used]
    refine Set.disjoint_left.mpr ?_
    rintro a ⟨-, below⟩ ⟨b, member, above, -⟩
    rw [List.mem_singleton.mp member] at above
    simp only at above
    omega
  plain n outside := by
    rw [freshMachine_leaf outside]
    decide
  heap := rfl
  aligned := by decide
  within := by decide
  unmapped a above below := by
    have heap : HeapAddress a := ⟨le_trans (by decide) above, below.trans_le (by decide)⟩
    rw [freshMachine_leaf heap.outside]
    decide

/-- After one `kmalloc` the entry of its page owns a frame that is not a table. -/
theorem ownership_after_kmalloc :
    isAllocated (((Call.kmalloc 100).run.after freshMachine).leaf (page 0xFFFF800000A00000)) =
      true ∧
    ¬ ((Call.kmalloc 100).run.after freshMachine).IsTable
      (entryFrame (((Call.kmalloc 100).run.after freshMachine).leaf
        (page 0xFFFF800000A00000))) := by
  have step :
      Step ⟨freshMachine, []⟩ (.kmalloc 100) ⟨(Call.kmalloc 100).run.after freshMachine, _⟩ :=
    .acquire (show 100 + 4103 < 2 ^ 64 by decide) (show 0 ∉ _ by decide +kernel)
  have owns :
      isAllocated (((Call.kmalloc 100).run.after freshMachine).leaf (page 0xFFFF800000A00000)) =
        true := by
    decide +kernel
  have outside : Outside (page 0xFFFF800000A00000) := by decide
  generalize (Call.kmalloc 100).run.after freshMachine = t at step owns ⊢
  exact ⟨owns, ((ownership_after_run freshMachine_initial (.single step)).2.2 _ outside owns).2⟩

end Session

end Mykonos.Heap
