import Mykonos.Heap.Sizes

/-! # Releasing what was acquired

Acquisition and release compute their pages along different paths, and the two
pools drop what they have no slot for. A release undoes an acquisition exactly
when the roundings agree and no pool is saturated at the moment of a return.
-/

namespace Mykonos.Heap

open Lib Memory Paging

/-! ## Returning frames one by one -/

/-- No return meets a saturated pool. -/
def Roomy : BlockMap → List Nat → Prop
  | _, [] => True
  | pm, frame :: rest => ¬ pm.Saturated ∧ Roomy (returnFrame pm frame) rest

theorem returnFrame_free {pm : BlockMap} (h : pm.WellFormed) (room : ¬ pm.Saturated) {frame : Nat}
    (bounded : frame * 4096 + 4096 < 2 ^ 64) :
    (returnFrame pm frame).free = pm.free ∪ frameRange frame := by
  rw [returnFrame_eq bounded]
  exact BlockMap.addBlock_free h.toTidy room (frameBlock_wellFormed bounded)

theorem returnFrame_saturated {pm : BlockMap} (full : pm.Saturated) {frame : Nat}
    (bounded : frame * 4096 + 4096 < 2 ^ 64) : returnFrame pm frame = pm := by
  rw [returnFrame_eq bounded]
  exact BlockMap.addBlock_saturated full _

/-- Frames that can be returned to a pool. -/
structure Returnable (pm : BlockMap) (frames : List Nat) : Prop where
  wellFormed : pm.WellFormed
  aligned : pm.Aligned
  distinct : frames.Nodup
  bounded : ∀ frame ∈ frames, frame * 4096 + 4096 < 2 ^ 64
  apart : ∀ frame ∈ frames, Disjoint (frameRange frame) pm.free

section Return

variable {pm : BlockMap} {frame : Nat} {frames : List Nat}

theorem Returnable.refilled (h : Returnable pm (frame :: frames)) :
    Refilled pm (returnFrame pm frame) frame :=
  returnFrame_refilled h.wellFormed h.aligned (h.bounded frame (by simp)) (h.apart frame (by simp))

theorem Returnable.rest (h : Returnable pm (frame :: frames)) :
    Returnable (returnFrame pm frame) frames := by
  have refilled := h.refilled
  obtain ⟨fresh, distinct⟩ := List.nodup_cons.mp h.distinct
  refine ⟨refilled.wellFormed, refilled.aligned, distinct,
    fun f member => h.bounded f (by simp [member]), fun f member => ?_⟩
  have different : f ≠ frame := fun same => fresh (same ▸ member)
  exact (Set.disjoint_union_right.mpr ⟨h.apart f (by simp [member]),
    frameRange_disjoint different⟩).mono_right
    refilled.free

/-- Nothing but the returned frames becomes free. -/
theorem Returnable.subset (h : Returnable pm frames) {a : Nat}
    (held : a ∈ (returnFrames pm frames).free) :
    a ∈ pm.free ∨ a / 4096 ∈ frames := by
  induction frames generalizing pm with
  | nil => exact .inl held
  | cons frame frames ih =>
      rcases ih h.rest held with early | late
      · exact (h.refilled.free early).imp id fun inside => by simp [mem_frameRange.mp inside]
      · exact .inr (List.mem_cons_of_mem _ late)

/-- All of them become free exactly when no return meets a saturated pool. -/
theorem Returnable.free_iff (h : Returnable pm frames) :
    (∀ a, a ∈ (returnFrames pm frames).free ↔ a ∈ pm.free ∨ a / 4096 ∈ frames) ↔
      Roomy pm frames := by
  induction frames generalizing pm with
  | nil => simp [returnFrames, Roomy]
  | cons frame frames ih =>
      have bounded := h.bounded frame (by simp)
      by_cases full : pm.Saturated
      · refine iff_of_false (fun all => ?_) fun roomy => roomy.1 full
        have start : frame * 4096 / 4096 = frame := Nat.mul_div_cancel _ (by decide)
        have held := (all (frame * 4096)).mpr (.inr (by rw [start]; simp))
        rcases h.rest.subset held with early | late
        · rw [returnFrame_saturated full bounded] at early
          exact Set.disjoint_left.mp (h.apart frame (by simp)) (frame_mem frame) early
        · rw [start] at late
          exact (List.nodup_cons.mp h.distinct).1 late
      · rw [Roomy, ← ih h.rest, returnFrame_free h.wellFormed full bounded, and_iff_right full]
        refine forall_congr' fun a => iff_congr Iff.rfl ?_
        rw [Set.mem_union, mem_frameRange, List.mem_cons, or_assoc]

end Return

/-! ## The frames of a range -/

theorem ownedFrames_data {leaf : Nat → Nat} {first pages : Nat} {data : List Nat}
    (short : pages ≤ data.length)
    (entries : ∀ j (inside : j < data.length), leaf (first + j) = dataEntry data[j])
    (bounded : ∀ frame ∈ data, frame < 2 ^ 52) :
    ownedFrames leaf first pages = data.take pages := by
  induction pages generalizing first data with
  | zero => rfl
  | succ pages ih =>
      cases data with
      | nil => simp at short
      | cons frame data =>
          have here := entries 0 (by simp)
          rw [Nat.add_zero, List.getElem_cons_zero] at here
          obtain ⟨-, owns, named⟩ := dataEntry_fields (bounded frame (by simp))
          rw [ownedFrames, here, if_pos owns, named, List.take_succ_cons, List.singleton_append]
          refine congrArg (frame :: ·) (ih (by simpa using short) (fun j inside => ?_)
            fun f member => bounded f (by simp [member]))
          have shift : first + 1 + j = first + (j + 1) := by omega
          rw [shift, entries (j + 1) (by simpa using inside), List.getElem_cons_succ]

theorem ownedFrames_plain {leaf : Nat → Nat} {first pages : Nat}
    (plain : ∀ j < pages, isAllocated (leaf (first + j)) = false) :
    ownedFrames leaf first pages = [] := by
  induction pages generalizing first with
  | zero => rfl
  | succ pages ih =>
      have here := plain 0 (by omega)
      rw [Nat.add_zero] at here
      rw [ownedFrames, here, if_neg (by simp), List.nil_append]
      refine ih fun j inside => ?_
      have next := plain (j + 1) (by omega)
      rwa [Nat.add_comm j 1, ← Nat.add_assoc] at next

/-! ## Exact inverses -/

/-- After acquisition and release everything outside the page tables is as it was:
    every page, every free address of the virtual pool, and every free frame that
    has not become a table. -/
structure Inverse (s t u : Machine) : Prop where
  pages : ∀ k, Outside k → u.walk k = s.walk k
  ranges : u.virtualMemory.free = s.virtualMemory.free
  frames : ∀ a, a ∈ u.physicalMemory.free ↔ a ∈ s.physicalMemory.free ∧ ¬ t.IsTable (a / 4096)

/-- No page of an acquired range was mapped before. -/
theorem Acquires.unmapped {s t : Machine} {ptr pages : Nat} (h : Acquires s t ptr pages)
    (sane : Sane s) {j : Nat} (inside : j < pages) : s.walk (page ptr + j) = none := by
  have member : ptr + j * 4096 ∈ addresses ptr pages := ⟨Nat.le_add_right _ _,
    Nat.add_lt_add_left (Nat.mul_lt_mul_of_pos_right inside (by decide)) ptr⟩
  have free := sane.unmapped _ (h.taken member)
  rw [← h.range.address inside, h.range.page inside] at free
  exact walk_absent.mpr free

/-- Unmapping all of a range restores every page. -/
theorem Acquires.walk_restored {s t u : Machine} {ptr pages : Nat} (h : Acquires s t ptr pages)
    (sane : Sane s) (released : Releases t u ptr pages) {k : Nat} (outside : Outside k) :
    u.walk k = s.walk k := by
  by_cases inside : k ∈ Set.Ico (page ptr) (page ptr + pages)
  · obtain ⟨j, rfl⟩ : ∃ j, k = page ptr + j := ⟨k - page ptr, by have := inside.1; omega⟩
    rw [h.unmapped sane (by have := inside.2; omega), walk_absent, released.inside _ outside inside]
    decide
  · simp only [Machine.walk, released.leaf k outside inside, h.leaf k outside inside]

/-- The virtual pool is as it was when all of a range is released and the pool had
    a slot for it. -/
theorem Acquires.ranges_iff {s t u : Machine} {ptr pages less : Nat} (h : Acquires s t ptr pages)
    (released : Releases t u ptr less) (some : 0 < pages) (fewer : less ≤ pages) :
    u.virtualMemory.free = s.virtualMemory.free ↔ less = pages ∧ ¬ t.virtualMemory.Saturated := by
  have start : ptr ∈ addresses ptr pages := ⟨le_rfl, by omega⟩
  by_cases full : t.virtualMemory.Saturated
  · refine iff_of_false (fun same => ?_) fun both => both.2 full
    rw [released.virtualMemory, BlockMap.addBlock_saturated full, h.free] at same
    have held := h.taken start
    rw [← same] at held
    exact held.2 start
  · have block : (⟨ptr, ptr + less * 4096⟩ : Block).WellFormed :=
      ⟨Nat.le_add_right _ _, (h.range.shorter fewer).bounded⟩
    have free : u.virtualMemory.free = s.virtualMemory.free \ addresses ptr pages ∪
        addresses ptr less := by
      rw [released.virtualMemory, BlockMap.addBlock_free h.sane.ranges.toTidy full block, h.free]
      rfl
    rw [free, and_iff_left full]
    constructor
    · intro same
      by_contra different
      have inside : less < pages := by omega
      have last : ptr + less * 4096 ∈ addresses ptr pages := ⟨Nat.le_add_right _ _,
        Nat.add_lt_add_left (Nat.mul_lt_mul_of_pos_right inside (by decide)) ptr⟩
      have held := h.taken last
      rw [← same] at held
      rcases held with old | new
      · exact old.2 last
      · exact absurd new.2 (lt_irrefl _)
    · rintro rfl
      exact Set.sdiff_union_of_subset h.taken

/-- A machine that holds a range backed by the listed frames. -/
structure Holding (s t : Machine) (ptr pages : Nat) (data : List Nat) (new : Set Nat) : Prop
    extends Acquires s t ptr pages where
  count : data.length = pages
  entries : ∀ j (inside : j < data.length), t.leaf (page ptr + j) = dataEntry data[j]
  withdrawn : Withdrawn s.physicalMemory t.physicalMemory ({frame | frame ∈ data} ∪ new)
  isTable : ∀ frame, t.IsTable frame ↔ s.IsTable frame ∨ frame ∈ new
  distinct : data.Nodup
  apart : ∀ frame ∈ data, frame ∉ new

theorem Allocated.holding {s t : Machine} {ptr pages : Nat} {data : List Nat} {new : Set Nat}
    (h : Allocated s t ptr pages data new) : Holding s t ptr pages data new where
  toAcquires := h.toAcquires
  count := h.count
  entries _ inside := h.leaf_eq inside
  withdrawn := h.backed.withdrawn
  isTable := h.backed.rewritten.isTable
  distinct := h.backed.distinct
  apart := h.backed.apart

namespace Holding

variable {s t u : Machine} {ptr pages less : Nat} {data : List Nat} {new : Set Nat}

/-- The header is written into a frame of the range. -/
theorem write (h : Holding s t ptr pages data new) (some : 0 < pages)
    (owns : isAllocated (t.leaf (page ptr)) = true) (value : Nat) :
    Holding s (t.write (entryFrame (t.leaf (page ptr))) 0 value) ptr pages data new := by
  have first : Outside (page ptr) := h.range.outside some
  have unused := (h.sane.held _ first owns).notTable
  refine ⟨h.toAcquires.write some owns value, h.count, fun j inside => ?_, h.withdrawn,
    fun frame => ?_, h.distinct, h.apart⟩
  · rw [leaf_write_data unused 0 value (h.range.outside (h.count ▸ inside))]
    exact h.entries j inside
  · rw [isTable_write_data unused 0 value, h.isTable]

theorem low (h : Holding s t ptr pages data new) {frame : Nat} (member : frame ∈ data) :
    frame < 2 ^ 52 :=
  h.withdrawn.frame_lt (.inl member)

theorem returnable (h : Holding s t ptr pages data new) : Returnable t.physicalMemory data :=
  ⟨h.withdrawn.wellFormed, h.withdrawn.aligned, h.distinct,
    fun f member => h.withdrawn.bounded f (.inl member), fun _ member =>
      h.withdrawn.gone (.inl member)⟩

/-- The pages agree when the release reaches the end of the range. -/
theorem pages_iff (h : Holding s t ptr pages data new) (sane : Sane s)
    (released : Releases t u ptr less) (fewer : less ≤ pages) :
    (∀ k, Outside k → u.walk k = s.walk k) ↔ less = pages := by
  constructor
  · intro same
    by_contra different
    have inside : less < pages := by omega
    have outside := h.range.outside inside
    have before := h.unmapped sane inside
    have short : less < data.length := h.count.symm ▸ inside
    have kept : u.leaf (page ptr + less) = dataEntry data[less] := by
      rw [released.leaf _ outside (by simp), h.entries less short]
    rw [← same _ outside, walk_absent, kept,
      (dataEntry_fields (h.low (List.getElem_mem short))).1] at before
    exact absurd before (by decide)
  · rintro rfl k outside
    exact h.walk_restored sane released outside

/-- The physical pool agrees when it had a slot for each frame. -/
theorem frames_iff (h : Holding s t ptr pages data new) (sane : Sane s)
    (released : Releases t u ptr less) (fewer : less ≤ pages) :
    (∀ a, a ∈ u.physicalMemory.free ↔ a ∈ s.physicalMemory.free ∧ ¬ t.IsTable (a / 4096)) ↔
      less = pages ∧ Roomy t.physicalMemory data := by
  have goal : ∀ a, (a ∈ s.physicalMemory.free ∧ ¬ t.IsTable (a / 4096)) ↔
      (a ∈ t.physicalMemory.free ∨ a / 4096 ∈ data) := by
    intro a
    have noTable : a ∈ s.physicalMemory.free → ¬ s.IsTable (a / 4096) := fun free used =>
      Set.disjoint_left.mp (sane.tables _ used) (mem_frameRange.mpr rfl) free
    rw [h.isTable, h.withdrawn.free, Set.mem_union, Set.mem_ofPred_eq]
    constructor
    · rintro ⟨free, unused⟩
      by_cases member : a / 4096 ∈ data
      · exact .inr member
      · exact .inl ⟨free, fun either => either.elim member fun table => unused (.inr table)⟩
    · rintro (⟨free, outside⟩ | member)
      · exact ⟨free, fun used => used.elim (noTable free) fun table => outside (.inr table)⟩
      · have free := h.withdrawn.taken _ (.inl member) (mem_frameRange.mpr rfl)
        exact ⟨free, fun used => used.elim (noTable free) (h.apart _ member)⟩
  have pool : u.physicalMemory = returnFrames t.physicalMemory (data.take less) := by
    rw [released.physicalMemory,
      ownedFrames_data (h.count.symm ▸ fewer) h.entries fun f member => h.low member]
  simp only [goal, pool]
  by_cases whole : less = pages
  · rw [whole, ← h.count, List.take_length, h.returnable.free_iff, and_iff_right rfl]
  · refine iff_of_false (fun all => ?_) fun both => whole both.1
    have short : less < data.length := by
      rw [h.count]
      omega
    have start : data[less] * 4096 / 4096 = data[less] := Nat.mul_div_cancel _ (by decide)
    have some : Returnable t.physicalMemory (data.take less) :=
      ⟨h.returnable.wellFormed, h.returnable.aligned, h.distinct.sublist (List.take_sublist _ _),
        fun f member => h.returnable.bounded f (List.mem_of_mem_take member),
        fun f member => h.returnable.apart f (List.mem_of_mem_take member)⟩
    have member : data[less] ∈ data := List.getElem_mem short
    rcases some.subset ((all (data[less] * 4096)).mpr (.inr (start.symm ▸ member))) with free |
      early
    · exact Set.disjoint_left.mp (h.returnable.apart _ member) (frame_mem _) free
    · rw [start] at early
      refine List.disjoint_take_drop h.distinct le_rfl early ?_
      rw [List.drop_eq_getElem_cons short]
      exact List.mem_cons_self

/-- A release undoes an acquisition exactly when it reaches the end of the range
    and finds room in both pools. -/
theorem inverse_iff (h : Holding s t ptr pages data new) (sane : Sane s)
    (released : Releases t u ptr less) (some : 0 < pages) (fewer : less ≤ pages) :
    Inverse s t u ↔ less = pages ∧ ¬ t.virtualMemory.Saturated ∧ Roomy t.physicalMemory data := by
  constructor
  · intro inverse
    obtain ⟨whole, room⟩ := (h.toAcquires.ranges_iff released some fewer).mp inverse.ranges
    exact ⟨whole, room, ((h.frames_iff sane released fewer).mp inverse.frames).2⟩
  · rintro ⟨whole, room, roomy⟩
    exact ⟨(h.pages_iff sane released fewer).mpr whole,
      (h.toAcquires.ranges_iff released some fewer).mpr ⟨whole, room⟩,
      (h.frames_iff sane released fewer).mpr ⟨whole, roomy⟩⟩

theorem ownedFrames_eq (h : Holding s t ptr pages data new) :
    ownedFrames t.leaf (page ptr) pages = data := by
  have all := ownedFrames_data h.count.ge h.entries fun f member => h.low member
  rwa [← h.count, List.take_length, h.count] at all

end Holding

/-! ## Release after acquisition -/

section Pairs

variable {s t : Machine} {ptr n : Nat}

/-- `unmapMemory` on a pointer into the first page of a range just acquired. -/
theorem Acquires.unmapMemory {pages offset : Nat} (h : Acquires s t ptr pages) (nonnull : ptr ≠ 0)
    (small : offset < 4096) (span : (offset + n + 4095) / 4096 ≤ pages) :
    ∃ u, unmapMemory (ptr + offset) n t = .ok () u ∧
    Releases t u ptr ((offset + n + 4095) / 4096) := by
  have kept := kept_plain h nonnull small span
  have released := unmapMemory_spec h.sane kept.nonnull kept.bounded
  rw [kept.base, span_offset h.range.aligned small] at released
  exact released (h.range.shorter span) (kept.apart.mono_left (addresses_mono span))

/-- The sizes at which both roundings agree. -/
theorem rounding_iff : (0 + n + 4095) / 4096 = (n + 4103) / 4096 ↔
    1 ≤ n % 4096 ∧ n % 4096 ≤ 4088 := by
  omega

/-- The condition under which a release undoes an acquisition of `n` bytes at the
    given address, read off the size and the machine before the release. -/
def Undoable (t : Machine) (base n : Nat) : Prop :=
  (1 ≤ n % 4096 ∧ n % 4096 ≤ 4088) ∧ ¬ t.virtualMemory.Saturated ∧
    Roomy t.physicalMemory (ownedFrames t.leaf (page base) ((n + 4103) / 4096))

theorem Holding.undoable_iff {u : Machine} {data : List Nat} {new : Set Nat}
    (h : Holding s t ptr ((n + 4103) / 4096) data new) (sane : Sane s)
    (released : Releases t u ptr ((0 + n + 4095) / 4096)) : Inverse s t u ↔ Undoable t ptr n := by
  rw [h.inverse_iff sane released (by omega) (by omega), rounding_iff, Undoable, h.ownedFrames_eq]

theorem freeMemory_undoes (sane : Sane s) (small : n + 4103 < 2 ^ 64)
    (fed : Fed (allocateMemory n) s) (got : allocateMemory n s = .ok ptr t) (nonnull : ptr ≠ 0) :
    ∃ u, freeMemory ptr n t = .ok () u ∧ (Inverse s t u ↔ Undoable t ptr n) := by
  obtain ⟨data, new, allocated⟩ := allocateMemory_returns sane fed got nonnull
  rw [pageAlignUp_request small] at allocated
  obtain ⟨u, freed, released⟩ := allocated.toAcquires.unmapMemory nonnull (show 0 < 4096 by decide)
    (show (0 + n + 4095) / 4096 ≤ (n + 4103) / 4096 by omega)
  exact ⟨u, freed, allocated.holding.undoable_iff sane released⟩

theorem kfree_undoes (sane : Sane s) (small : n + 4103 < 2 ^ 64) (fed : Fed (kmalloc n) s)
    (got : kmalloc n s = .ok ptr t) (nonnull : ptr ≠ 0) :
    ∃ u, kfree ptr t = .ok () u ∧ (Inverse s t u ↔ Undoable t (ptr - headerSize) n) := by
  obtain ⟨base, v, data, new, pointer, machine, allocated⟩ :=
    kmalloc_returns sane small fed got nonnull
  have some : 0 < (n + 4103) / 4096 := by omega
  have owns := (allocated.first some).2
  have kept := kept_kmalloc allocated
  obtain ⟨-, -, present, -, size⟩ := kept.header rfl
  have holding := allocated.holding.write some owns n
  rw [← machine] at kept present size holding
  have start : base ≠ 0 := by
    have := holding.range.above some
    omega
  have low : base + 8 < 2 ^ 64 := by
    have := kept.bounded
    simp only at this
    omega
  obtain ⟨u, freed, released⟩ := holding.toAcquires.unmapMemory start (show 0 < 4096 by decide)
    (show (0 + n + 4095) / 4096 ≤ (n + 4103) / 4096 by omega)
  have freeing := kfree_spec holding.range.aligned low present
  rw [size, ← pointer] at freeing
  refine ⟨u, freeing.trans freed, ?_⟩
  rw [pointer, show base + 8 - headerSize = base from Nat.add_sub_cancel _ _]
  exact holding.undoable_iff sane released

/-- A stack is a whole number of pages, so the page of its header stays behind. -/
theorem freeStack_leaks {stackPointer : Nat} (sane : Sane s) (fed : Fed allocateStack s)
    (got : allocateStack s = .ok stackPointer t) (found : stackPointer ≠ defaultStackSize) :
    ∃ u, freeStack stackPointer t = .ok () u ∧ ¬ Inverse s t u := by
  have early : Fed (allocateMemory defaultStackSize) s :=
    Fed.first fed fun _ => .of_same fun _ => rfl
  cases allocated : allocateMemory defaultStackSize s with
  | error fault v =>
      rw [show allocateStack s = .error fault v from bind_error allocated _] at got
      exact nomatch got
  | ok memory v =>
      rw [show allocateStack s = .ok (addToPointer memory defaultStackSize) v
        from bind_ok allocated _] at got
      injection got with pointer machine
      subst machine
      have nonnull : memory ≠ 0 := fun null => found (by rw [← pointer, null]; rfl)
      obtain ⟨data, new, range⟩ := allocateMemory_returns sane early allocated nonnull
      obtain ⟨u, freed, undone⟩ := freeMemory_undoes sane (by decide) early allocated nonnull
      have base : (stackPointer + 2 ^ 64 - defaultStackSize) % 2 ^ 64 = memory := by
        have low := range.range.low
        rw [← pointer]
        simp only [addToPointer, defaultStackSize]
        omega
      refine ⟨u, by rw [freeStack, base, freed], fun inverse => ?_⟩
      exact absurd (undone.mp inverse).1.1 (by decide)

end Pairs

/-- In every state a run can reach, freeing a block or a range just obtained undoes
    the acquisition exactly when the two roundings agree and neither pool is
    saturated at a return. -/
theorem Session.release_inverts_iff {first : Machine} {heapStart heapEnd : Nat}
    (initial : Initial first heapStart heapEnd) {calls : List Call} {s : Session}
    (run : Run Step ⟨first, []⟩ calls s) {n : Nat} (small : n + 4103 < 2 ^ 64) :
    (∀ ptr t, Fed (kmalloc n) s.machine → kmalloc n s.machine = .ok ptr t → ptr ≠ 0 →
      ∃ u, kfree ptr t = .ok () u ∧ (Inverse s.machine t u ↔ Undoable t (ptr - headerSize) n)) ∧
    ∀ ptr t, Fed (allocateMemory n) s.machine → allocateMemory n s.machine = .ok ptr t → ptr ≠ 0 →
      ∃ u, freeMemory ptr n t = .ok () u ∧ (Inverse s.machine t u ↔ Undoable t ptr n) := by
  have sane := (initial.sound.run run).sane
  exact ⟨fun _ _ fed got nonnull => kfree_undoes sane small fed got nonnull,
    fun _ _ fed got nonnull => freeMemory_undoes sane small fed got nonnull⟩

/-- A hundred bytes are given back without a trace. -/
theorem Session.hundred_bytes_undone :
    ∃ u, kfree 0xFFFF800000A00008 ((kmalloc 100).after freshMachine) = .ok () u ∧
      Inverse freshMachine ((kmalloc 100).after freshMachine) u := by
  have got : kmalloc 100 freshMachine = .ok 0xFFFF800000A00008 ((kmalloc 100).after freshMachine) :=
    ok_of_value (by decide +kernel)
  have fed : Fed (kmalloc 100) freshMachine := show 0 ∉ _ by decide +kernel
  have ranges : ((kmalloc 100).after freshMachine).virtualMemory.numBlocks = 1 := by decide +kernel
  have pool : ((kmalloc 100).after freshMachine).physicalMemory.numBlocks = 1 := by decide +kernel
  have frames :
      ownedFrames ((kmalloc 100).after freshMachine).leaf (page (0xFFFF800000A00008 - headerSize))
      ((100 + 4103) / 4096) = [2] := by decide +kernel
  generalize (kmalloc 100).after freshMachine = t at got ranges pool frames ⊢
  obtain ⟨u, freed, undone⟩ :=
    (release_inverts_iff freshMachine_initial (.start _) (n := 100) (by decide)).1 _ t fed
    got (by decide)
  refine ⟨u, freed, undone.mpr ⟨by decide, fun full => ?_, ?_⟩⟩
  · have := full.full
    rw [ranges] at this
    exact absurd this (by decide)
  · rw [frames]
    refine ⟨fun full => ?_, trivial⟩
    have := full.full
    rw [pool] at this
    exact absurd this (by decide)

/-- Of a block of one page and its header only the first page is given back. -/
theorem Session.whole_page_not_undone :
    (kmalloc 4096).value freshMachine = some 0xFFFF800000A00008 ∧
    (kfree 0xFFFF800000A00008).value ((kmalloc 4096).after freshMachine) = some () ∧
    ¬ Inverse freshMachine ((kmalloc 4096).after freshMachine)
      ((kfree 0xFFFF800000A00008).after ((kmalloc 4096).after freshMachine)) := by
  refine ⟨by decide +kernel, by decide +kernel, fun inverse => ?_⟩
  have same := inverse.pages (page 0xFFFF800000A01000) (by decide)
  have before : freshMachine.walk (page 0xFFFF800000A01000) = none := by decide +kernel
  have after : ((kfree 0xFFFF800000A00008).after ((kmalloc 4096).after freshMachine)).walk
      (page 0xFFFF800000A01000) ≠ none := by decide +kernel
  exact after (same.trans before)

end Mykonos.Heap
