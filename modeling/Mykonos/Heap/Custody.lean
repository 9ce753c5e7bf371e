import Mykonos.Heap.Ownership
import Mykonos.Heap.Release

/-! # What the heap was given

The heap works with the frames and the virtual range that the boot code hands over. Along a
run of calls that return no other frame comes into the pool, backs a page or becomes a
table, and no page without the virtual range changes its entry.
-/

namespace Mykonos.Heap

open Lib Memory Paging

variable {first s t u : Machine}

/-! ## Two machines -/

/-- The frames of the second machine are frames of the first, and its entries are the same
    outside the virtual range. -/
structure Custody (first s : Machine) : Prop where
  pool : s.physicalMemory.free ⊆ first.physicalMemory.free
  tables : ∀ frame, s.IsTable frame → first.IsTable frame ∨ frameRange frame ⊆
    first.physicalMemory.free
  owned : ∀ k, Outside k → isAllocated (s.leaf k) = true →
    s.leaf k = first.leaf k ∨ frameRange (entryFrame (s.leaf k)) ⊆ first.physicalMemory.free
  virtual : s.virtualMemory.free ⊆ first.virtualMemory.free
  leaf : ∀ k, Outside k → k ∉ page '' first.virtualMemory.free → s.leaf k = first.leaf k

theorem Custody.refl (s : Machine) : Custody s s :=
  ⟨subset_rfl, fun _ => .inl, fun _ _ _ => .inl rfl, subset_rfl, fun _ _ _ => rfl⟩

/-- What a call that acquires may have done with frames. -/
structure Supplied (s t : Machine) : Prop where
  pool : t.physicalMemory.free ⊆ s.physicalMemory.free
  tables : ∀ frame, t.IsTable frame → s.IsTable frame ∨ frameRange frame ⊆ s.physicalMemory.free
  owned : ∀ k, Outside k → isAllocated (t.leaf k) = true →
    t.leaf k = s.leaf k ∨ frameRange (entryFrame (t.leaf k)) ⊆ s.physicalMemory.free

theorem pages_image {ptr pages k : Nat} (range : HeapRange ptr pages)
    (inside : k ∈ Set.Ico (page ptr) (page ptr + pages)) : k ∈ page '' addresses ptr pages := by
  obtain ⟨j, rfl⟩ : ∃ j, k = page ptr + j := ⟨k - page ptr, by have := inside.1; omega⟩
  have short : j < pages := by
    have := inside.2
    omega
  refine ⟨ptr + j * 4096, ⟨Nat.le_add_right _ _, ?_⟩, ?_⟩
  · exact Nat.add_lt_add_left (Nat.mul_lt_mul_of_pos_right short (by decide)) ptr
  · rw [← range.address short, range.page short]

/-- Custody goes on through a call that acquires. -/
theorem Custody.acquires {ptr pages : Nat} (h : Custody first s) (acquired : Acquires s t ptr pages)
    (supplied : Supplied s t) : Custody first t where
  pool := supplied.pool.trans h.pool
  tables frame used := by
    rcases supplied.tables frame used with old | fresh
    · exact h.tables frame old
    · exact .inr (fresh.trans h.pool)
  owned k outside owns := by
    rcases supplied.owned k outside owns with old | fresh
    · rw [old] at owns ⊢
      exact h.owned k outside owns
    · exact .inr (fresh.trans h.pool)
  virtual := acquired.free.subset.trans (Set.sdiff_subset.trans h.virtual)
  leaf k outside apart := by
    rw [acquired.leaf k outside fun inside => apart ?_, h.leaf k outside apart]
    exact Set.image_mono (acquired.taken.trans h.virtual) (pages_image acquired.range inside)

/-! ## Calls that acquire -/

theorem Supplied.of_same (tables : ∀ frame, t.IsTable frame ↔ s.IsTable frame)
    (pool : t.physicalMemory = s.physicalMemory)
    (leaf : ∀ k, Outside k → t.leaf k = s.leaf k) : Supplied s t :=
  ⟨by rw [pool], fun frame used => .inl ((tables frame).mp used),
    fun k outside _ => .inl (leaf k outside)⟩

/-- Taking a range out of the virtual pool changes no table. -/
theorem Supplied.virtual (s : Machine) (vm : BlockMap) :
    Supplied s { s with virtualMemory := vm } :=
  .of_same (fun _ => Iff.rfl) rfl fun _ _ => rfl

/-- Entries that own frames from the pool, or none. -/
theorem Rewritten.supplied {vm : BlockMap} {n : Nat} {entries : List Nat} {new frames : Set Nat}
    (h : Rewritten { s with virtualMemory := vm } t n entries new)
    (withdrawn : Withdrawn s.physicalMemory t.physicalMemory frames) (tables : new ⊆ frames)
    (owned : ∀ entry ∈ entries, isAllocated entry = true → entryFrame entry ∈ frames) :
      Supplied s t where
  pool := withdrawn.subset
  tables frame used :=
    ((h.isTable frame).mp used).imp id fun fresh => withdrawn.taken frame (tables fresh)
  owned k outside owns := by
    have entry := h.leaf k outside
    by_cases inside : n ≤ k ∧ k < n + entries.length
    · obtain ⟨j, rfl⟩ := Nat.exists_eq_add_of_le inside.1
      have short : j < entries.length := by omega
      rw [overlay_inside short] at entry
      rw [entry] at owns ⊢
      exact .inr (withdrawn.taken _ (owned _ (List.getElem_mem short) owns))
    · rw [overlay_outside (by omega)] at entry
      exact .inl entry

theorem mapEntries_plain {target j rest : Nat} {cacheable : Bool} {entry : Nat}
    (member : entry ∈ mapEntries target cacheable j rest) : isAllocated entry = false := by
  obtain ⟨d, -, rfl⟩ := List.mem_map.mp member
  have bounded := addToPointer_lt target ((j + d) * 4096)
  rw [leafEntry_eq bounded]
  exact (leafEntry_fields (by omega) false cacheable).2.1

theorem Allocated.supplied {ptr pages : Nat} {data : List Nat} {new : Set Nat}
    (h : Allocated s t ptr pages data new) :
    Supplied s t := by
  refine h.backed.rewritten.supplied h.backed.withdrawn Set.subset_union_right fun entry member _ =>
    ?_
  obtain ⟨frame, inside, rfl⟩ := List.mem_map.mp member
  rw [(dataEntry_fields (h.bounded inside)).2.2]
  exact .inl inside

/-- The header changes no entry. -/
theorem Supplied.write (h : Supplied s t) {frame : Nat} (unused : ¬ t.IsTable frame)
    (i value : Nat) :
    Supplied s (t.write frame i value) where
  pool := h.pool
  tables table used := h.tables table ((isTable_write_data unused i value table).mp used)
  owned k outside owns := by
    rw [leaf_write_data unused i value outside] at owns ⊢
    exact h.owned k outside owns

/-- An allocation that returns null leaves all but the virtual pool as it was. -/
theorem allocateMemory_null {n : Nat} (got : allocateMemory n s = .ok 0 t) : Supplied s t := by
  obtain ⟨ptr, vm, allocated⟩ : ∃ ptr vm,
      virtualAllocate (pageAlignUp ((n + headerSize) % 2 ^ 64)) s =
        .ok ptr { s with virtualMemory := vm } :=
    ⟨_, _, rfl⟩
  have start : allocateMemory n s = _ := bind_ok allocated _
  rw [got] at start
  by_cases null : ptr = 0
  · rw [if_pos null] at start
    injection start with _ machine
    exact machine ▸ .virtual s vm
  · rw [if_neg null] at start
    cases looped :
        forPages (allocateMemoryBody ptr) (pageAlignUp ((n + headerSize) % 2 ^ 64) / pageSize) 0
        { s with virtualMemory := vm } with
    | error fault u =>
        rw [bind_error looped] at start
        exact nomatch start
    | ok value u =>
        rw [bind_ok looped] at start
        injection start with same
        exact absurd same.symm null

/-- `mapAddress` takes frames for tables only. -/
theorem mapAddress_supplied {address n ptr : Nat} {cacheable : Bool} (sane : Sane s)
    (bounded : address + n + 4095 < 2 ^ 64) (fed : Fed (mapAddress address n cacheable) s)
    (got : mapAddress address n cacheable s = .ok ptr t) : Supplied s t := by
  have whole : spanPages address n * 4096 % 4096 = 0 := Nat.mul_mod_left _ _
  have count : spanPages address n * 4096 / 4096 = spanPages address n :=
    Nat.mul_div_cancel _ (by decide)
  obtain ⟨base, vm, allocated, sane', outcome⟩ := virtualAllocate_spec sane whole
  have start := mapAddress_start cacheable (span_size bounded) allocated
  by_cases null : base = 0
  · rw [got, if_pos null] at start
    injection start with _ machine
    exact machine ▸ .virtual s vm
  · have range := (outcome.resolve_left fun failed => null failed.1).2
    rw [count] at range
    have loop :
        Fed (forPages (mapAddressBody base (pageAlignDown address) cacheable) (spanPages address n)
        (0 * 4096)) { s with virtualMemory := vm } := by
      rw [Fed, Kernel.after, start, if_neg null] at fed
      rw [Nat.zero_mul]
      exact Fed.first fed fun _ => .of_same fun _ => rfl
    obtain ⟨u, new, looped, rewritten, withdrawn, -⟩ :=
      forPages_maps range (Nat.zero_add _) sane'.toOwned loop
    rw [Nat.zero_mul] at looped
    rw [got, if_neg null, bind_ok looped] at start
    injection start with _ machine
    rw [machine]
    refine rewritten.supplied withdrawn subset_rfl fun entry member owns => ?_
    rw [mapEntries_plain member] at owns
    exact absurd owns Bool.false_ne_true

/-- A call that acquires and returns has supplied its pages from the pool. -/
theorem acquiring_supplied {call : Call} (sane : Sane s) (acquiring : call.Acquiring)
    (fed : Fed call.run s) {ptr : Nat} (got : call.run s = .ok ptr t) : Supplied s t := by
  cases call with
  | allocateMemory size =>
      by_cases null : ptr = 0
      · exact allocateMemory_null (null ▸ got)
      · obtain ⟨data, new, allocated⟩ := allocateMemory_returns sane fed got null
        exact allocated.supplied
  | kmalloc size =>
      have early : Fed (allocateMemory size) s := Fed.first fed fun base =>
        .of_draws (.ite (.pure 0) ((Draws.store base size).bind fun _ => .pure _))
      rcases allocateMemory_spec sane early rfl with
          ⟨u, null, -⟩ | ⟨base, u, data, new, returned, nonnull, allocated⟩ |
        ⟨base, u, stopped, -⟩
      · have whole : kmalloc size s = .ok 0 u := bind_ok null _
        obtain rfl : u = t := by
          rw [show kmalloc size s = .ok ptr t from got] at whole
          injection whole with _ same
          exact same.symm
        exact allocateMemory_null null
      · rw [pageAlignUp_request acquiring] at allocated
        have some : 0 < (size + 4103) / 4096 := by omega
        obtain ⟨present, owns⟩ := allocated.first some
        have storing := store_ok ((translate_eq u base).trans (child_some.mpr ⟨present, rfl⟩)) size
        have whole : kmalloc size s =
            .ok (addToPointer base headerSize)
              (u.write (entryFrame (u.leaf (page base))) (base % 4096 / 8) size) := by
          refine (bind_ok returned _).trans ?_
          rw [if_neg nonnull]
          exact bind_ok storing _
        rw [show kmalloc size s = .ok ptr t from got] at whole
        injection whole with _ machine
        rw [machine]
        exact allocated.supplied.write
          (allocated.sane.held _ (allocated.range.outside some) owns).notTable _ size
      · have whole : kmalloc size s = .error _ u := bind_error stopped _
        rw [show kmalloc size s = .ok ptr t from got] at whole
        exact nomatch whole
  | mapAddress address size cacheable => exact mapAddress_supplied sane acquiring fed got
  | kfree | freeMemory | unmapMemory => exact acquiring.elim

/-! ## Calls that release -/

/-- Nothing but the returned frames becomes free. -/
theorem returnFrames_subset {pm : BlockMap} (tidy : pm.Tidy) {frames : List Nat}
    (bounded : ∀ frame ∈ frames, frame * 4096 + 4096 < 2 ^ 64) {U : Set Nat} (inside : pm.free ⊆ U)
    (all : ∀ frame ∈ frames, frameRange frame ⊆ U) : (returnFrames pm frames).free ⊆ U := by
  induction frames generalizing pm with
  | nil => exact inside
  | cons frame frames ih =>
      have fits := bounded frame List.mem_cons_self
      have formed := frameBlock_wellFormed fits
      have subset := BlockMap.addBlock_free_subset tidy formed
      rw [← returnFrame_eq fits] at subset
      have next := BlockMap.addBlock_tidy tidy formed
      rw [← returnFrame_eq fits] at next
      refine ih next
        (fun f member => bounded f (List.mem_cons_of_mem _ member)) ?_
          fun f member => all f (List.mem_cons_of_mem _ member)
      exact subset.trans (Set.union_subset inside (all frame List.mem_cons_self))

theorem mem_ownedFrames {leaf : Nat → Nat} {n pages frame : Nat}
    (member : frame ∈ ownedFrames leaf n pages) :
    ∃ k, n ≤ k ∧ k < n + pages ∧ isAllocated (leaf k) = true ∧ entryFrame (leaf k) = frame := by
  induction pages generalizing n with
  | zero => simp [ownedFrames] at member
  | succ pages ih =>
      rcases List.mem_append.mp member with here | later
      · split_ifs at here with owns
        · exact ⟨n, le_rfl, by omega, owns, (List.mem_singleton.mp here).symm⟩
        · simp at here
      · obtain ⟨k, above, below, found⟩ := ih later
        exact ⟨k, by omega, by omega, found⟩

/-- Custody goes on through a call that releases pages of its own. -/
theorem Custody.releases {base pages : Nat} (h : Custody first s) (sane : Sane s)
    (range : HeapRange base pages) (own : addresses base pages ⊆ first.virtualMemory.free)
    (fresh : ∀ k, Outside k → k ∈ Set.Ico (page base) (page base + pages) →
      isAllocated (s.leaf k) = true →
      frameRange (entryFrame (s.leaf k)) ⊆ first.physicalMemory.free)
    (released : Releases s t base pages) : Custody first t where
  pool := by
    have outside : ∀ k, page base ≤ k → k < page base + pages → Outside k := by
      intro k above below
      obtain ⟨j, rfl⟩ := Nat.exists_eq_add_of_le above
      exact range.outside (by omega)
    rw [released.physicalMemory]
    refine returnFrames_subset sane.wellFormed.toTidy (fun frame member => ?_) h.pool
      fun frame member => ?_
    · obtain ⟨k, above, below, owns, rfl⟩ := mem_ownedFrames member
      exact (sane.held k (outside k above below) owns).bounded
    · obtain ⟨k, above, below, owns, rfl⟩ := mem_ownedFrames member
      exact fresh k (outside k above below) ⟨above, below⟩ owns
  tables frame used := h.tables frame ((released.isTable frame).mp used)
  owned k outside owns := by
    by_cases inside : k ∈ Set.Ico (page base) (page base + pages)
    · rw [released.inside k outside inside] at owns
      exact absurd owns (by decide)
    · rw [released.leaf k outside inside] at owns ⊢
      exact h.owned k outside owns
  virtual := (released.free_subset sane range).trans (Set.union_subset h.virtual own)
  leaf k outside apart := by
    rw [released.leaf k outside fun inside => apart ?_, h.leaf k outside apart]
    exact Set.image_mono own (pages_image range inside)

/-! ## Runs -/

/-- A step whose call returns. A kernel that has stopped makes no further call. -/
def Session.Returns (s : Session) (call : Call) (t : Session) : Prop :=
  Session.Step s call t ∧ ∃ ptr machine, call.run s.machine = .ok ptr machine

/-- The invariant of a session with what the heap was given. -/
structure Entrusted (first : Machine) (s : Session) : Prop where
  sound : s.Sound
  custody : Custody first s.machine
  regions : ∀ r ∈ s.live, r.area ⊆ first.virtualMemory.free

theorem Entrusted.start {heapStart heapEnd : Nat}
    (initial : Session.Initial first heapStart heapEnd) :
    Entrusted first ⟨first, []⟩ :=
  ⟨initial.sound, .refl first, by simp⟩

theorem Entrusted.step {s t : Session} {call : Call} (h : Entrusted first s)
    (plain : ∀ k, Outside k → isAllocated (first.leaf k) = false) (step : s.Returns call t) :
    Entrusted first t := by
  obtain ⟨taken, value, machine, returned⟩ := step
  refine ⟨h.sound.step taken, ?_, ?_⟩
  · cases taken with
    | acquire acquiring fed =>
        obtain ⟨u, ptr, pages, acquired, outcome⟩ := acquiring_outcome h.sound.sane acquiring fed
        have same : call.run.after s.machine = u := by
          rcases outcome with ⟨fault, stopped⟩ | null | ⟨p, r, got, -⟩
          · rw [Kernel.after, stopped]
          · rw [Kernel.after, null]
          · rw [Kernel.after, got]
        have supplied := acquiring_supplied h.sound.sane acquiring fed returned
        rw [← show call.run.after s.machine = machine by rw [Kernel.after, returned]] at supplied
        exact h.custody.acquires (same ▸ acquired) supplied
    | @release r member releasing =>
        have kept := h.sound.kept r member
        obtain ⟨u, pages, got, fewer, released⟩ := releasing_outcome h.sound.sane kept releasing
        rw [← show call.run.after s.machine = u by rw [Kernel.after, got]] at released
        have own := (addresses_mono fewer).trans (h.regions r member)
        refine h.custody.releases h.sound.sane (kept.range.shorter fewer) own
          (fun k outside inside owns => ?_) released
        rcases h.custody.owned k outside owns with old | fresh
        · rw [old, plain k outside] at owns
          exact absurd owns Bool.false_ne_true
        · exact fresh
  · cases taken with
    | acquire acquiring fed =>
        obtain ⟨u, ptr, pages, acquired, outcome⟩ := acquiring_outcome h.sound.sane acquiring fed
        rcases outcome with ⟨fault, stopped⟩ | null | ⟨p, r, got, nonnull, obtained, -, area⟩
        · simp only [Session.record, stopped]
          exact h.regions
        · simp only [Session.record, null, if_true]
          exact h.regions
        · simp only [Session.record, got, nonnull, if_false, obtained, Option.toList_some,
            List.singleton_append]
          exact List.forall_mem_cons.mpr ⟨area ▸ acquired.taken.trans h.custody.virtual, h.regions⟩
    | release => exact fun r member => h.regions r (List.mem_of_mem_erase member)

/-- Along every run of calls that return, the heap keeps to the frames and the range it was
    given. -/
theorem Entrusted.run {heapStart heapEnd : Nat} {calls : List Call} {t : Session}
    (initial : Session.Initial first heapStart heapEnd)
    (run : Run Session.Returns ⟨first, []⟩ calls t) :
    Entrusted first t :=
  run.invariant (.start initial) fun _ _ _ kept step => kept.step initial.plain step

end Mykonos.Heap
