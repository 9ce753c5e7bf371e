import Mykonos.Heap.Ownership
import Mykonos.Smp.Shootdown

/-! # Reusing virtual pages

Callers on any processor reserve ranges, map pages into the ranges they hold and
give ranges up with `unmapMemory`. A range goes back to `virtualMemory` only after
every processor has dropped its pages, so no cache of a running processor ever
holds a page that is free.
-/

namespace Mykonos.Smp

open Lib Memory Paging Heap

/-! ## Leases -/

/-- A range of pages reserved from `virtualMemory`. -/
structure Lease where
  base : Nat
  pages : Nat
  deriving Repr, DecidableEq

def Lease.area (lease : Lease) : Set Nat := addresses lease.base lease.pages

/-- The machines, and the leases that callers hold and have not begun to unmap. -/
structure Tenancy where
  machines : Machines
  live : List Lease

namespace Tenancy

/-- What a successful reservation adds. -/
def granted (vm : BlockMap) (size : Nat) : List Lease :=
  if (vm.allocate size).1 = 0 then [] else [⟨(vm.allocate size).1, size / pageSize⟩]

/-- One step of one processor. Ranges are reserved in whole pages, pages are mapped
    into live leases only, and a live lease is unmapped at most once. -/
inductive Step (s : Tenancy) : Machines.Event → Tenancy → Prop where
  | allocateRange {cpu size : Nat} {t : Machines} : size % pageSize = 0 →
      Machines.Step s.machines (.allocateRange cpu size) t →
      Step s (.allocateRange cpu size) ⟨t, granted s.machines.virtualMemory size ++ s.live⟩
  | mapPage {cpu virtualAddress physicalAddress : Nat} {allocated cacheable : Bool} {lease : Lease}
      {t : Machines} :
      lease ∈ s.live → virtualAddress ∈ lease.area →
      Machines.Step s.machines (.mapPage cpu virtualAddress physicalAddress allocated cacheable) t →
      Step s (.mapPage cpu virtualAddress physicalAddress allocated cacheable) ⟨t, s.live⟩
  | unmapMemory {cpu pages : Nat} {lease : Lease} {t : Machines} :
      lease ∈ s.live → pages ≤ lease.pages →
      Machines.Step s.machines (.unmapMemory cpu lease.base pages) t →
      Step s (.unmapMemory cpu lease.base pages) ⟨t, s.live.erase lease⟩
  | fill {cpu n : Nat} {t : Machines} :
      Machines.Step s.machines (.fill cpu n) t → Step s (.fill cpu n) ⟨t, s.live⟩
  | evict {cpu n : Nat} {t : Machines} : Machines.Step s.machines (.evict cpu n) t →
      Step s (.evict cpu n) ⟨t, s.live⟩
  | allocateFrame {cpu : Nat} {t : Machines} : Machines.Step s.machines (.allocateFrame cpu) t →
      Step s (.allocateFrame cpu) ⟨t, s.live⟩
  | advance {cpu : Nat} {t : Machines} : Machines.Step s.machines (.advance cpu) t →
      Step s (.advance cpu) ⟨t, s.live⟩

/-- The steps as a function, `none` where the step cannot be taken. -/
def after? (s : Tenancy) (event : Machines.Event) : Option Tenancy :=
  match event with
  | .allocateRange _ size =>
      if size % pageSize = 0 then
        (s.machines.after? event).map (⟨·, granted s.machines.virtualMemory size ++ s.live⟩)
      else none
  | .mapPage _ virtualAddress _ _ _ =>
      if ∃ lease ∈ s.live, lease.base ≤ virtualAddress ∧ virtualAddress <
        lease.base + lease.pages * 4096 then
        (s.machines.after? event).map (⟨·, s.live⟩)
      else none
  | .unmapMemory _ base pages =>
      match s.live.find? fun lease => lease.base = base ∧ pages ≤ lease.pages with
      | some lease => (s.machines.after? event).map (⟨·, s.live.erase lease⟩)
      | none => none
  | .fill _ _ | .evict _ _ | .allocateFrame _ | .advance _ =>
      (s.machines.after? event).map (⟨·, s.live⟩)

end Tenancy

namespace Machines

/-- No running processor has the page cached, and it cannot come to be cached. -/
structure Dark (s : Machines) (n : Nat) : Prop where
  absent : isPresent (s.leaf n) = false
  uncached : ∀ cpu < s.cpus, s.tlb cpu n = none

end Machines

/-! ## How far an unmapping has come -/

namespace Task

/-- The range being unmapped. -/
def lease : Task → Option Lease
  | .idle => none
  | .returning base pages _ | .clearing base pages _ | .invalidating base pages _
  | .calling base pages _ | .waiting base pages _ _ | .finishing base pages => some ⟨base, pages⟩

/-- The entry of the page with this index has been cleared. -/
def Cleared : Task → Nat → Prop
  | .idle, _ => False
  | .returning _ _ i, j | .clearing _ _ i, j => j < i
  | .invalidating _ _ i, j => j ≤ i
  | .calling _ _ _, _ | .waiting _ _ _ _, _ | .finishing _ _, _ => True

/-- The processor `other` has dropped the page with this index for `cpu`. -/
def Flushed (cpu : Nat) : Task → Nat → Nat → Prop
  | .idle, _, _ => False
  | .returning _ _ i, other, j | .clearing _ _ i, other, j | .invalidating _ _ i, other, j =>
    other = cpu ∧ j < i
  | .calling _ _ target, other, _ => other = cpu ∨ other < target
  | .waiting _ _ target offset, other, j => other = cpu ∨ other < target ∨
      other = target ∧ j < offset
  | .finishing _ _, _, _ => True

theorem Flushed.cleared {cpu other j : Nat} {task : Task} (h : task.Flushed cpu other j) :
    task.Cleared j := by
  cases task with
  | idle => exact h
  | returning | clearing => exact h.2
  | invalidating => exact h.2.le
  | calling | waiting | finishing => trivial

theorem atPage_lease (base pages i : Nat) : (atPage base pages i).lease = some ⟨base, pages⟩ := by
  unfold atPage
  split_ifs <;> rfl

theorem atPage_cleared {base pages i j : Nat} (inside : j < pages)
    (h : (atPage base pages i).Cleared j) : j < i := by
  unfold atPage at h
  split_ifs at h with more
  · exact h
  · omega

theorem atPage_flushed {cpu other base pages i j : Nat} (inside : j < pages)
    (h : (atPage base pages i).Flushed cpu other j) : other = cpu ∧ j < i := by
  unfold atPage at h
  split_ifs at h with more
  · exact h
  · simp only [Flushed, Nat.not_lt_zero, or_false] at h
    exact ⟨h, by omega⟩

end Task

/-! ## The invariant -/

namespace Tenancy

/-- A reserved range is not free, and no other range overlaps it. -/
structure Reserved (s : Tenancy) (lease : Lease) : Prop where
  range : HeapRange lease.base lease.pages
  notFree : Disjoint lease.area s.machines.virtualMemory.free

/-- What the unmapping of a range by a processor has achieved so far. -/
structure Progress (s : Machines) (cpu : Nat) (lease : Lease) : Prop where
  absent : ∀ j < lease.pages, (s.task cpu).Cleared j →
    isPresent (s.leaf (page lease.base + j)) = false
  uncached : ∀ j < lease.pages, ∀ other < s.cpus, (s.task cpu).Flushed cpu other j →
    s.tlb other (page lease.base + j) = none

structure Secure (s : Tenancy) : Prop where
  few : s.machines.cpus ≤ maxCpus
  pool : HeapPool s.machines.virtualMemory
  free : ∀ a ∈ s.machines.virtualMemory.free, s.machines.Dark (page a)
  tables : ∀ n, s.machines.tables (n / 512) = false → s.machines.Dark n
  live : ∀ lease ∈ s.live, s.Reserved lease
  apart : s.live.Pairwise fun lease other => Disjoint lease.area other.area
  leaving : ∀ cpu lease, (s.machines.task cpu).lease = some lease →
    s.Reserved lease ∧ (∀ other ∈ s.live, Disjoint lease.area other.area) ∧
    Progress s.machines cpu lease
  disjoint : ∀ cpu other lease left, cpu ≠ other → (s.machines.task cpu).lease = some lease →
    (s.machines.task other).lease = some left → Disjoint lease.area left.area

section Pages

variable {s : Tenancy} {lease : Lease}

/-- A page of one range is not a page of a disjoint set of heap addresses. -/
theorem page_ne {a b : Nat} (range : HeapRange lease.base lease.pages) (inside : a ∈ lease.area)
    (heap : HeapAddress b) (outside : b ∉ lease.area) : page b ≠ page a := by
  intro same
  refine outside ((range.page_mem heap).mp ?_)
  rw [same]
  exact (range.page_mem (range.heap inside)).mpr inside

theorem index_ne {a j : Nat} {other : Lease} (range : HeapRange lease.base lease.pages)
    (inside : a ∈ lease.area) (leaving : HeapRange other.base other.pages)
    (apart : Disjoint other.area lease.area) (below : j < other.pages) :
    page other.base + j ≠ page a := by
  have address := leaving.address below
  have index := leaving.page below
  have member : other.base + j * 4096 ∈ other.area := ⟨Nat.le_add_right _ _,
    Nat.add_lt_add_left (Nat.mul_lt_mul_of_pos_right below (by decide)) _⟩
  rw [← index, address]
  exact page_ne range inside (leaving.heap member) (Set.disjoint_left.mp apart member)

/-- The page of an iteration. -/
theorem pageAt_eq {i : Nat} (range : HeapRange lease.base lease.pages) (below : i < lease.pages) :
    pageAt lease.base i = page lease.base + i := range.page below

end Pages

section Moves

variable {s : Tenancy} {t : Machines}

/-- Entries and cached pages only disappear. -/
structure Fades (s t : Machines) : Prop where
  cpus : t.cpus = s.cpus
  entries : ∀ n, isPresent (s.leaf n) = false → isPresent (t.leaf n) = false
  tlb : ∀ cpu n, s.tlb cpu n = none → t.tlb cpu n = none

theorem Fades.dark {s : Machines} {n : Nat} (fades : Fades s t) (h : s.Dark n) : t.Dark n where
  absent := fades.entries n h.absent
  uncached cpu running := fades.tlb cpu n (h.uncached cpu (fades.cpus ▸ running))

theorem Fades.progress {s : Machines} {cpu : Nat} {lease : Lease} (fades : Fades s t)
    (same : t.task cpu = s.task cpu) (h : Progress s cpu lease) : Progress t cpu lease where
  absent j below cleared := fades.entries _ (h.absent j below (same ▸ cleared))
  uncached j below other running flushed :=
    fades.tlb other _ (h.uncached j below other (fades.cpus ▸ running) (same ▸ flushed))

/-- One processor goes on with its range while entries and cached pages disappear. -/
theorem Secure.moves (h : Secure s) (fades : Fades s.machines t) {cpu : Nat}
    (tables : t.tables = s.machines.tables) (pool : t.virtualMemory = s.machines.virtualMemory)
    (others : ∀ other, other ≠ cpu → t.task other = s.machines.task other)
    (same : (t.task cpu).lease = (s.machines.task cpu).lease)
    (progress : ∀ lease, (s.machines.task cpu).lease = some lease → Progress t cpu lease) :
    Secure ⟨t, s.live⟩ := by
  have leases : ∀ other, (t.task other).lease = (s.machines.task other).lease := by
    intro other
    by_cases here : other = cpu
    · rw [here, same]
    · rw [others other here]
  refine ⟨fades.cpus ▸ h.few, pool ▸ h.pool, ?_, ?_, ?_, h.apart, ?_, ?_⟩
  · intro a held
    exact fades.dark (h.free a (pool ▸ held))
  · intro n missing
    exact fades.dark (h.tables n (tables ▸ missing))
  · intro lease member
    obtain ⟨range, notFree⟩ := h.live lease member
    exact ⟨range, pool ▸ notFree⟩
  · intro other lease leaving
    obtain ⟨⟨range, notFree⟩, elsewhere, before⟩ := h.leaving other lease (leases other ▸ leaving)
    refine ⟨⟨range, pool ▸ notFree⟩, elsewhere, ?_⟩
    by_cases here : other = cpu
    · subst here
      exact progress lease (same ▸ leaving)
    · exact fades.progress (others other here) before
  · intro one two lease left different first second
    exact h.disjoint one two lease left different (leases one ▸ first) (leases two ▸ second)

/-- Steps that leave every range where it is. -/
theorem Secure.stays (h : Secure s) (fades : Fades s.machines t)
    (tables : t.tables = s.machines.tables) (pool : t.virtualMemory = s.machines.virtualMemory)
    (tasks : t.task = s.machines.task) : Secure ⟨t, s.live⟩ := by
  refine h.moves fades tables pool (fun other (_ : other ≠ 0) => congrFun tasks other)
    (by rw [tasks]) ?_
  intro lease leaving
  exact fades.progress (congrFun tasks 0) (h.leaving 0 lease leaving).2.2

theorem invalidate_fades (s : Machines) (cpu n : Nat) : Fades s (s.invalidate cpu n) where
  cpus := rfl
  entries _ absent := absent
  tlb other k empty := by
    rcases cached : (s.invalidate cpu n).tlb other k with _ | frame
    · rfl
    · rw [Machines.invalidate_tlb cached] at empty
      exact absurd empty (by simp)

/-- An entry that can be cached is not the entry of a free page, and not the entry
    of a page that has been dropped. -/
theorem Secure.filled (h : Secure s) {cpu n : Nat} (present : isPresent (s.machines.leaf n) = true)
    (frame : Nat) :
    Secure ⟨{ s.machines with
      tlb := Function.update s.machines.tlb cpu
          (Function.update (s.machines.tlb cpu) n (some frame)) }, s.live⟩ := by
  have kept : ∀ other k, isPresent (s.machines.leaf k) = false → s.machines.tlb other k = none →
      Function.update s.machines.tlb cpu (Function.update (s.machines.tlb cpu) n (some frame))
        other k = none := by
    intro other k absent empty
    have different : k ≠ n := by
      rintro rfl
      rw [present] at absent
      exact absurd absent (by simp)
    by_cases here : other = cpu
    · subst here
      rwa [Function.update_self, Function.update_of_ne different]
    · rwa [Function.update_of_ne here]
  have dark : ∀ k, s.machines.Dark k → Machines.Dark { s.machines with
      tlb :=
        Function.update s.machines.tlb cpu (Function.update (s.machines.tlb cpu) n (some frame)) }
            k :=
    fun k hidden => ⟨hidden.absent,
      fun other running => kept other k hidden.absent (hidden.uncached other running)⟩
  refine ⟨h.few, h.pool, fun a held => dark _ (h.free a held),
    fun k missing => dark _ (h.tables k missing), fun lease member =>
      ⟨(h.live lease member).range, (h.live lease member).notFree⟩, h.apart, ?_, h.disjoint⟩
  intro other lease leaving
  obtain ⟨⟨range, notFree⟩, elsewhere, progress⟩ := h.leaving other lease leaving
  refine ⟨⟨range, notFree⟩, elsewhere, progress.absent, ?_⟩
  intro j below third running flushed
  exact kept third _ (progress.absent j below flushed.cleared)
    (progress.uncached j below third running flushed)

/-- A page of a live range is neither free nor being unmapped. -/
theorem Secure.mapped (h : Secure s) {lease : Lease} {address value : Nat} (member : lease ∈ s.live)
    (inside : address ∈ lease.area) (released : List (Nat × Nat)) :
    Secure ⟨{ s.machines with
      leaf := Function.update s.machines.leaf (page address) value
      tables := Function.update s.machines.tables (page address / 512) true
      released := released }, s.live⟩ := by
  obtain ⟨range, notFree⟩ := h.live lease member
  have elsewhere : ∀ k, k ≠ page address →
      Function.update s.machines.leaf (page address) value k = s.machines.leaf k :=
    fun k different => Function.update_of_ne different _ _
  refine ⟨h.few, h.pool, ?_, ?_,
    fun other listed => ⟨(h.live other listed).range, (h.live other listed).notFree⟩,
    h.apart, ?_, h.disjoint⟩
  · intro a held
    have different :=
      page_ne range inside (h.pool.heap a held) fun again => Set.disjoint_left.mp notFree again held
    exact ⟨(congrArg isPresent (elsewhere _ different)).trans (h.free a held).absent,
      (h.free a held).uncached⟩
  · intro n missing
    by_cases there : n / 512 = page address / 512
    · rw [there] at missing
      simp at missing
    · have different : n ≠ page address := fun same => there (by rw [same])
      have dark := h.tables n ((Function.update_of_ne there _ _).symm.trans missing)
      exact ⟨(congrArg isPresent (elsewhere _ different)).trans dark.absent, dark.uncached⟩
  · intro cpu other leaving
    obtain ⟨⟨held, outside⟩, apart, progress⟩ := h.leaving cpu other leaving
    refine ⟨⟨held, outside⟩, apart, fun j below cleared => ?_, progress.uncached⟩
    have different := index_ne range inside held (apart lease member) below
    exact (congrArg isPresent (elsewhere _ different)).trans (progress.absent j below cleared)

/-- A granted range leaves the pool and overlaps no range that left it before. -/
theorem Secure.reserved (h : Secure s) {size : Nat} (whole : size % pageSize = 0) {vm : BlockMap}
    (taken : vm = (s.machines.virtualMemory.allocate size).2) :
    Secure ⟨{ s.machines with virtualMemory := vm },
      granted s.machines.virtualMemory size ++ s.live⟩ := by
  rcases h.pool.allocate whole with same | ⟨grant, range, pool⟩
  · rw [same] at taken
    subst taken
    rw [granted, same, if_pos rfl, List.nil_append]
    exact h.stays ⟨rfl, fun _ absent => absent, fun _ _ empty => empty⟩ rfl rfl rfl
  · rw [← taken] at grant pool
    have fewer : vm.free ⊆ s.machines.virtualMemory.free := grant.free.subset.trans Set.sdiff_subset
    have area : addresses (s.machines.virtualMemory.allocate size).1 (size / 4096) ⊆
        s.machines.virtualMemory.free := by
      rw [addresses_of_size _ whole]
      exact grant.taken
    have gone :
        Disjoint (addresses (s.machines.virtualMemory.allocate size).1 (size / 4096)) vm.free := by
      rw [addresses_of_size _ whole, grant.free]
      exact Set.disjoint_sdiff_right
    have listed : ∀ lease ∈ granted s.machines.virtualMemory size,
        lease = ⟨(s.machines.virtualMemory.allocate size).1, size / 4096⟩ := by
      intro lease member
      unfold granted at member
      split_ifs at member
      · exact absurd member (by simp)
      · exact List.mem_singleton.mp member
    refine ⟨h.few, pool, fun a held => ⟨(h.free a (fewer held)).absent,
      (h.free a (fewer held)).uncached⟩, fun n missing =>
        ⟨(h.tables n missing).absent, (h.tables n missing).uncached⟩, ?_, ?_, ?_, h.disjoint⟩
    · intro lease member
      rcases List.mem_append.mp member with new | old
      · rw [listed lease new]
        exact ⟨range, gone⟩
      · exact ⟨(h.live lease old).range, (h.live lease old).notFree.mono_right fewer⟩
    · refine List.pairwise_append.mpr ⟨?_, h.apart, ?_⟩
      · unfold granted
        split_ifs
        · exact .nil
        · exact List.pairwise_singleton _ _
      · intro lease new other old
        rw [listed lease new]
        exact ((h.live other old).notFree.mono_right area).symm
    · intro cpu lease leaving
      obtain ⟨⟨held, outside⟩, apart, progress⟩ := h.leaving cpu lease leaving
      refine ⟨⟨held, outside.mono_right fewer⟩, fun other member => ?_,
        ⟨progress.absent, progress.uncached⟩⟩
      rcases List.mem_append.mp member with new | old
      · rw [listed other new]
        exact outside.mono_right area
      · exact apart other old

/-- A live range, or the part of it that a release spans, is handed to the processor. -/
theorem Secure.entered (h : Secure s) {cpu pages : Nat} {lease : Lease} (member : lease ∈ s.live)
    (fewer : pages ≤ lease.pages) (fades : Fades s.machines t)
    (tables : t.tables = s.machines.tables) (pool : t.virtualMemory = s.machines.virtualMemory)
    (tasks : t.task = Function.update s.machines.task cpu (.atPage lease.base pages 0)) :
    Secure ⟨t, s.live.erase lease⟩ := by
  obtain ⟨range, notFree⟩ := h.live lease member
  have part : Lease.area ⟨lease.base, pages⟩ ⊆ lease.area := addresses_mono fewer
  have split :=
    List.pairwise_cons.mp ((List.perm_cons_erase member).pairwise h.apart fun first => first.symm)
  have here : t.task cpu = .atPage lease.base pages 0 := by rw [tasks, Function.update_self]
  have own : (t.task cpu).lease = some ⟨lease.base, pages⟩ := by rw [here, Task.atPage_lease]
  have others : ∀ other, other ≠ cpu → t.task other = s.machines.task other :=
    fun other different => by rw [tasks, Function.update_of_ne different]
  refine ⟨fades.cpus ▸ h.few, pool ▸ h.pool, fun a held => fades.dark (h.free a (pool ▸ held)),
    fun n missing => fades.dark (h.tables n (tables ▸ missing)), ?_, split.2, ?_, ?_⟩
  · intro other listed
    obtain ⟨held, free⟩ := h.live other (List.mem_of_mem_erase listed)
    exact ⟨held, pool ▸ free⟩
  · intro other left leaving
    by_cases same : other = cpu
    · subst same
      obtain rfl := Option.some.inj (own.symm.trans leaving)
      refine ⟨⟨range.shorter fewer, pool ▸ notFree.mono_left part⟩, fun third listed => ?_, ?_, ?_⟩
      · exact (split.1 third listed).mono_left part
      · intro j below cleared
        rw [here] at cleared
        exact absurd (Task.atPage_cleared below cleared) (Nat.not_lt_zero j)
      · intro j below third running flushed
        rw [here] at flushed
        exact absurd (Task.atPage_flushed below flushed).2 (Nat.not_lt_zero j)
    · obtain ⟨⟨held, free⟩, apart, progress⟩ := h.leaving other left (others other same ▸ leaving)
      exact ⟨⟨held, pool ▸ free⟩, fun third listed => apart third (List.mem_of_mem_erase listed),
        fades.progress (others other same) progress⟩
  · have new : ∀ other left, other ≠ cpu → (t.task other).lease = some left →
        Disjoint left.area (Lease.area ⟨lease.base, pages⟩) := by
      intro other left different leaving
      exact ((h.leaving other left (others other different ▸ leaving)).2.1 lease member).mono_right
        part
    intro one two first second different leaving leavingToo
    by_cases same : one = cpu
    · subst same
      obtain rfl := Option.some.inj (own.symm.trans leaving)
      exact (new two second different.symm leavingToo).symm
    · by_cases again : two = cpu
      · subst again
        obtain rfl := Option.some.inj (own.symm.trans leavingToo)
        exact new one first same leaving
      · exact h.disjoint one two first second different (others one same ▸ leaving)
          (others two again ▸ leavingToo)

/-- Every processor has dropped the pages of the range that goes back to the pool. -/
theorem Secure.finished (h : Secure s) {cpu : Nat} {lease : Lease}
    (doing : s.machines.task cpu = .finishing lease.base lease.pages) (fades : Fades s.machines t)
    (tables : t.tables = s.machines.tables)
    (added : t.virtualMemory =
      s.machines.virtualMemory.returnMemory lease.base (lease.pages * 4096))
    (tasks : t.task = Function.update s.machines.task cpu .idle) : Secure ⟨t, s.live⟩ := by
  have own : (s.machines.task cpu).lease = some lease := by rw [doing, Task.lease]
  obtain ⟨⟨range, notFree⟩, apart, progress⟩ := h.leaving cpu _ own
  rw [returnMemory_range _ range] at added
  obtain ⟨pool, more⟩ := h.pool.refill range notFree added
  have others : ∀ other left, (t.task other).lease = some left →
      other ≠ cpu ∧ t.task other = s.machines.task other ∧ (s.machines.task other).lease =
        some left := by
    intro other left leaving
    have different : other ≠ cpu := by
      rintro rfl
      rw [tasks, Function.update_self, Task.lease] at leaving
      exact nomatch leaving
    have same : t.task other = s.machines.task other := by
      rw [tasks, Function.update_of_ne different]
    exact ⟨different, same, same ▸ leaving⟩
  have outside : ∀ area : Set Nat, Disjoint area s.machines.virtualMemory.free →
    Disjoint area lease.area →
      Disjoint area t.virtualMemory.free :=
    fun area first second => (Set.disjoint_union_right.mpr ⟨first, second⟩).mono_right more
  refine ⟨fades.cpus ▸ h.few, pool, ?_,
    fun n missing => fades.dark (h.tables n (tables ▸ missing)), ?_, h.apart, ?_, ?_⟩
  · intro a held
    refine fades.dark ?_
    rcases more held with old | new
    · exact h.free a old
    · obtain ⟨above, below⟩ := (range.page_mem (range.heap new)).mpr new
      obtain ⟨j, index⟩ : ∃ j, page a = page lease.base + j := ⟨page a - page lease.base, by omega⟩
      rw [index]
      refine ⟨progress.absent j (by omega) ?_,
        fun other running => progress.uncached j (by omega) other running ?_⟩
      · rw [doing]
        trivial
      · rw [doing]
        trivial
  · intro left member
    obtain ⟨held, free⟩ := h.live left member
    exact ⟨held, outside _ free (apart left member).symm⟩
  · intro other left leaving
    obtain ⟨different, same, before⟩ := others other left leaving
    obtain ⟨⟨held, free⟩, elsewhere, passed⟩ := h.leaving other left before
    exact ⟨⟨held, outside _ free (h.disjoint other cpu left _ different before own)⟩, elsewhere,
      fades.progress same passed⟩
  · intro one two first second different leaving leavingToo
    exact h.disjoint one two first second different (others one first leaving).2.2
      (others two second leavingToo).2.2

/-- A processor goes on to its next step with the same range. -/
theorem Secure.goesOn (h : Secure s) {cpu : Nat} {lease : Lease} {new : Task}
    (own : (s.machines.task cpu).lease = some lease) (fades : Fades s.machines t)
    (tables : t.tables = s.machines.tables) (pool : t.virtualMemory = s.machines.virtualMemory)
    (tasks : t.task = s.machines.task) (same : new.lease = some lease)
    (absent : ∀ j < lease.pages, new.Cleared j → isPresent (t.leaf (page lease.base + j)) = false)
    (uncached : ∀ j < lease.pages, ∀ other < s.machines.cpus, new.Flushed cpu other j →
      t.tlb other (page lease.base + j) = none) : Secure ⟨t.setTask cpu new, s.live⟩ := by
  have here : (t.setTask cpu new).task cpu = new := Function.update_self _ _ _
  refine h.moves ⟨fades.cpus, fades.entries, fades.tlb⟩ tables pool
    (fun other (different : other ≠ cpu) => ?_) ?_ ?_
  · exact (Function.update_of_ne different _ _).trans (congrFun tasks other)
  · rw [here, same, own]
  · intro left leaving
    obtain rfl := Option.some.inj (own.symm.trans leaving)
    constructor
    · intro j below cleared
      rw [here] at cleared
      exact absent j below cleared
    · intro j below other running flushed
      rw [here] at flushed
      exact uncached j below other (fades.cpus ▸ running) flushed

theorem Fades.refl (s : Machines) : Fades s s :=
  ⟨rfl, fun _ absent => absent, fun _ _ empty => empty⟩

/-- The frame behind a page goes back to the pool, or there is none to give back. -/
theorem Secure.returns (h : Secure s) {cpu base pages i : Nat}
    (doing : s.machines.task cpu = .returning base pages i)
    (step : s.machines.advance cpu = some t) : Secure ⟨t, s.live⟩ := by
  have still := Fades.refl s.machines
  have own : (s.machines.task cpu).lease = some ⟨base, pages⟩ := by rw [doing, Task.lease]
  obtain ⟨⟨range, -⟩, -, before⟩ := h.leaving cpu _ own
  have absent : ∀ j < pages, j < i → isPresent (s.machines.leaf (page base + j)) = false :=
    fun j below done => before.absent j below (doing ▸ done)
  have uncached : ∀ j < pages, ∀ other < s.machines.cpus, other = cpu ∧ j < i →
      s.machines.tlb other (page base + j) = none :=
    fun j below other running done => before.uncached j below other running (doing ▸ done)
  simp only [Machines.advance, doing] at step
  split_ifs at step with made owned
  · obtain rfl := Option.some.inj step
    exact h.goesOn own ⟨rfl, still.entries, still.tlb⟩ rfl rfl rfl rfl absent uncached
  · obtain rfl := Option.some.inj step
    exact h.goesOn own still rfl rfl rfl rfl absent uncached
  · obtain rfl := Option.some.inj step
    have dark : i < pages → s.machines.Dark (page base + i) := fun below =>
      pageAt_eq range below ▸ h.tables _ (Bool.eq_false_iff.mpr made)
    refine h.goesOn own still rfl rfl rfl (Task.atPage_lease _ _ _) (fun j below cleared => ?_)
      fun j below other running flushed => ?_
    · rcases Nat.lt_succ_iff_lt_or_eq.mp (Task.atPage_cleared below cleared) with earlier | rfl
      · exact absent j below earlier
      · exact (dark below).absent
    · obtain ⟨self, bound⟩ := Task.atPage_flushed below flushed
      rcases Nat.lt_succ_iff_lt_or_eq.mp bound with earlier | rfl
      · exact uncached j below other running ⟨self, earlier⟩
      · exact (dark below).uncached other running

theorem Secure.clears (h : Secure s) {cpu base pages i : Nat}
    (doing : s.machines.task cpu = .clearing base pages i)
    (step : s.machines.advance cpu = some t) : Secure ⟨t, s.live⟩ := by
  have still := Fades.refl s.machines
  have own : (s.machines.task cpu).lease = some ⟨base, pages⟩ := by rw [doing, Task.lease]
  obtain ⟨⟨range, -⟩, -, before⟩ := h.leaving cpu _ own
  simp only [Machines.advance, doing] at step
  obtain rfl := Option.some.inj step
  have fades : Fades s.machines { s.machines with
      leaf := Function.update s.machines.leaf (pageAt base i) 0 } := by
    refine ⟨rfl, fun n absent => ?_, still.tlb⟩
    simp only [Function.update_apply]
    split_ifs
    · rfl
    · exact absent
  refine h.goesOn own fades rfl rfl rfl rfl (fun j below cleared => ?_)
    fun j below other running flushed => ?_
  · rcases Nat.lt_or_eq_of_le cleared with earlier | rfl
    · exact fades.entries _ (before.absent j below (doing ▸ earlier))
    · rw [← pageAt_eq range below]
      simp [isPresent]
  · exact before.uncached j below other running (doing ▸ flushed)

theorem Secure.invalidates (h : Secure s) {cpu base pages i : Nat}
    (doing : s.machines.task cpu = .invalidating base pages i)
    (step : s.machines.advance cpu = some t) : Secure ⟨t, s.live⟩ := by
  have own : (s.machines.task cpu).lease = some ⟨base, pages⟩ := by rw [doing, Task.lease]
  obtain ⟨⟨range, -⟩, -, before⟩ := h.leaving cpu _ own
  simp only [Machines.advance, doing] at step
  obtain rfl := Option.some.inj step
  have fades := invalidate_fades s.machines cpu (pageAt base i)
  refine h.goesOn own fades rfl rfl rfl (Task.atPage_lease _ _ _) (fun j below cleared => ?_)
    fun j below other running flushed => ?_
  · exact before.absent j below (doing ▸ Nat.le_of_lt_succ (Task.atPage_cleared below cleared))
  · obtain ⟨rfl, bound⟩ := Task.atPage_flushed below flushed
    rcases Nat.lt_succ_iff_lt_or_eq.mp bound with earlier | rfl
    · exact fades.tlb _ _ (before.uncached j below other running (doing ▸ ⟨rfl, earlier⟩))
    · rw [← pageAt_eq range below]
      simp [Machines.invalidate]

/-- The next processor is called, or need not be. -/
theorem Secure.calls (h : Secure s) {cpu base pages target : Nat}
    (doing : s.machines.task cpu = .calling base pages target)
    (step : s.machines.advance cpu = some t) : Secure ⟨t, s.live⟩ := by
  have still := Fades.refl s.machines
  have own : (s.machines.task cpu).lease = some ⟨base, pages⟩ := by rw [doing, Task.lease]
  obtain ⟨-, -, before⟩ := h.leaving cpu _ own
  have absent : ∀ j < pages, isPresent (s.machines.leaf (page base + j)) = false :=
    fun j below => before.absent j below (doing ▸ trivial)
  have uncached : ∀ j < pages, ∀ other < s.machines.cpus, other = cpu ∨ other < target →
      s.machines.tlb other (page base + j) = none :=
    fun j below other running done => before.uncached j below other running (doing ▸ done)
  simp only [Machines.advance, doing] at step
  split_ifs at step with more self few
  · obtain rfl := Option.some.inj step
    refine h.goesOn own still rfl rfl rfl rfl (fun j below _ => absent j below)
        fun j below other running flushed =>
      uncached j below other running ?_
    simp only [Task.Flushed] at flushed
    omega
  · cases locked : s.machines.mailbox target with
    | none =>
        rw [locked] at step
        obtain rfl := Option.some.inj step
        refine h.goesOn own ⟨rfl, still.entries, still.tlb⟩ rfl rfl rfl rfl
          (fun j below _ => absent j below)
          fun j below other running flushed => uncached j below other running ?_
        simp only [Task.Flushed] at flushed
        omega
    | some caller => simp only [locked, reduceCtorEq] at step
  · exact absurd (more.trans_le h.few) few
  · obtain rfl := Option.some.inj step
    refine h.goesOn own still rfl rfl rfl rfl (fun j below _ => absent j below)
        fun j below other running _ =>
      uncached j below other running (.inr (by omega))

theorem Secure.waits (h : Secure s) {cpu base pages target offset : Nat}
    (doing : s.machines.task cpu = .waiting base pages target offset)
    (step : s.machines.advance cpu = some t) : Secure ⟨t, s.live⟩ := by
  have still := Fades.refl s.machines
  have own : (s.machines.task cpu).lease = some ⟨base, pages⟩ := by rw [doing, Task.lease]
  obtain ⟨⟨range, -⟩, -, before⟩ := h.leaving cpu _ own
  have absent : ∀ j < pages, isPresent (s.machines.leaf (page base + j)) = false :=
    fun j below => before.absent j below (doing ▸ trivial)
  have uncached : ∀ j < pages, ∀ other < s.machines.cpus,
      other = cpu ∨ other < target ∨ other = target ∧ j < offset →
      s.machines.tlb other (page base + j) = none :=
    fun j below other running done => before.uncached j below other running (doing ▸ done)
  simp only [Machines.advance, doing] at step
  split_ifs at step with more
  · obtain rfl := Option.some.inj step
    have fades := invalidate_fades s.machines target (pageAt base offset)
    refine h.goesOn own fades rfl rfl rfl rfl (fun j below _ => absent j below)
      fun j below other running flushed => ?_
    by_cases now : other = target ∧ j = offset
    · obtain ⟨rfl, rfl⟩ := now
      rw [← pageAt_eq range below]
      simp [Machines.invalidate]
    · refine fades.tlb _ _ (uncached j below other running ?_)
      simp only [Task.Flushed] at flushed
      omega
  · obtain rfl := Option.some.inj step
    refine h.goesOn own ⟨rfl, still.entries, still.tlb⟩ rfl rfl rfl rfl
      (fun j below _ => absent j below)
      fun j below other running flushed => uncached j below other running ?_
    simp only [Task.Flushed] at flushed below
    omega

theorem Secure.advance (h : Secure s) {cpu : Nat} (step : s.machines.advance cpu = some t) :
    Secure ⟨t, s.live⟩ := by
  cases doing : s.machines.task cpu with
  | idle => simp only [Machines.advance, doing, reduceCtorEq] at step
  | returning base pages i => exact h.returns doing step
  | clearing base pages i => exact h.clears doing step
  | invalidating base pages i => exact h.invalidates doing step
  | calling base pages target => exact h.calls doing step
  | waiting base pages target offset => exact h.waits doing step
  | finishing base pages =>
      have still := Fades.refl s.machines
      simp only [Machines.advance, doing] at step
      obtain ⟨vm, added⟩ :
          ∃ vm, vm = s.machines.virtualMemory.returnMemory base (pages * pageSize) := ⟨_, rfl⟩
      rw [← added] at step
      obtain rfl := Option.some.inj step
      have ours : s.machines.task cpu = .finishing (Lease.mk base pages).base _ := doing
      exact h.finished ours ⟨rfl, still.entries, still.tlb⟩ rfl added rfl

theorem Secure.step {u : Tenancy} {event : Machines.Event} (h : Secure s) (step : Step s event u) :
    Secure u := by
  have still := Fades.refl s.machines
  cases step with
  | @allocateRange cpu size t whole taken =>
      simp only [Machines.Step, Machines.after?, Option.ite_none_right_eq_some,
        Option.some.injEq] at taken
      obtain ⟨vm, made⟩ : ∃ vm, vm = (s.machines.virtualMemory.allocate size).2 := ⟨_, rfl⟩
      rw [← made] at taken
      obtain ⟨-, rfl⟩ := taken
      exact h.reserved whole made
  | mapPage member inside mapped =>
      simp only [Machines.Step, Machines.after?, Option.ite_none_right_eq_some,
        Option.some.injEq] at mapped
      obtain ⟨-, rfl⟩ := mapped
      exact h.mapped member inside _
  | unmapMemory member fewer entered =>
      simp only [Machines.Step, Machines.after?, Option.ite_none_right_eq_some,
        Option.some.injEq] at entered
      obtain ⟨-, rfl⟩ := entered
      exact h.entered member fewer ⟨rfl, still.entries, still.tlb⟩ rfl rfl rfl
  | fill filled =>
      simp only [Machines.Step, Machines.after?, Option.ite_none_right_eq_some,
        Option.some.injEq] at filled
      obtain ⟨⟨-, present⟩, rfl⟩ := filled
      exact h.filled present _
  | evict evicted =>
      simp only [Machines.Step, Machines.after?, Option.ite_none_right_eq_some,
        Option.some.injEq] at evicted
      obtain ⟨-, rfl⟩ := evicted
      exact h.stays (invalidate_fades _ _ _) rfl rfl rfl
  | allocateFrame taken =>
      simp only [Machines.Step, Machines.after?, Option.ite_none_right_eq_some,
        Option.some.injEq] at taken
      obtain ⟨-, rfl⟩ := taken
      exact h.stays ⟨rfl, still.entries, still.tlb⟩ rfl rfl rfl
  | advance advanced =>
      simp only [Machines.Step, Machines.after?, Option.ite_none_right_eq_some] at advanced
      exact h.advance advanced.2

end Moves

/-- Two processors and an empty heap of one page. -/
def vacant : Machines where
  cpus := 2
  leaf _ := 0
  tables _ := false
  physicalMemory := ⟨[]⟩
  virtualMemory := ⟨[⟨0xFFFF800000A00000, 0xFFFF800000A01000⟩]⟩
  tlb _ _ := none
  mailbox _ := none
  task _ := .idle

end Tenancy

end Mykonos.Smp
