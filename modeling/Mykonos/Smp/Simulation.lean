import Mykonos.Heap.Loops
import Mykonos.Smp.Shootdown

/-! # One processor by itself

Left alone, a processor that goes through the steps of `mapPage` or `unmapMemory`
does to the entries and the pools what the call does to the machine of the
paging modules.
-/

namespace Mykonos.Smp

open Lib Memory Paging Heap

/-- The leaf entries and the pools are those of the machine. -/
structure Represents (s : Machine) (m : Machines) : Prop where
  leaf : ∀ n, Outside n → m.leaf n = s.leaf n
  absent : ∀ n, Outside n → m.tables (n / 512) = false → s.leaf n = 0
  physicalMemory : m.physicalMemory = s.physicalMemory
  virtualMemory : m.virtualMemory = s.virtualMemory

/-- The machine after the entry of a page is cleared, and its frame returned. -/
theorem Represents.cleared {s t : Machine} {m m' : Machines} {n : Nat} (shown : Represents s m)
    (edited : Edited s t n 0 []) (leaf : ∀ k, Outside k → m'.leaf k = if k = n then 0 else m.leaf k)
    (tables : m'.tables = m.tables) (frames : m'.physicalMemory = t.physicalMemory)
    (ranges : m'.virtualMemory = m.virtualMemory) : Represents t m' where
  leaf k outside := by rw [leaf k outside, edited.leaf k outside, shown.leaf k outside]
  absent k outside missing := by
    rw [edited.leaf k outside, shown.absent k outside (tables ▸ missing), ite_self]
  physicalMemory := frames
  virtualMemory := by rw [ranges, shown.virtualMemory, edited.virtualMemory]

/-- The caches, the mailboxes and the tasks are no part of the machine. -/
theorem Represents.congr {s : Machine} {m m' : Machines} (shown : Represents s m)
    (leaf : m'.leaf = m.leaf) (tables : m'.tables = m.tables)
    (frames : m'.physicalMemory = m.physicalMemory) (ranges : m'.virtualMemory = m.virtualMemory) :
    Represents s m' :=
  ⟨leaf ▸ shown.leaf, tables ▸ shown.absent, frames ▸ shown.physicalMemory,
    ranges ▸ shown.virtualMemory⟩

namespace Machines

/-- The processor alone has run inside `unmapMemory`. -/
def Advances (cpu : Nat) (m m' : Machines) : Prop :=
  ∃ k, Run Step m (List.replicate k (.advance cpu)) m'

/-- It has arrived at the given step, with the mailboxes as they were. -/
structure Reaches (cpu : Nat) (m : Machines) (task : Task) (m' : Machines) : Prop where
  advances : Advances cpu m m'
  task : m'.task cpu = task
  cpus : m'.cpus = m.cpus
  mailbox : m'.mailbox = m.mailbox

section Alone

variable {cpu base pages : Nat} {s : Machine} {m m' : Machines}

theorem Advances.trans {m'' : Machines} (first : Advances cpu m m') (second : Advances cpu m' m'') :
    Advances cpu m m'' := by
  obtain ⟨j, left⟩ := first
  obtain ⟨k, right⟩ := second
  refine ⟨j + k, ?_⟩
  rw [List.replicate_add]
  exact left.trans right

theorem Advances.step (here : cpu < m.cpus) (next : m.advance cpu = some m') :
    Advances cpu m m' := by
  refine ⟨1, .single ?_⟩
  simp only [Step, after?, if_pos here, next]

theorem Reaches.refl {task : Task} (doing : m.task cpu = task) : Reaches cpu m task m :=
  ⟨⟨0, .start m⟩, doing, rfl, rfl⟩

theorem Reaches.trans {m'' : Machines} {task last : Task} (first : Reaches cpu m task m')
    (second : Reaches cpu m' last m'') : Reaches cpu m last m'' :=
  ⟨first.advances.trans second.advances, second.task, second.cpus.trans first.cpus,
    second.mailbox.trans first.mailbox⟩

theorem Reaches.step {u : Machines} {task : Task} (here : cpu < m.cpus)
    (next : m.advance cpu = some (u.setTask cpu task)) (cpus : u.cpus = m.cpus)
    (mailbox : u.mailbox = m.mailbox) :
    Reaches cpu m task (u.setTask cpu task) :=
  ⟨.step here next, by simp [setTask], cpus, mailbox⟩

/-- The first half of `unmapPage`, for a page with a table. -/
theorem frame_returned {i : Nat} (here : cpu < m.cpus)
    (doing : m.task cpu = .returning base pages i) (made : m.tables (pageAt base i / 512) = true) :
    ∃ m', Reaches cpu m (.clearing base pages i) m' ∧ m'.leaf = m.leaf ∧ m'.tables = m.tables ∧
      m'.physicalMemory = (if isAllocated (m.leaf (pageAt base i)) then
        returnFrame m.physicalMemory (entryFrame (m.leaf (pageAt base i))) else m.physicalMemory) ∧
      m'.virtualMemory = m.virtualMemory := by
  obtain ⟨pm, returned⟩ :
      ∃ pm, pm = returnFrame m.physicalMemory (entryFrame (m.leaf (pageAt base i))) := ⟨_, rfl⟩
  rw [← returned]
  cases owned : isAllocated (m.leaf (pageAt base i)) with
  | false =>
      have next : m.advance cpu = some (m.setTask cpu (.clearing base pages i)) := by
        simp only [advance, doing, made, owned, if_true, Bool.false_eq_true, if_false]
      exact ⟨_, .step here next rfl rfl, rfl, rfl, rfl, rfl⟩
  | true =>
      have next : m.advance cpu = some (setTask { m with
          physicalMemory := pm
          released := (pageAt base i, entryFrame (m.leaf (pageAt base i))) :: m.released
          outstanding := m.outstanding.erase (entryFrame (m.leaf (pageAt base i))) } cpu
          (.clearing base pages i)) := by
        simp only [advance, doing, made, owned, if_true, returned]
      exact ⟨_, .step here next rfl rfl, rfl, rfl, rfl, rfl⟩

/-- One iteration of the loop over the pages is one call of `unmapPage`. -/
theorem page_unmapped {i : Nat} (tree : TableTree s) (shown : Represents s m) (here : cpu < m.cpus)
    (doing : m.task cpu = .returning base pages i) (outside : Outside (pageAt base i)) :
    ∃ t m', unmapPage (addToPointer base (i * pageSize)) s = .ok () t ∧ TableTree t ∧
      Reaches cpu m (.atPage base pages (i + 1)) m' ∧ Represents t m' := by
  obtain ⟨t, unmapped, edited, -, pool⟩ := unmapPage_spec tree outside
  change Edited s t (pageAt base i) 0 [] at edited
  change t.physicalMemory = if isAllocated (s.leaf (pageAt base i)) then
    returnFrame s.physicalMemory (entryFrame (s.leaf (pageAt base i))) else s.physicalMemory at pool
  cases made : m.tables (pageAt base i / 512) with
  | false =>
      have empty := shown.absent _ outside made
      have next : m.advance cpu = some (m.setTask cpu (.atPage base pages (i + 1))) := by
        simp only [advance, doing, made, Bool.false_eq_true, if_false]
      refine ⟨t, _, unmapped, edited.tree, .step here next rfl rfl, ?_⟩
      refine shown.cleared edited (fun k there => ?_) rfl ?_ rfl
      · split_ifs with same
        · rw [same]
          exact (shown.leaf _ outside).trans empty
        · rfl
      · rw [pool, empty]
        exact shown.physicalMemory
  | true =>
      rw [← shown.leaf _ outside, ← shown.physicalMemory] at pool
      obtain ⟨first, reached, leaf, tables, frames, ranges⟩ := frame_returned here doing made
      rw [← pool] at frames
      obtain ⟨second, cleared, emptied⟩ :
          ∃ second, Reaches cpu first (.invalidating base pages i) second ∧
          second = setTask { first with leaf := Function.update first.leaf (pageAt base i) 0 } cpu
            (.invalidating base pages i) := by
        have next : first.advance cpu = some (setTask { first with
            leaf := Function.update first.leaf (pageAt base i) 0 } cpu
                (.invalidating base pages i)) := by
          simp only [advance, reached.task]
        exact ⟨_, .step (reached.cpus ▸ here) next rfl rfl, rfl⟩
      have drops : second.advance cpu =
          some ((second.invalidate cpu (pageAt base i)).setTask cpu
            (.atPage base pages (i + 1))) := by
        simp only [advance, cleared.task]
      have soFar := reached.trans cleared
      refine ⟨t, _, unmapped, edited.tree,
        soFar.trans (.step (soFar.cpus ▸ here) drops rfl rfl), ?_⟩
      subst emptied
      refine shown.cleared edited (fun k _ => ?_) tables frames ranges
      change Function.update first.leaf (pageAt base i) 0 k = _
      rw [Function.update_apply, leaf]

/-- The loop over the pages. -/
theorem pages_unmapped {rest i : Nat} (inside : i + rest = pages) (tree : TableTree s)
    (shown : Represents s m) (here : cpu < m.cpus) (doing : m.task cpu = .atPage base pages i)
    (outside : ∀ j < pages, Outside (pageAt base j)) :
    ∃ t m', forPages (unmapMemoryBody base) rest (i * pageSize) s = .ok () t ∧
      Reaches cpu m (.calling base pages 0) m' ∧ Represents t m' := by
  induction rest generalizing i s m with
  | zero =>
      rw [Task.atPage, if_neg (by omega)] at doing
      exact ⟨s, m, rfl, .refl doing, shown⟩
  | succ rest ih =>
      have within : i < pages := by omega
      rw [Task.atPage, if_pos within] at doing
      obtain ⟨mid, between, first, kept, reached, represented⟩ :=
        page_unmapped tree shown here doing (outside i within)
      obtain ⟨t, m', later, arrived, final⟩ :=
        ih (by omega) kept represented (reached.cpus ▸ here) reached.task
      exact ⟨t, m', (forPages_succ first).trans later, reached.trans arrived, final⟩

/-- The callback invalidates the pages on the called processor. -/
theorem callback_runs {target rest offset : Nat} (inside : offset + rest = pages)
    (shown : Represents s m) (here : cpu < m.cpus)
    (doing : m.task cpu = .waiting base pages target offset) :
    ∃ m', Reaches cpu m (.waiting base pages target pages) m' ∧ Represents s m' := by
  induction rest generalizing offset m with
  | zero =>
      obtain rfl : offset = pages := inside
      exact ⟨m, .refl doing, shown⟩
  | succ rest ih =>
      have next : m.advance cpu = some
          ((m.invalidate target (pageAt base offset)).setTask cpu
            (.waiting base pages target (offset + 1))) := by
        simp only [advance, doing, if_pos (show offset < pages by omega)]
      have one := Reaches.step here next rfl rfl
      have kept : Represents s ((m.invalidate target (pageAt base offset)).setTask cpu
        (.waiting base pages target (offset + 1))) := shown.congr rfl rfl rfl rfl
      obtain ⟨m', rests, represented⟩ := ih (by omega) kept here one.task
      exact ⟨m', one.trans rests, represented⟩

/-- A call waits for its callback and leaves the mailbox free. -/
theorem processor_called {target : Nat} (shown : Represents s m) (here : cpu < m.cpus)
    (doing : m.task cpu = .calling base pages target) (running : target < m.cpus)
    (unlocked : m.mailbox target = none) :
    ∃ m', Reaches cpu m (.calling base pages (target + 1)) m' ∧ Represents s m' := by
  by_cases other : target ≠ cpu ∧ target < maxCpus
  · obtain ⟨locked, called, waiting, same, taken, memory⟩ : ∃ locked, Advances cpu m locked ∧
        locked.task cpu = .waiting base pages target 0 ∧ locked.cpus = m.cpus ∧
        locked.mailbox = Function.update m.mailbox target (some cpu) ∧ Represents s locked := by
      have next : m.advance cpu = some (setTask { m with
          mailbox := Function.update m.mailbox target (some cpu) } cpu
              (.waiting base pages target 0)) := by
        simp only [advance, doing, if_pos running, if_neg other.1, if_pos other.2, unlocked]
      exact ⟨_, .step here next, by simp [setTask], rfl, rfl, shown.congr rfl rfl rfl rfl⟩
    obtain ⟨mid, waited, memory⟩ := callback_runs (Nat.zero_add pages) memory (same ▸ here) waiting
    have frees : mid.advance cpu = some (setTask { mid with
        mailbox := Function.update mid.mailbox target none } cpu
            (.calling base pages (target + 1))) := by
      simp only [advance, waited.task, if_neg (Nat.lt_irrefl pages)]
    have back : Function.update mid.mailbox target none = m.mailbox := by
      rw [waited.mailbox, taken, Function.update_idem, ← unlocked, Function.update_eq_self]
    have arrived := called.trans (waited.advances.trans (.step (waited.cpus ▸ same ▸ here) frees))
    exact ⟨_, ⟨arrived, by simp [setTask], waited.cpus.trans same, back⟩,
      memory.congr rfl rfl rfl rfl⟩
  · have next : m.advance cpu = some (m.setTask cpu (.calling base pages (target + 1))) := by
      simp only [advance, doing, if_pos running]
      split_ifs with same small
      · rfl
      · exact absurd ⟨same, small⟩ other
      · rfl
    exact ⟨_, .step here next rfl rfl, shown.congr rfl rfl rfl rfl⟩

/-- The loop over the processors. -/
theorem processors_called {rest target : Nat} (inside : target + rest = m.cpus)
    (shown : Represents s m) (here : cpu < m.cpus) (doing : m.task cpu = .calling base pages target)
    (unlocked : ∀ c, m.mailbox c = none) :
    ∃ m', Reaches cpu m (.finishing base pages) m' ∧ Represents s m' := by
  induction rest generalizing target m with
  | zero =>
      have next : m.advance cpu = some (m.setTask cpu (.finishing base pages)) := by
        simp only [advance, doing, if_neg (show ¬ target < m.cpus by omega)]
      exact ⟨_, .step here next rfl rfl, shown.congr rfl rfl rfl rfl⟩
  | succ rest ih =>
      obtain ⟨mid, called, kept⟩ := processor_called shown here doing (by omega) (unlocked target)
      have after : target + 1 + rest = mid.cpus := by
        rw [called.cpus]
        omega
      obtain ⟨m', rests, represented⟩ :=
        ih after kept (called.cpus ▸ here) called.task (called.mailbox ▸ unlocked)
      exact ⟨m', called.trans rests, represented⟩

/-- `unmapMemory` on one processor, while the others do nothing. -/
theorem unmapMemory_simulated {address n : Nat} (tree : TableTree s) (shown : Represents s m)
    (here : cpu < m.cpus) (idle : m.task cpu = .idle) (unlocked : ∀ c, m.mailbox c = none)
    (nonnull : address ≠ 0)
    (size : (pageAlignUp ((address + n) % 2 ^ 64) + 2 ^ 64 - pageAlignDown address) % 2 ^ 64 =
      pages * 4096)
    (outside : ∀ j < pages, Outside (pageAt (pageAlignDown address) j)) :
    ∃ t m' k, unmapMemory address n s = .ok () t ∧
      Run Step m ([.unmapMemory cpu (pageAlignDown address) pages] ++
        List.replicate k (.advance cpu)) m' ∧
      m'.task cpu = .idle ∧ Represents t m' := by
  rw [unmapMemory_eq nonnull size]
  clear size
  generalize pageAlignDown address = base at outside ⊢
  obtain ⟨started, enters, doing, same, free, shown⟩ : ∃ started,
      Step m (.unmapMemory cpu base pages) started ∧ started.task cpu = .atPage base pages 0 ∧
      started.cpus = m.cpus ∧ started.mailbox = m.mailbox ∧ Represents s started :=
    ⟨m.setTask cpu (.atPage base pages 0),
      by simp only [Step, after?, here, idle, and_self, if_true], by simp [setTask], rfl, rfl,
      shown.congr rfl rfl rfl rfl⟩
  have begun : cpu < started.cpus := same ▸ here
  obtain ⟨mid, paged, looped, unmapped, shown⟩ :=
    pages_unmapped (Nat.zero_add pages) tree shown begun doing outside
  obtain ⟨called, calls, shown⟩ :=
    processors_called (Nat.zero_add _) shown (unmapped.cpus ▸ begun) unmapped.task
    fun c => by rw [unmapped.mailbox, free, unlocked]
  obtain ⟨vm, added⟩ : ∃ vm, vm = mid.virtualMemory.returnMemory base (pages * 4096) := ⟨_, rfl⟩
  have last :
      called.advance cpu = some (setTask { called with virtualMemory := vm } cpu .idle) := by
    simp only [advance, calls.task, added, shown.virtualMemory]
  have reached := unmapped.trans calls
  obtain ⟨k, run⟩ := reached.advances.trans (.step (reached.cpus ▸ begun) last)
  refine ⟨{ mid with virtualMemory := vm }, _, k, ?_, (Run.single enters).trans run,
    by simp [setTask], ⟨shown.leaf, shown.absent, shown.physicalMemory, rfl⟩⟩
  rw [Nat.zero_mul] at looped
  rw [bind_ok looped, virtualReturn, ← added]

/-- The frames for tables are taken one by one. -/
theorem frames_taken {pm : BlockMap} {frames : List Nat} (here : cpu < m.cpus)
    (takes : Takes m.physicalMemory frames pm) :
    ∃ m', Run Step m (List.replicate frames.length (.allocateFrame cpu)) m' ∧
      m'.physicalMemory = pm ∧
      m'.leaf = m.leaf ∧ m'.tables = m.tables ∧ m'.virtualMemory = m.virtualMemory ∧
      m'.cpus = m.cpus := by
  generalize start : m.physicalMemory = first at takes
  induction takes with
  | nothing => exact ⟨m, .start m, start, rfl, rfl, rfl, rfl⟩
  | @frame mid frames _ ih =>
      obtain ⟨before, run, pool, leaf, tables, ranges, cpus⟩ := ih
      obtain ⟨after, taken, frames, rest⟩ : ∃ after, Step before (.allocateFrame cpu) after ∧
          after.physicalMemory = (allocateFrame before.physicalMemory).2 ∧
          after.leaf = before.leaf ∧
          after.tables = before.tables ∧ after.virtualMemory = before.virtualMemory ∧
          after.cpus = before.cpus :=
        ⟨_, if_pos (cpus ▸ here), rfl, rfl, rfl, rfl, rfl⟩
      refine ⟨after, ?_, by rw [frames, pool], rest.1.trans leaf, rest.2.1.trans tables,
        rest.2.2.1.trans ranges, rest.2.2.2.trans cpus⟩
      rw [List.length_cons, List.replicate_succ']
      exact run.next taken

/-- `mapPage` on one processor, while the others do nothing. -/
theorem mapPage_simulated {virtualAddress : Nat} (tree : TableTree s) (shown : Represents s m)
    (here : cpu < m.cpus) (outside : Outside (page virtualAddress)) (physicalAddress : Nat)
    (allocated cacheable : Bool) :
    ∃ new,
      Drawn s
        ((mapPage virtualAddress physicalAddress PageTableFlags.writable allocated cacheable).after
          s) new ∧
      (FreshAll s new → ∃ t m',
        mapPage virtualAddress physicalAddress PageTableFlags.writable allocated cacheable s =
          .ok () t ∧
        Run Step m (List.replicate new.length (.allocateFrame cpu) ++
          [.mapPage cpu virtualAddress physicalAddress allocated cacheable]) m' ∧
          Represents t m') := by
  obtain ⟨new, drawn, mapped⟩ :=
    mapPage_spec tree outside physicalAddress PageTableFlags.writable allocated cacheable
  refine ⟨new, drawn, fun fresh => ?_⟩
  obtain ⟨t, returned, edited⟩ := mapped fresh
  have takes := drawn.takes
  rw [Kernel.after, returned, ← shown.physicalMemory] at takes
  obtain ⟨between, run, pool, leaf, tables, ranges, cpus⟩ := frames_taken here takes
  refine ⟨t, _, returned, run.next (if_pos (cpus ▸ here)), ?_, ?_, pool, ?_⟩
  · intro k there
    change Function.update between.leaf _ _ k = _
    rw [Function.update_apply, leaf, edited.leaf k there, shown.leaf k there]
  · intro k there missing
    change Function.update between.tables _ _ _ = _ at missing
    rw [Function.update_apply, tables] at missing
    split_ifs at missing with same
    have different : k ≠ page virtualAddress := fun again => same (by rw [again])
    rw [edited.leaf k there, if_neg different, shown.absent k there missing]
  · change between.virtualMemory = _
    rw [ranges, shown.virtualMemory, edited.virtualMemory]

end Alone

end Machines

end Mykonos.Smp
