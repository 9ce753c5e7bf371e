import Mykonos.Lib.Run
import Mykonos.Heap.Kmalloc
import Mykonos.Paging.Effects

/-! # Unmapping on several processors

Every processor caches leaf entries. `unmapMemory` works through its pages one
after the other (return the frame, clear the entry, invalidate the local cache),
then has every other processor invalidate the pages, and returns the virtual
range last. Its steps interleave with the steps of the other processors.
-/

namespace Mykonos.Smp

open Lib Memory Paging Heap

/-! ## The state -/

/-- `MAX_CPUS`. -/
abbrev maxCpus : Nat := 64

/-- Where a processor is in `unmapMemory`, with the page-aligned base and the number
    of pages; `i` and `offset` count pages, `target` counts processors. -/
inductive Task where
  | idle
  | returning (base pages i : Nat)
  | clearing (base pages i : Nat)
  | invalidating (base pages i : Nat)
  | calling (base pages target : Nat)
  | waiting (base pages target offset : Nat)
  | finishing (base pages : Nat)
  deriving Repr, DecidableEq

/-- The loop over the pages, and the loop over the processors after it. -/
def Task.atPage (base pages i : Nat) : Task :=
  if i < pages then .returning base pages i else .calling base pages 0

/-- The page of one iteration. -/
def pageAt (base i : Nat) : Nat := page (addToPointer base (i * pageSize))

structure Machines where
  /-- `processorCount()`. -/
  cpus : Nat
  /-- The leaf entry of each page. -/
  leaf : Nat → Nat
  /-- Whether the table with the entries of 512 pages exists. -/
  tables : Nat → Bool
  physicalMemory : BlockMap
  virtualMemory : BlockMap
  /-- The frame each processor has cached for a page. -/
  tlb : Nat → Nat → Option Nat
  /-- The caller that has locked the mailbox of a processor. -/
  mailbox : Nat → Option Nat
  task : Nat → Task
  /-- The frames `unmapPage` has returned, each with the page it was unmapped from,
      until it is mapped there again. No code reads it. -/
  released : List (Nat × Nat) := []
  /-- The frames `allocateFrame` has handed out. No code reads it. -/
  outstanding : List Nat := []

namespace Machines

def setTask (s : Machines) (cpu : Nat) (task : Task) : Machines :=
  { s with task := Function.update s.task cpu task }

/-- `invalidateTlb` on one processor. -/
def invalidate (s : Machines) (cpu n : Nat) : Machines :=
  { s with tlb := Function.update s.tlb cpu (Function.update (s.tlb cpu) n none) }

/-! ## Steps -/

inductive Event where
  | fill (cpu n : Nat)
  | evict (cpu n : Nat)
  | allocateFrame (cpu : Nat)
  | mapPage (cpu virtualAddress physicalAddress : Nat) (allocated cacheable : Bool)
  | allocateRange (cpu size : Nat)
  | unmapMemory (cpu base pages : Nat)
  | advance (cpu : Nat)
  deriving Repr, DecidableEq

/-- The next step of a processor inside `unmapMemory`. `unmapPage` returns the frame
    before it clears the entry, and skips a page without a table. A processor
    waits for the mailbox it calls, and its callback runs page by page. -/
def advance (s : Machines) (cpu : Nat) : Option Machines :=
  match s.task cpu with
  | .idle => none
  | .returning base pages i =>
      let n := pageAt base i
      if s.tables (n / 512) then
        if isAllocated (s.leaf n) then
          some (setTask { s with
            physicalMemory := returnFrame s.physicalMemory (entryFrame (s.leaf n))
            released := (n, entryFrame (s.leaf n)) :: s.released
            outstanding :=
              s.outstanding.erase (entryFrame (s.leaf n)) } cpu (.clearing base pages i))
        else some (s.setTask cpu (.clearing base pages i))
      else some (s.setTask cpu (.atPage base pages (i + 1)))
  | .clearing base pages i =>
      some (setTask { s with leaf := Function.update s.leaf (pageAt base i) 0 } cpu
        (.invalidating base pages i))
  | .invalidating base pages i =>
      some ((s.invalidate cpu (pageAt base i)).setTask cpu (.atPage base pages (i + 1)))
  | .calling base pages target =>
      if target < s.cpus then
        if target = cpu then some (s.setTask cpu (.calling base pages (target + 1)))
        else if target < maxCpus then
          match s.mailbox target with
          | none =>
              some (setTask { s with mailbox := Function.update s.mailbox target (some cpu) } cpu
              (.waiting base pages target 0))
          | some _ => none
        else some (s.setTask cpu (.calling base pages (target + 1)))
      else some (s.setTask cpu (.finishing base pages))
  | .waiting base pages target offset =>
      if offset < pages then
        some ((s.invalidate target (pageAt base offset)).setTask cpu
          (.waiting base pages target (offset + 1)))
      else
        some (setTask { s with mailbox := Function.update s.mailbox target none } cpu
          (.calling base pages (target + 1)))
  | .finishing base pages =>
      some (setTask { s with
        virtualMemory := s.virtualMemory.returnMemory base (pages * pageSize) } cpu .idle)

/-- One step of one processor, `none` where it cannot be taken. -/
def after? (s : Machines) : Event → Option Machines
  | .fill cpu n =>
      if cpu < s.cpus ∧ isPresent (s.leaf n) then
        some { s with
          tlb := Function.update s.tlb cpu
            (Function.update (s.tlb cpu) n (some (entryFrame (s.leaf n)))) }
      else none
  | .evict cpu n => if cpu < s.cpus then some (s.invalidate cpu n) else none
  | .allocateFrame cpu =>
      if cpu < s.cpus then
        let frame := (Memory.allocateFrame s.physicalMemory).1
        some { s with
          physicalMemory := (Memory.allocateFrame s.physicalMemory).2
          outstanding := if frame = 0 then s.outstanding else frame :: s.outstanding }
      else none
  | .mapPage cpu virtualAddress physicalAddress allocated cacheable =>
      if cpu < s.cpus then
        let entry := leafEntry physicalAddress PageTableFlags.writable allocated cacheable
        some { s with
          leaf := Function.update s.leaf (page virtualAddress) entry
          tables := Function.update s.tables (page virtualAddress / 512) true
          released := s.released.filter (· ≠ (page virtualAddress, entryFrame entry)) }
      else none
  | .allocateRange cpu size =>
      if cpu < s.cpus then some { s with virtualMemory := (s.virtualMemory.allocate size).2 }
      else none
  | .unmapMemory cpu base pages =>
      if cpu < s.cpus ∧ s.task cpu = .idle then some (s.setTask cpu (.atPage base pages 0))
      else none
  | .advance cpu => if cpu < s.cpus then s.advance cpu else none

def Step (s : Machines) (event : Event) (t : Machines) : Prop := s.after? event = some t

/-! ## Stale translations -/

/-- Some byte of the frame is in the pool. -/
def FrameFree (s : Machines) (frame : Nat) : Prop :=
  ∃ a ∈ frameRange frame, a ∈ s.physicalMemory.free

/-- A processor that still has a frame cached for the page it was unmapped from has
    cached a frame that nobody can get. -/
def NoStale (s : Machines) : Prop :=
  ∀ cpu < s.cpus, ∀ n frame, s.tlb cpu n = some frame → (n, frame) ∈ s.released →
    ¬ (s.FrameFree frame ∨ frame ∈ s.outstanding)

/-- No processor is unmapping anything and nothing has been unmapped so far. -/
structure Booted (s : Machines) : Prop where
  idle : ∀ cpu, s.task cpu = .idle
  released : s.released = []

/-- The page whose entry the processor is about to clear. -/
def clearing (s : Machines) (cpu : Nat) : Option Nat :=
  match s.task cpu with
  | .clearing base _ i => some (pageAt base i)
  | _ => none

/-- The frame that the next step of the processor returns, with its page. -/
def returning (s : Machines) (cpu : Nat) : Option (Nat × Nat) :=
  match s.task cpu with
  | .returning base _ i =>
      if s.tables (pageAt base i / 512) ∧ isAllocated (s.leaf (pageAt base i)) then
        some (pageAt base i, entryFrame (s.leaf (pageAt base i)))
      else none
  | _ => none

/-- A frame is returned when no processor has it cached for its page any more, and the page
    is not cached again from the entry that names it before that entry is cleared. -/
def Timely (s : Machines) : Event → Prop
  | .fill _ n => (n, entryFrame (s.leaf n)) ∈ s.released → ∀ cpu < s.cpus, s.clearing cpu ≠ some n
  | .advance cpu => ∀ x ∈ s.returning cpu, ∀ other < s.cpus, s.tlb other x.1 ≠ some x.2
  | _ => True

instance (s : Machines) (event : Event) : Decidable (s.Timely event) :=
  match event with
  | .fill _ _ => inferInstanceAs (Decidable (_ ∈ s.released → ∀ cpu < s.cpus, _))
  | .advance _ => inferInstanceAs (Decidable (∀ x ∈ s.returning _, _))
  | .evict _ _ | .allocateFrame _ | .mapPage _ _ _ _ _ | .allocateRange _ _ | .unmapMemory _ _ _ =>
      inferInstanceAs (Decidable True)

/-! ## What a step can do -/

/-- No entry changes and no frame is returned, nothing new is cached and every
    processor about to clear an entry still is. -/
structure Quiet (s t : Machines) : Prop where
  cpus : t.cpus = s.cpus
  leaf : t.leaf = s.leaf
  released : t.released = s.released
  tlb : ∀ cpu n frame, t.tlb cpu n = some frame → s.tlb cpu n = some frame
  clearing : ∀ cpu n, s.clearing cpu = some n → t.clearing cpu = some n

section Steps

variable {s t : Machines} {cpu : Nat}

theorem invalidate_tlb {n other k frame : Nat}
    (cached : (s.invalidate cpu n).tlb other k = some frame) :
    s.tlb other k = some frame := by
  simp only [invalidate, Function.update_apply] at cached
  split_ifs at cached with here
  · rw [Function.update_apply] at cached
    split_ifs at cached
    exact here ▸ cached
  · exact cached

theorem clearing_setTask {other : Nat} (different : other ≠ cpu) (task : Task) :
    (s.setTask cpu task).clearing other = s.clearing other := by
  simp [clearing, setTask, different]

/-- A processor that is not about to clear an entry goes on to its next step. -/
theorem Quiet.setTask {u : Machines} {task : Task} (here : s.clearing cpu = none)
    (cpus : u.cpus = s.cpus) (leaf : u.leaf = s.leaf) (released : u.released = s.released)
    (same : u.task = s.task)
    (tlb : ∀ other n frame, u.tlb other n = some frame → s.tlb other n = some frame) :
    Quiet s (u.setTask cpu task) := by
  refine ⟨cpus, leaf, released, tlb, fun other n held => ?_⟩
  have different : other ≠ cpu := by
    rintro rfl
    exact absurd (here.symm.trans held) (by simp)
  rwa [clearing_setTask different, Machines.clearing, same]

theorem advance_cases (h : s.advance cpu = some t) :
    Quiet s t ∨
    (∃ base pages i, s.task cpu = .returning base pages i ∧
      s.returning cpu = some (pageAt base i, entryFrame (s.leaf (pageAt base i))) ∧
      t = setTask { s with
        physicalMemory := returnFrame s.physicalMemory (entryFrame (s.leaf (pageAt base i)))
        released := (pageAt base i, entryFrame (s.leaf (pageAt base i))) :: s.released
        outstanding := s.outstanding.erase (entryFrame (s.leaf (pageAt base i))) } cpu
        (.clearing base pages i)) ∨
    ∃ base pages i, s.task cpu = .clearing base pages i ∧
      t = setTask { s with leaf := Function.update s.leaf (pageAt base i) 0 } cpu
        (.invalidating base pages i) := by
  have kept : ∀ other n frame, s.tlb other n = some frame → s.tlb other n = some frame :=
    fun _ _ _ => id
  cases doing : s.task cpu with
  | idle => simp only [advance, doing, reduceCtorEq] at h
  | returning base pages i =>
      simp only [advance, doing] at h
      split_ifs at h with there owned
      · refine .inr (.inl ⟨base, pages, i, rfl, ?_, (Option.some.inj h).symm⟩)
        simp only [returning, doing, there, owned, and_self, if_true]
      · obtain rfl := Option.some.inj h
        exact .inl (.setTask (by rw [clearing, doing]) rfl rfl rfl rfl kept)
      · obtain rfl := Option.some.inj h
        exact .inl (.setTask (by rw [clearing, doing]) rfl rfl rfl rfl kept)
  | clearing base pages i =>
      simp only [advance, doing] at h
      exact .inr (.inr ⟨base, pages, i, rfl, (Option.some.inj h).symm⟩)
  | invalidating base pages i =>
      simp only [advance, doing] at h
      obtain rfl := Option.some.inj h
      exact .inl (.setTask (by rw [clearing, doing]) rfl rfl rfl rfl fun _ _ _ => invalidate_tlb)
  | calling base pages target =>
      simp only [advance, doing] at h
      split_ifs at h
      · obtain rfl := Option.some.inj h
        exact .inl (.setTask (by rw [clearing, doing]) rfl rfl rfl rfl kept)
      · cases locked : s.mailbox target with
        | none =>
            rw [locked] at h
            obtain rfl := Option.some.inj h
            exact .inl (.setTask (by rw [clearing, doing]) rfl rfl rfl rfl kept)
        | some caller => simp only [locked, reduceCtorEq] at h
      · obtain rfl := Option.some.inj h
        exact .inl (.setTask (by rw [clearing, doing]) rfl rfl rfl rfl kept)
      · obtain rfl := Option.some.inj h
        exact .inl (.setTask (by rw [clearing, doing]) rfl rfl rfl rfl kept)
  | waiting base pages target offset =>
      simp only [advance, doing] at h
      split_ifs at h
      · obtain rfl := Option.some.inj h
        exact .inl (.setTask (by rw [clearing, doing]) rfl rfl rfl rfl fun _ _ _ => invalidate_tlb)
      · obtain rfl := Option.some.inj h
        exact .inl (.setTask (by rw [clearing, doing]) rfl rfl rfl rfl kept)
  | finishing base pages =>
      simp only [advance, doing] at h
      obtain rfl := Option.some.inj h
      exact .inl (.setTask (by rw [clearing, doing]) rfl rfl rfl rfl kept)

end Steps

/-! ## Every run of timely steps -/

/-- No processor has a released frame cached for its page, and an entry that still
    names one is about to be cleared. -/
structure Fenced (s : Machines) : Prop where
  cached : ∀ cpu < s.cpus, ∀ n frame, s.tlb cpu n = some frame → (n, frame) ∉ s.released
  entry : ∀ n, isPresent (s.leaf n) = true → (n, entryFrame (s.leaf n)) ∈ s.released →
    ∃ cpu < s.cpus, s.clearing cpu = some n

namespace Fenced

variable {s t : Machines}

theorem booted (h : s.Booted) : Fenced s := by
  constructor <;> simp [h.released]

theorem noStale (h : Fenced s) : s.NoStale :=
  fun cpu here n frame cached released _ => h.cached cpu here n frame cached released

theorem quiet (h : Fenced s) (q : Quiet s t) : Fenced t where
  cached cpu here n frame cached := by
    rw [q.cpus] at here
    rw [q.released]
    exact h.cached cpu here n frame (q.tlb cpu n frame cached)
  entry n present released := by
    rw [q.leaf] at present
    rw [q.leaf, q.released] at released
    obtain ⟨cpu, here, clearing⟩ := h.entry n present released
    exact ⟨cpu, q.cpus ▸ here, q.clearing cpu n clearing⟩

/-- An entry that names a released frame is about to be cleared, so no processor caches it. -/
theorem filled (h : Fenced s) {cpu n : Nat} (present : isPresent (s.leaf n) = true)
    (timely : (n, entryFrame (s.leaf n)) ∈ s.released →
      ∀ other < s.cpus, s.clearing other ≠ some n) :
    Fenced { s with
      tlb :=
        Function.update s.tlb cpu
            (Function.update (s.tlb cpu) n (some (entryFrame (s.leaf n)))) } where
  cached other here k frame cached := by
    by_cases there : other = cpu ∧ k = n
    · obtain ⟨rfl, rfl⟩ := there
      simp only [Function.update_self, Option.some.injEq] at cached
      subst cached
      intro released
      obtain ⟨clearer, running, clearing⟩ := h.entry k present released
      exact timely released clearer running clearing
    · refine h.cached other here k frame ?_
      simp only [Function.update_apply] at cached
      split_ifs at cached with same
      · subst same
        have elsewhere : k ≠ n := fun again => there ⟨rfl, again⟩
        rwa [Function.update_of_ne elsewhere] at cached
      · exact cached
  entry := h.entry

/-- Mapping a page makes its new frame a frame of the page again. -/
theorem mapped (h : Fenced s) (n value : Nat) (tables : Nat → Bool) :
    Fenced { s with
      leaf := Function.update s.leaf n value
      tables := tables
      released := s.released.filter (· ≠ (n, entryFrame value)) } where
  cached cpu here k frame cached released :=
    h.cached cpu here k frame cached (List.mem_filter.mp released).1
  entry k present released := by
    obtain ⟨member, different⟩ := List.mem_filter.mp released
    by_cases there : k = n
    · subst there
      simp at different
    · simp only [Function.update_of_ne there] at present member
      exact h.entry k present member

/-- The frame that is returned is cached nowhere for its page. -/
theorem returned (h : Fenced s) {cpu base pages i : Nat} (here : cpu < s.cpus)
    (doing : s.task cpu = .returning base pages i)
    (timely : ∀ other < s.cpus, s.tlb other (pageAt base i) ≠
      some (entryFrame (s.leaf (pageAt base i))))
    (pm : BlockMap) (outstanding : List Nat) :
    Fenced (setTask { s with
      physicalMemory := pm
      released := (pageAt base i, entryFrame (s.leaf (pageAt base i))) :: s.released
      outstanding := outstanding } cpu (.clearing base pages i)) where
  cached other running n frame cached released := by
    rcases List.mem_cons.mp released with same | before
    · obtain ⟨rfl, rfl⟩ := Prod.mk.inj same
      exact timely other running cached
    · exact h.cached other running n frame cached before
  entry n present released := by
    rcases List.mem_cons.mp released with same | before
    · obtain ⟨rfl, -⟩ := Prod.mk.inj same
      exact ⟨cpu, here, by simp [clearing, setTask]⟩
    · obtain ⟨other, running, held⟩ := h.entry n present before
      have different : other ≠ cpu := by
        rintro rfl
        simp [clearing, doing] at held
      exact ⟨other, running, (clearing_setTask different _).trans held⟩

/-- A cleared entry names nothing. -/
theorem cleared (h : Fenced s) {cpu base pages i : Nat}
    (doing : s.task cpu = .clearing base pages i) :
    Fenced (setTask { s with leaf := Function.update s.leaf (pageAt base i) 0 } cpu
      (.invalidating base pages i)) where
  cached := h.cached
  entry n present released := by
    by_cases there : n = pageAt base i
    · subst there
      simp [setTask, isPresent] at present
    · simp only [setTask, Function.update_of_ne there] at present released
      obtain ⟨other, running, held⟩ := h.entry n present released
      have different : other ≠ cpu := by
        rintro rfl
        simp only [clearing, doing, Option.some.injEq] at held
        exact there held.symm
      exact ⟨other, running, (clearing_setTask different _).trans held⟩

theorem step (h : Fenced s) {event : Event} (timely : s.Timely event) (step : Step s event t) :
    Fenced t := by
  unfold Step at step
  have kept : ∀ other n frame, s.tlb other n = some frame → s.tlb other n = some frame :=
    fun _ _ _ => id
  have doomed : ∀ other n, s.clearing other = some n → s.clearing other = some n := fun _ _ => id
  cases event with
  | fill cpu n =>
      simp only [after?, Option.ite_none_right_eq_some, Option.some.injEq] at step
      obtain ⟨⟨-, present⟩, rfl⟩ := step
      exact h.filled present timely
  | evict cpu n =>
      simp only [after?, Option.ite_none_right_eq_some, Option.some.injEq] at step
      obtain ⟨-, rfl⟩ := step
      exact h.quiet ⟨rfl, rfl, rfl, fun _ _ _ => invalidate_tlb, doomed⟩
  | allocateFrame cpu =>
      simp only [after?, Option.ite_none_right_eq_some, Option.some.injEq] at step
      obtain ⟨-, rfl⟩ := step
      exact h.quiet ⟨rfl, rfl, rfl, kept, doomed⟩
  | mapPage cpu virtualAddress physicalAddress allocated cacheable =>
      simp only [after?, Option.ite_none_right_eq_some, Option.some.injEq] at step
      obtain ⟨-, rfl⟩ := step
      exact h.mapped _ _ _
  | allocateRange cpu size =>
      simp only [after?, Option.ite_none_right_eq_some, Option.some.injEq] at step
      obtain ⟨-, rfl⟩ := step
      exact h.quiet ⟨rfl, rfl, rfl, kept, doomed⟩
  | unmapMemory cpu base pages =>
      simp only [after?, Option.ite_none_right_eq_some, Option.some.injEq] at step
      obtain ⟨⟨-, idle⟩, rfl⟩ := step
      exact h.quiet (.setTask (by rw [clearing, idle]) rfl rfl rfl rfl kept)
  | advance cpu =>
      simp only [after?, Option.ite_none_right_eq_some] at step
      obtain ⟨here, step⟩ := step
      rcases advance_cases step with quiet | ⟨base, pages, i, doing, returns, rfl⟩ |
        ⟨base, pages, i, doing, rfl⟩
      · exact h.quiet quiet
      · exact h.returned here doing (timely _ returns) _ _
      · exact h.cleared doing

end Fenced

/-- Whatever the processors do, in any order: as long as every frame is returned
    only when no processor has it cached for its page, and is not cached again for it from
    the entry that is still to be cleared, no frame in the pool or handed out again is
    cached for the page it was unmapped from. -/
theorem no_stale_frame_after_run {s t : Machines} {events : List Event} (booted : s.Booted)
    (run : Run (fun s event t => s.Timely event ∧ Step s event t) s events t) : t.NoStale :=
  (run.invariant (P := Fenced) (.booted booted) fun _ _ _ h taken => h.step taken.1 taken.2).noStale

/-- Two processors and one page of the heap, which owns frame nine; the pools are
    empty. -/
def pair : Machines where
  cpus := 2
  leaf n := if n = 0x800000A00 then 0x9803 else 0
  tables _ := true
  physicalMemory := ⟨[]⟩
  virtualMemory := ⟨[]⟩
  tlb _ _ := none
  mailbox _ := none
  task _ := .idle
  outstanding := [9]

theorem pair_booted : pair.Booted := ⟨fun _ => rfl, rfl⟩

/-- The other processor has dropped the page before it is unmapped, and gets its
    frame. -/
theorem no_stale_frame_after_reuse :
    ∃ t, Run (fun s event t => s.Timely event ∧ Step s event t) pair
      [.fill 1 0x800000A00, .evict 1 0x800000A00, .unmapMemory 0 0xFFFF800000A00000 1,
        .advance 0, .advance 0, .allocateFrame 1] t ∧
      (t.released = [(0x800000A00, 9)] ∧ t.outstanding = [9]) ∧ t.NoStale := by
  have computed : ∃ t, [.fill 1 0x800000A00, .evict 1 0x800000A00,
    .unmapMemory 0 0xFFFF800000A00000 1, .advance 0,
      .advance 0, .allocateFrame 1].foldlM (fun s event =>
        if s.Timely event then s.after? event else none) pair =
      some t ∧ t.released = [(0x800000A00, 9)] ∧ t.outstanding = [9] :=
        ⟨_, rfl, by decide +kernel, by decide +kernel⟩
  obtain ⟨t, replayed, reused⟩ := computed
  have run :=
    (Run.of_foldlM replayed).mono fun s event t taken => Option.ite_none_right_eq_some.mp taken
  exact ⟨t, run, reused, no_stale_frame_after_run pair_booted run⟩

/-- The other processor has the page cached when its frame goes back to the pool. -/
theorem cached_frame_returned :
    ¬ ∀ s t events, Booted s → Run Step s events t → t.NoStale := by
  intro safe
  have computed : ∃ t, [.fill 1 0x800000A00, .unmapMemory 0 0xFFFF800000A00000 1,
    .advance 0].foldlM after? pair =
      some t ∧ 1 < t.cpus ∧ t.tlb 1 0x800000A00 = some 9 ∧ (0x800000A00, 9) ∈ t.released ∧
      ⟨0x9000, 0xA000⟩ ∈ t.physicalMemory.blocks :=
    ⟨_, rfl, by decide +kernel, by decide +kernel, by decide +kernel, by decide +kernel⟩
  obtain ⟨t, replayed, here, cached, released, stored⟩ := computed
  have quiet := safe pair t _ pair_booted (.of_foldlM replayed)
  refine quiet 1 here 0x800000A00 9 cached released (.inl ⟨0x9000, frame_mem 9, ?_⟩)
  exact BlockMap.mem_free.mpr ⟨_, stored, by decide, by decide⟩

end Machines

end Mykonos.Smp
