import Mykonos.Lib.Run
import Mykonos.Tasks.Scheduler

/-! # Waking a processor

`addTask` looks at the current task of a scheduler, then inserts, then asks the
processor to yield if what it saw made that necessary. The processor may block
its task, find the queue empty and halt in between. These are the steps of any
number of processors that add tasks to one scheduler, and of its own processor.
-/

namespace Mykonos.Tasks

open Lib

/-- Where the processor of the scheduler is. -/
inductive Target where
  /-- Runs the code of the current task. -/
  | thread
  /-- In the callback that `addTask` sends, before `letCallerReturn`. -/
  | callback
  /-- In `yield`, with interrupts off, before `pop`. -/
  | yield
  | popped (toTask : Option Task)
  /-- After the swap of the current task with itself. -/
  | swapped
  | removing
  /-- On the scheduler stack. -/
  | parked
  | halted
  deriving Repr, DecidableEq

/-- Where another processor is in `addTask`. -/
inductive Adder where
  | idle
  | lock (task : Task)
  | check (task : Task)
  | insert (task : Task) (front : Bool)
  | release (front : Bool)
  | runOn
  /-- The callback is sent, the caller may not return yet. -/
  | waiting
  deriving Repr, DecidableEq

/-- One scheduler and everyone who uses it. `mailbox` is the adder that holds the
    lock of the mailbox of the processor, `ipi` the pending interrupt. -/
structure Wakeups where
  scheduler : Scheduler
  blocks : ControlBlocks
  target : Target
  adders : Nat → Adder
  addTaskLock : Option Nat := none
  mailbox : Option Nat := none
  ipi : Bool := false
  callerCanReturn : Bool := false

namespace Wakeups

inductive Event where
  /-- An adder calls `addTask`. -/
  | call (adder : Nat) (task : Task)
  | adder (adder : Nat)
  | block
  | yield
  | tick
  | lock
  | unlock
  /-- The processor adds a task to its own scheduler. -/
  | addTask (task : Task)
  /-- The processor takes the interrupt. -/
  | interrupt
  /-- The processor takes its next step in the callback or in `yield`. -/
  | target
  deriving Repr, DecidableEq

def setAdder (s : Wakeups) (i : Nat) (adder : Adder) : Wakeups :=
  { s with adders := Function.update s.adders i adder }

/-- The processor calls `yield`. -/
def enterYield (s : Wakeups) : Wakeups :=
  if s.scheduler.yieldLocked then
    { s with scheduler := { s.scheduler with yieldPostponed := true }, target := .thread }
  else { s with target := .yield }

/-- The first write of `addTask`. Nobody adds a task that runs. -/
def call (s : Wakeups) (i : Nat) (task : Task) : Option Wakeups :=
  if s.adders i = .idle ∧ ¬(s.scheduler.currentTask = some task ∧ s.blocks.state task =
    .running) then
    some ({ s with blocks := s.blocks.setState task .runnable }.setAdder i (.lock task))
  else none

def stepAdder (s : Wakeups) (i : Nat) : Option Wakeups :=
  match s.adders i with
  | .idle => none
  | .lock task =>
      match s.addTaskLock with
      | none => some ({ s with addTaskLock := some i }.setAdder i (.check task))
      | some _ => none
  | .check task => some (s.setAdder i (.insert task (s.scheduler.preempts s.blocks task)))
  | .insert task front =>
      let pushed :=
        if front then s.scheduler.tasks.pushFront s.blocks.next task
        else s.scheduler.tasks.push s.blocks.next task
      some ({ s with
        scheduler := { s.scheduler with tasks := pushed.1 }
        blocks := { s.blocks with next := pushed.2 } }.setAdder i (.release front))
  | .release front =>
      some ({ s with addTaskLock := none }.setAdder i (if front then .runOn else .idle))
  | .runOn =>
      match s.mailbox with
      | none =>
          some ({ s with
            mailbox := some i
            ipi := true
            callerCanReturn := false }.setAdder i .waiting)
      | some _ => none
  | .waiting =>
      if s.callerCanReturn then some ({ s with mailbox := none }.setAdder i .idle) else none

def stepTarget (s : Wakeups) : Option Wakeups :=
  match s.target with
  | .thread => none
  | .callback => some { s with callerCanReturn := true }.enterYield
  | .yield =>
      let popped := s.scheduler.tasks.pop s.blocks.next
      some { s with
        scheduler := { s.scheduler with tasks := popped.2 }
        target := .popped popped.1 }
  | .popped (some toTask) =>
      let switched := s.scheduler.switchTo s.blocks toTask
      some { s with scheduler := switched.1, blocks := switched.2, target := .thread }
  | .popped none =>
      match s.scheduler.currentTask with
      | none => some { s with target := .halted }
      | some currentTask =>
          if s.blocks.state currentTask = .running then some { s with target := .thread }
          else some { s with target := .swapped }
  | .swapped =>
      match s.scheduler.currentTask with
      | none => none
      | some currentTask =>
          if s.blocks.state currentTask = .running then some { s with target := .thread }
          else some { s with target := .removing }
  | .removing => some { s with scheduler := s.scheduler.removeCurrent, target := .parked }
  | .parked => some { s with target := .halted }
  | .halted => none

/-- The part of `addTask` under `addTaskLock`, which nobody else interrupts. -/
def addOwn (s : Wakeups) (task : Task) : Wakeups :=
  let added := s.blocks.setState task .runnable
  if s.scheduler.preempts added task then
    let pushed := s.scheduler.tasks.pushFront added.next task
    { s with
      scheduler := { s.scheduler with tasks := pushed.1 }
      blocks := { added with next := pushed.2 } }.enterYield
  else
    let pushed := s.scheduler.tasks.push added.next task
    { s with
      scheduler := { s.scheduler with tasks := pushed.1 }
      blocks := { added with next := pushed.2 } }

def tick (s : Wakeups) : Wakeups :=
  match s.scheduler.currentTask with
  | none => s
  | some currentTask =>
      if !s.scheduler.yieldLocked && s.blocks.state currentTask = .running then
        let timeSlice := (s.blocks.timeSlice currentTask + 2 ^ 32 - 1) % 2 ^ 32
        let ticked := { s with blocks := s.blocks.setTimeSlice currentTask timeSlice }
        if timeSlice = 0 then ticked.enterYield else ticked
      else s

/-- Interrupts are on. -/
def interruptible (s : Wakeups) : Bool :=
  s.target = .thread || s.target = .halted

def after? (s : Wakeups) : Event → Option Wakeups
  | .call i task => s.call i task
  | .adder i => s.stepAdder i
  | .block =>
      if s.target = .thread then
        (s.scheduler.block s.blocks).map fun blocked => { s with blocks := blocked.2 }
      else none
  | .yield => if s.target = .thread then some s.enterYield else none
  | .tick => if s.interruptible then some s.tick else none
  | .lock => if s.target = .thread then some { s with scheduler := s.scheduler.lock } else none
  | .unlock =>
      if s.target = .thread then
        let unlocked :=
          { s with scheduler := { s.scheduler with yieldLocked := false, yieldPostponed := false } }
        some (if s.scheduler.yieldPostponed then unlocked.enterYield else unlocked)
      else none
  | .addTask task => if s.interruptible ∧ s.addTaskLock = none then some (s.addOwn task) else none
  | .interrupt =>
      if s.interruptible ∧ s.ipi then some { s with ipi := false, target := .callback } else none
  | .target => s.stepTarget

def Step (s : Wakeups) (event : Event) (t : Wakeups) : Prop :=
  s.after? event = some t

def started (task : Task) (priority : Task → Nat) : Wakeups where
  scheduler := Scheduler.init task
  blocks := ⟨fun _ => .running, fun _ => 0, priority, fun _ => none⟩
  target := .thread
  adders _ := .idle

/-- An adder that nobody interrupts does what `addTask` does. -/
theorem adder_alone {s : Wakeups} {i : Nat} {task : Task} (idle : s.adders i = .idle)
    (free : s.addTaskLock = none)
    (asleep : ¬(s.scheduler.currentTask = some task ∧ s.blocks.state task = .running)) :
    ∃ t, Run Step s [.call i task, .adder i, .adder i, .adder i] t ∧
      (t.scheduler, t.blocks) = s.scheduler.addTask s.blocks false task := by
  obtain ⟨a, called, locking, free, sameScheduler, set⟩ :
      ∃ a, s.Step (.call i task) a ∧ a.adders i = .lock task ∧
      a.addTaskLock = none ∧ a.scheduler = s.scheduler ∧
      a.blocks = s.blocks.setState task .runnable :=
    ⟨_, if_pos ⟨idle, asleep⟩, Function.update_self _ _ _, free, rfl, rfl⟩
  obtain ⟨b, locked, checking, sameB, keptB⟩ : ∃ b, a.Step (.adder i) b ∧ b.adders i = .check task ∧
      b.scheduler = a.scheduler ∧ b.blocks = a.blocks :=
    ⟨{ a with addTaskLock := some i }.setAdder i (.check task),
      by simp only [Step, after?, stepAdder, locking, free], Function.update_self _ _ _, rfl, rfl⟩
  obtain ⟨c, checked, inserting, sameC, keptC⟩ : ∃ c, b.Step (.adder i) c ∧
      c.adders i = .insert task (b.scheduler.preempts b.blocks task) ∧ c.scheduler = b.scheduler ∧
      c.blocks = b.blocks :=
    ⟨b.setAdder i (.insert task (b.scheduler.preempts b.blocks task)),
      by simp only [Step, after?, stepAdder, checking], Function.update_self _ _ _, rfl, rfl⟩
  have run := ((Run.single called).next locked).next checked
  have before : c.scheduler = s.scheduler ∧ c.blocks = s.blocks.setState task .runnable := by
    rw [sameC, sameB, sameScheduler, keptC, keptB, set]
    exact ⟨rfl, rfl⟩
  rw [sameB, keptB, sameScheduler, set] at inserting
  unfold Scheduler.addTask
  by_cases front : s.scheduler.preempts (s.blocks.setState task .runnable) task = true
  · rw [front] at inserting
    rw [if_pos front]
    refine ⟨_, run.next (by simp only [Step, after?, stepAdder, inserting, if_true]; rfl), ?_⟩
    simp [before, setAdder]
  · rw [Bool.eq_false_iff.mpr front] at inserting
    rw [if_neg front]
    refine ⟨_,
      run.next
        (by simp only [Step, after?, stepAdder, inserting, Bool.false_eq_true, if_false]; rfl), ?_⟩
    simp [before, setAdder]

/-- A processor that nobody interrupts does what `yield` does. -/
theorem target_alone {s : Wakeups} (entered : s.target = .yield)
    (unlocked : s.scheduler.yieldLocked = false) :
    ∃ n t, Run Step s (List.replicate n .target) t ∧ (t.scheduler, t.blocks) =
      s.scheduler.yield s.blocks := by
  obtain ⟨a, rest⟩ :
      ∃ a, a = { s.scheduler with tasks := (s.scheduler.tasks.pop s.blocks.next).2 } := ⟨_, rfl⟩
  have popped : s.Step .target
      { s with scheduler := a, target := .popped (s.scheduler.tasks.pop s.blocks.next).1 } := by
    simp only [Step, after?, stepTarget, entered, rest]
  cases first : (s.scheduler.tasks.pop s.blocks.next).1 with
  | some toTask =>
      have body : s.scheduler.yield s.blocks = a.switchTo s.blocks toTask := by
        simp [Scheduler.yield, unlocked, first, rest]
      rw [first] at popped
      rw [body]
      exact ⟨2, _, (Run.single popped).next rfl, rfl⟩
  | none =>
      have body : s.scheduler.yield s.blocks = (a.stay s.blocks, s.blocks) := by
        simp [Scheduler.yield, unlocked, first, rest]
      rw [first] at popped
      rw [body]
      simp only [Scheduler.stay]
      cases current : a.currentTask with
      | none => exact ⟨1, _, Run.single popped, rfl⟩
      | some task =>
          simp only
          split
          · exact ⟨1, _, Run.single popped, rfl⟩
          · rename_i asleep
            have swapped : Step { s with scheduler := a, target := .popped none } .target
                { s with scheduler := a, target := .swapped } := by
              simp only [Step, after?, stepTarget, current, asleep, if_false]
            have removing : Step { s with scheduler := a, target := .swapped } .target
                { s with scheduler := a, target := .removing } := by
              simp only [Step, after?, stepTarget, current, asleep, if_false]
            exact ⟨4, _, (((Run.single popped).next swapped).next removing).next rfl, rfl⟩

/-- The processor is halted although a task is in its queue, and nobody is about to
    tell it. -/
def Lost (s : Wakeups) : Prop :=
  s.target = .halted ∧ s.scheduler.currentTask = none ∧ s.scheduler.tasks.head ≠ none ∧
    (∀ i, s.adders i = .idle) ∧ s.ipi = false

/-- No current task that runs. -/
def Away (s : Wakeups) : Prop :=
  ∀ t ∈ s.scheduler.currentTask, s.blocks.state t ≠ .running

/-- An adder saw the current task run and has still to insert at the back. -/
def Promised (s : Wakeups) : Prop :=
  ∃ i task, s.adders i = .insert task false

/-- The step does not find the queue empty, with the current task no longer running,
    while an adder that saw it run has still to insert its task. -/
def PopsNoPromise (s : Wakeups) : Event → Prop
  | .target => s.target = .yield → s.scheduler.tasks.head = none → s.Away → ¬s.Promised
  | _ => True

/-- The processor has found nothing to run and will halt. -/
def Halting (s : Wakeups) : Prop :=
  match s.target with
  | .popped none => s.Away
  | .swapped | .removing | .parked | .halted => True
  | .thread | .callback | .yield | .popped (some _) => False

/-- The processor is told, or will be, by an adder that has inserted at the front. -/
def Kicked (s : Wakeups) : Prop :=
  s.ipi = true ∨ ∃ i, s.adders i = .release true ∨ s.adders i = .runOn

/-- No adder will insert without an interrupt once the processor has nothing to run,
    and one that has inserted tells the processor. -/
structure Watched (s : Wakeups) : Prop where
  busy : s.target = .thread → s.scheduler.currentTask ≠ none
  resting : s.target = .parked ∨ s.target = .halted → s.scheduler.currentTask = none
  unlocked : s.scheduler.currentTask = none ∨ s.target ≠ .thread ∧ s.target ≠ .callback →
    s.scheduler.yieldLocked = false
  away : s.Halting → s.Away
  undecided : s.Halting ∨ s.scheduler.currentTask = none → ¬s.Promised
  kicked : s.Halting → s.scheduler.tasks.head ≠ none → s.Kicked

section Fields

variable (s : Wakeups) (i : Nat) (adder : Adder)

@[simp] theorem setAdder_target : (s.setAdder i adder).target = s.target := rfl
@[simp] theorem setAdder_scheduler : (s.setAdder i adder).scheduler = s.scheduler := rfl
@[simp] theorem setAdder_blocks : (s.setAdder i adder).blocks = s.blocks := rfl
@[simp] theorem setAdder_ipi : (s.setAdder i adder).ipi = s.ipi := rfl
@[simp] theorem setAdder_adders : (s.setAdder i adder).adders = Function.update s.adders i adder :=
  rfl

@[simp] theorem enterYield_adders : s.enterYield.adders = s.adders := by
  unfold enterYield
  split <;> rfl

end Fields

theorem Halting.congr {s t : Wakeups} (target : t.target = s.target) (away : t.Away ↔ s.Away) :
    t.Halting ↔ s.Halting := by
  unfold Halting
  rw [target, away]

/-- An adder that makes no promise leaves those of the others. -/
theorem Promised.of_setAdder {s : Wakeups} {i : Nat} {adder : Adder}
    (silent : ∀ task, adder ≠ .insert task false) (h : (s.setAdder i adder).Promised) :
    s.Promised := by
  obtain ⟨j, task, promise⟩ := h
  by_cases same : j = i
  · subst same
    exact absurd (by simpa using promise) (silent task)
  · exact ⟨j, task, by simpa [same] using promise⟩

theorem Kicked.setAdder {s : Wakeups} {i : Nat} {adder : Adder} (h : s.Kicked)
    (kept : s.adders i = .release true ∨ s.adders i = .runOn →
      adder = .release true ∨ adder = .runOn) :
    (s.setAdder i adder).Kicked := by
  rcases h with ipi | ⟨j, kick⟩
  · exact .inl ipi
  · by_cases same : j = i
    · subst same
      exact .inr ⟨j, by simpa using kept kick⟩
    · exact .inr ⟨j, by simpa [same] using kick⟩

namespace Watched

variable {s t : Wakeups}

/-- Steps of an adder leave the processor where it is. -/
theorem frame (h : Watched s) (target : t.target = s.target)
    (current : t.scheduler.currentTask = s.scheduler.currentTask)
    (locked : t.scheduler.yieldLocked = s.scheduler.yieldLocked) (away : t.Away ↔ s.Away)
    (promised : s.Away → t.Promised → s.Promised)
    (kicked : ¬s.Promised → t.scheduler.tasks.head ≠ none →
      (s.scheduler.tasks.head ≠ none → s.Kicked) → t.Kicked) :
    Watched t := by
  have same := Halting.congr target away
  have idle : s.Halting ∨ s.scheduler.currentTask = none → s.Away := by
    rintro (halting | none)
    · exact h.away halting
    · simp [Away, none]
  refine ⟨?_, ?_, ?_, ?_, ?_, ?_⟩
  · rw [target, current]
    exact h.busy
  · rw [target, current]
    exact h.resting
  · rw [target, current, locked]
    exact h.unlocked
  · rw [same, away]
    exact h.away
  · rw [same, current]
    exact fun resting promise => h.undecided resting (promised (idle resting) promise)
  · rw [same]
    exact fun halting head => kicked (h.undecided (.inl halting)) head (h.kicked halting)

theorem call (h : Watched s) {i : Nat} {task : Task} (taken : s.call i task = some t) :
    Watched t := by
  unfold Wakeups.call at taken
  split at taken
  · rename_i allowed
    obtain ⟨idle, asleep⟩ := allowed
    obtain rfl := Option.some.inj taken
    refine h.frame rfl rfl rfl ?_ ?_ ?_
    · unfold Away
      simp only [setAdder_scheduler, setAdder_blocks, ControlBlocks.setState_state, Option.mem_def]
      grind
    · exact fun _ => Promised.of_setAdder (by simp)
    · intro _ head kicked
      exact Kicked.setAdder (kicked head) (by simp [idle])
  · cases taken

theorem adder (h : Watched s) {i : Nat} (taken : s.stepAdder i = some t) : Watched t := by
  unfold stepAdder at taken
  cases pc : s.adders i with
  | idle => simp [pc] at taken
  | lock task =>
      simp only [pc] at taken
      split at taken
      · obtain rfl := Option.some.inj taken
        refine h.frame rfl rfl rfl Iff.rfl (fun _ => Promised.of_setAdder (by simp)) ?_
        exact fun _ head kicked => Kicked.setAdder (kicked head) (by simp [pc])
      · cases taken
  | check task =>
      simp only [pc, Option.some.injEq] at taken
      subst taken
      refine h.frame rfl rfl rfl Iff.rfl ?_ ?_
      · intro away
        have front : s.scheduler.preempts s.blocks task = true := by
          unfold Scheduler.preempts
          unfold Away at away
          cases current : s.scheduler.currentTask with
          | none => rfl
          | some other => simp [away other current]
        rw [front]
        exact Promised.of_setAdder (by simp)
      · exact fun _ head kicked => Kicked.setAdder (kicked head) (by simp [pc])
  | insert task front =>
      simp only [pc, Option.some.injEq] at taken
      subst taken
      refine h.frame rfl rfl rfl Iff.rfl (fun _ => Promised.of_setAdder (by simp)) ?_
      intro unpromised _ _
      cases front with
      | true => exact .inr ⟨i, by simp⟩
      | false => exact absurd ⟨i, task, pc⟩ unpromised
  | release front =>
      simp only [pc, Option.some.injEq] at taken
      subst taken
      refine h.frame rfl rfl rfl Iff.rfl (fun _ => Promised.of_setAdder (by split <;> simp)) ?_
      intro _ head kicked
      apply Kicked.setAdder (kicked head)
      cases front <;> simp [pc]
  | runOn =>
      simp only [pc] at taken
      split at taken
      · obtain rfl := Option.some.inj taken
        exact h.frame rfl rfl rfl Iff.rfl (fun _ => Promised.of_setAdder (by simp)) fun _ _ _ =>
          .inl rfl
      · cases taken
  | waiting =>
      simp only [pc] at taken
      split at taken
      · obtain rfl := Option.some.inj taken
        refine h.frame rfl rfl rfl Iff.rfl (fun _ => Promised.of_setAdder (by simp)) ?_
        exact fun _ head kicked => Kicked.setAdder (kicked head) (by simp [pc])
      · cases taken

/-- A processor that runs a task is in no danger. -/
theorem of_thread (target : t.target = .thread) (current : t.scheduler.currentTask ≠ none) :
    Watched t := by
  have running : ¬t.Halting := by simp [Halting, target]
  refine ⟨fun _ => current, ?_, ?_, fun halting => absurd halting running, ?_,
    fun halting => absurd halting running⟩
  · simp [target]
  · simp [target, current]
  · rintro (halting | none)
    · exact absurd halting running
    · exact absurd none current

theorem enterYield (locked : s.scheduler.yieldLocked = true → s.scheduler.currentTask ≠ none)
    (undecided : s.scheduler.currentTask = none → ¬s.Promised) : Watched s.enterYield := by
  unfold Wakeups.enterYield
  split
  · rename_i held
    exact of_thread rfl (locked held)
  · rename_i open_
    refine ⟨by simp, by simp, fun _ => Bool.eq_false_iff.mpr open_, by simp [Halting], ?_,
      by simp [Halting]⟩
    rintro (halting | none)
    · simp [Halting] at halting
    · exact undecided none

theorem pop (h : Watched s) (entered : s.target = .yield) (fed : s.PopsNoPromise .target)
    (taken : s.stepTarget = some t) : Watched t := by
  have unlocked := h.unlocked (.inr (by simp [entered]))
  simp only [stepTarget, entered, Option.some.injEq] at taken
  subst taken
  cases head : s.scheduler.tasks.head with
  | none =>
      have empty : s.scheduler.tasks.pop s.blocks.next = (none, s.scheduler.tasks) := by
        simp [Queue.pop, head]
      rw [empty]
      refine ⟨by simp, by simp, fun _ => unlocked, fun away => away, ?_,
        fun _ filled => absurd head filled⟩
      rintro (away | none)
      · exact fed entered head away
      · exact h.undecided (.inr none)
  | some toTask =>
      have first : (s.scheduler.tasks.pop s.blocks.next).1 = some toTask := by
        simp only [Queue.pop, head]
        split <;> rfl
      rw [first]
      refine ⟨by simp, by simp, fun _ => unlocked, by simp [Halting], ?_, by simp [Halting]⟩
      rintro (halting | none)
      · simp [Halting] at halting
      · exact h.undecided (.inr none)

/-- The processor goes on towards its halt. -/
theorem onward (h : Watched s) (halting : s.Halting) {target : Target} {current : Option Task}
    (same : current = s.scheduler.currentTask ∨ current = none)
    (resting : target = .parked ∨ target = .halted → current = none)
    (busy : target ≠ .thread ∧ target ≠ .callback) :
    Watched { s with
      scheduler := { s.scheduler with currentTask := current }
      target := target } := by
  have away := h.away halting
  have unlocked : s.scheduler.yieldLocked = false := by
    apply h.unlocked
    refine .inr ⟨?_, ?_⟩ <;> rintro target <;> simp [Halting, target] at halting
  refine ⟨fun thread => absurd thread busy.1, resting, fun _ => unlocked, ?_, ?_, ?_⟩
  · intro _
    unfold Away at away ⊢
    rcases same with same | none
    · rw [same]
      exact away
    · simp [none]
  · exact fun _ => h.undecided (.inl halting)
  · exact fun _ => h.kicked halting

theorem target (h : Watched s) (fed : s.PopsNoPromise .target) (taken : s.stepTarget = some t) :
    Watched t := by
  cases pc : s.target with
  | thread => simp [stepTarget, pc] at taken
  | halted => simp [stepTarget, pc] at taken
  | yield => exact h.pop pc fed taken
  | callback =>
      simp only [stepTarget, pc, Option.some.injEq] at taken
      subst taken
      apply enterYield
      · intro locked none
        simp [h.unlocked (.inl none)] at locked
      · exact fun none => h.undecided (.inr none)
  | popped toTask =>
      cases toTask with
      | some toTask =>
          simp only [stepTarget, pc, Option.some.injEq] at taken
          subst taken
          apply of_thread rfl
          simp [Scheduler.switchTo_currentTask]
      | none =>
          simp only [stepTarget, pc] at taken
          cases current : s.scheduler.currentTask with
          | none =>
              simp only [current, Option.some.injEq] at taken
              subst taken
              exact h.onward (by simp [Halting, pc, Away, current]) (.inl rfl)
                (fun _ => current) (by simp)
          | some currentTask =>
              simp only [current] at taken
              split at taken
              · obtain rfl := Option.some.inj taken
                exact of_thread rfl (by simp [current])
              · rename_i asleep
                obtain rfl := Option.some.inj taken
                exact h.onward (by simp [Halting, pc, Away, current, asleep]) (.inl rfl)
                  (by simp) (by simp)
  | swapped =>
      simp only [stepTarget, pc] at taken
      cases current : s.scheduler.currentTask with
      | none => simp [current] at taken
      | some currentTask =>
          simp only [current] at taken
          split at taken
          · obtain rfl := Option.some.inj taken
            exact of_thread rfl (by simp [current])
          · obtain rfl := Option.some.inj taken
            exact h.onward (by simp [Halting, pc]) (.inl rfl) (by simp) (by simp)
  | removing =>
      simp only [stepTarget, pc, Option.some.injEq] at taken
      subst taken
      exact h.onward (by simp [Halting, pc]) (.inr rfl) (by simp) (by simp)
  | parked =>
      simp only [stepTarget, pc, Option.some.injEq] at taken
      subst taken
      exact h.onward (by simp [Halting, pc]) (.inl rfl) (fun _ => h.resting (.inl pc)) (by simp)

theorem addOwn (h : Watched s) (free : s.target = .thread ∨ s.target = .halted) (task : Task) :
    Watched (s.addOwn task) := by
  unfold Wakeups.addOwn
  simp only
  split
  · apply enterYield
    · intro locked none
      simp [h.unlocked (.inl none)] at locked
    · exact fun none => h.undecided (.inr none)
  · rename_i back
    have current : s.scheduler.currentTask ≠ none := by
      intro none
      simp [Scheduler.preempts, none] at back
    rcases free with thread | halted
    · exact of_thread thread current
    · exact absurd (h.resting (.inr halted)) current

theorem tick (h : Watched s) (free : s.target = .thread ∨ s.target = .halted) : Watched s.tick := by
  unfold Wakeups.tick
  cases current : s.scheduler.currentTask with
  | none => exact h
  | some currentTask =>
      have thread : s.target = .thread := by
        rcases free with thread | halted
        · exact thread
        · simp [h.resting (.inr halted)] at current
      simp only
      generalize (s.blocks.timeSlice currentTask + 2 ^ 32 - 1) % 2 ^ 32 = timeSlice
      split
      · split
        · apply enterYield
          · simp [current]
          · simp [current]
        · exact of_thread thread (by simp [current])
      · exact h

theorem step (h : Watched s) {event : Event} (fed : s.PopsNoPromise event)
    (taken : s.Step event t) : Watched t := by
  unfold Step after? at taken
  cases event with
  | call i task => exact h.call taken
  | adder i => exact h.adder taken
  | target => exact h.target fed taken
  | block =>
      simp only at taken
      split at taken
      · rename_i thread
        obtain ⟨blocked, _, rfl⟩ := Option.map_eq_some_iff.mp taken
        exact of_thread thread (h.busy thread)
      · cases taken
  | yield =>
      simp only at taken
      split at taken
      · rename_i thread
        obtain rfl := Option.some.inj taken
        exact enterYield (fun _ => h.busy thread) fun none => absurd none (h.busy thread)
      · cases taken
  | tick =>
      simp only at taken
      split at taken
      · rename_i free
        obtain rfl := Option.some.inj taken
        exact h.tick (by simpa [interruptible] using free)
      · cases taken
  | lock =>
      simp only at taken
      split at taken
      · rename_i thread
        obtain rfl := Option.some.inj taken
        exact of_thread thread (h.busy thread)
      · cases taken
  | unlock =>
      simp only at taken
      split at taken
      · rename_i thread
        obtain rfl := Option.some.inj taken
        split
        · exact enterYield (fun _ => h.busy thread) fun none => absurd none (h.busy thread)
        · exact of_thread thread (h.busy thread)
      · cases taken
  | addTask task =>
      simp only at taken
      split at taken
      · rename_i free
        obtain rfl := Option.some.inj taken
        exact h.addOwn (by simpa [interruptible] using free.1) task
      · cases taken
  | interrupt =>
      simp only at taken
      split at taken
      · obtain rfl := Option.some.inj taken
        refine ⟨by simp, by simp, ?_, by simp [Halting], ?_, by simp [Halting]⟩
        · rintro (none | ⟨_, other⟩)
          · exact h.unlocked (.inl none)
          · exact absurd rfl other
        · rintro (halting | none)
          · simp [Halting] at halting
          · exact h.undecided (.inr none)
      · cases taken

end Watched

/-- In every run in which the processor never finds its queue empty while an adder
    has yet to keep a promise, no wake-up is lost. -/
theorem no_lost_wakeup {task : Task} {priority : Task → Nat} {events : List Event} {s : Wakeups}
    (run : Run (fun s event t => s.PopsNoPromise event ∧ s.Step event t)
      (started task priority) events s) :
    ¬s.Lost := by
  have watched :=
    run.invariant (P := Watched) (Watched.of_thread rfl (by simp [started, Scheduler.init]))
    fun _ _ _ h ⟨fed, taken⟩ => h.step fed taken
  rintro ⟨halted, _, filled, idle, quiet⟩
  have halting : s.Halting := by simp [Halting, halted]
  rcases watched.kicked halting filled with ipi | ⟨i, kick⟩
  · simp [quiet] at ipi
  · simp [idle i] at kick

/-- The adder inserts at the back before the processor looks for a task. -/
def kept : List Event :=
  [.call 1 7, .adder 1, .adder 1, .adder 1, .adder 1, .block, .yield, .target, .target]

theorem no_lost_wakeup_in_time :
    ∃ s, Run (fun s event t => s.PopsNoPromise event ∧ s.Step event t)
      (started 0 fun _ => 0) kept s ∧
      s.scheduler.currentTask = some 7 ∧ ¬s.Lost := by
  have computed : ∃ s, kept.foldlM (fun s event =>
      if event = .target ∧ s.target = .yield ∧ s.scheduler.tasks.head = none then none
      else s.after? event)
      (started 0 fun _ => 0) = some s ∧ s.scheduler.currentTask = some 7 :=
        ⟨_, rfl, by decide +kernel⟩
  obtain ⟨s, replayed, current⟩ := computed
  have run : Run (fun s event t => s.PopsNoPromise event ∧ s.Step event t)
      (started 0 fun _ => 0) kept s := by
    apply (Run.of_foldlM replayed).mono
    intro s event t taken
    split at taken
    · cases taken
    · rename_i filled
      refine ⟨?_, taken⟩
      cases event with
      | target => exact fun entered empty => absurd ⟨rfl, entered, empty⟩ filled
      | _ => trivial
  exact ⟨s, run, current, no_lost_wakeup run⟩

/-- The adder looks, the processor blocks, finds nothing and halts, and the adder
    inserts at the back. -/
def promise : List Event :=
  [.call 1 7, .adder 1, .adder 1, .block, .yield, .target, .target, .target, .target, .target,
    .adder 1, .adder 1]

theorem wakeup_lost : ∃ s, Run Step (started 0 fun _ => 0) promise s ∧ s.Lost := by
  have computed : ∃ s, promise.foldlM after? (started 0 fun _ => 0) = some s ∧ (s.target = .halted ∧
      s.scheduler.currentTask = none ∧ s.scheduler.tasks.head = some 7 ∧ s.adders 1 = .idle ∧
      s.ipi = false) ∧
      ∀ i, i ≠ 1 → s.adders i = .idle :=
    ⟨_, rfl, by decide +kernel, fun i other => by simp [setAdder, other, started]⟩
  obtain ⟨s, replayed, ⟨halted, gone, head, done, quiet⟩, others⟩ := computed
  refine ⟨s, Run.of_foldlM replayed, halted, gone, by simp [head], ?_, quiet⟩
  intro i
  by_cases same : i = 1
  · exact same ▸ done
  · exact others i same

end Wakeups

end Mykonos.Tasks
