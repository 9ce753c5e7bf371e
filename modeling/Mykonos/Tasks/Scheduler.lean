import Mykonos.Tasks.Queue

/-! # The scheduler of one processor

`scheduler::Scheduler` with the fields of the control blocks that it reads and
writes. The functions take the scheduler and the control blocks before the call
and return them after it. Switching registers and stacks is not part of this
model: a call that switches returns the state in which the other task goes on.
-/

namespace Mykonos.Tasks

inductive State where
  | running
  | runnable
  | blocking
  deriving Repr, DecidableEq

/-- One map for each field of `task::ControlBlock`. `timeSlice` and `priority`
    are unsigned integers of 32 bits. -/
structure ControlBlocks where
  state : Task → State
  timeSlice : Task → Nat
  priority : Task → Nat
  next : Links

namespace ControlBlocks

def setState (blocks : ControlBlocks) (task : Task) (state : State) : ControlBlocks :=
  { blocks with state := Function.update blocks.state task state }

def setTimeSlice (blocks : ControlBlocks) (task : Task) (timeSlice : Nat) : ControlBlocks :=
  { blocks with timeSlice := Function.update blocks.timeSlice task timeSlice }

section Fields

variable (blocks : ControlBlocks) (task : Task) (state : State) (timeSlice : Nat)

@[simp] theorem setState_state :
    (blocks.setState task state).state = Function.update blocks.state task state := rfl
@[simp] theorem setState_timeSlice : (blocks.setState task state).timeSlice = blocks.timeSlice :=
  rfl
@[simp] theorem setState_priority : (blocks.setState task state).priority = blocks.priority := rfl
@[simp] theorem setState_next : (blocks.setState task state).next = blocks.next := rfl
@[simp] theorem setTimeSlice_state : (blocks.setTimeSlice task timeSlice).state = blocks.state :=
  rfl
@[simp] theorem setTimeSlice_timeSlice :
    (blocks.setTimeSlice task timeSlice).timeSlice =
      Function.update blocks.timeSlice task timeSlice := rfl
@[simp] theorem setTimeSlice_priority :
    (blocks.setTimeSlice task timeSlice).priority = blocks.priority := rfl
@[simp] theorem setTimeSlice_next : (blocks.setTimeSlice task timeSlice).next = blocks.next := rfl

end Fields

end ControlBlocks

def initialTimeSlice : Nat := 5

structure Scheduler where
  tasks : Queue := {}
  currentTask : Option Task
  yieldLocked : Bool := false
  yieldPostponed : Bool := false
  deriving Repr, DecidableEq

namespace Scheduler

/-- A task that is left while it runs goes to the back of the queue. -/
def requeue (s : Scheduler) (blocks : ControlBlocks) (fromTask : Task) :
    Scheduler × ControlBlocks :=
  if blocks.state fromTask = .running then
    let pushed := s.tasks.push blocks.next fromTask
    ({ s with tasks := pushed.1 }, { blocks.setState fromTask .runnable with next := pushed.2 })
  else (s, blocks)

/-- The branch of `yield` for a task that was popped. The state of the old task
    is read after the new one is set to running. -/
def switchTo (s : Scheduler) (blocks : ControlBlocks) (toTask : Task) : Scheduler × ControlBlocks :=
  let dispatched := (blocks.setState toTask .running).setTimeSlice toTask initialTimeSlice
  match s.currentTask with
  | none => ({ s with currentTask := some toTask }, dispatched)
  | some fromTask => requeue { s with currentTask := some toTask } dispatched fromTask

def removeCurrent (s : Scheduler) : Scheduler :=
  { s with currentTask := none }

/-- The branches of `yield` for an empty queue: the processor stays idle, gives
    up a task that no longer runs, or goes on with the one that does. -/
def stay (s : Scheduler) (blocks : ControlBlocks) : Scheduler :=
  match s.currentTask with
  | none => s
  | some currentTask => if blocks.state currentTask = .running then s else s.removeCurrent

def yield (s : Scheduler) (blocks : ControlBlocks) : Scheduler × ControlBlocks :=
  if s.yieldLocked then ({ s with yieldPostponed := true }, blocks)
  else
    let popped := s.tasks.pop blocks.next
    match popped.1 with
    | some toTask => switchTo { s with tasks := popped.2 } blocks toTask
    | none => (stay { s with tasks := popped.2 } blocks, blocks)

/-- Whether `addTask` puts the task at the front. -/
def preempts (s : Scheduler) (blocks : ControlBlocks) (task : Task) : Bool :=
  match s.currentTask with
  | none => true
  | some currentTask =>
      blocks.state currentTask != .running || blocks.priority currentTask < blocks.priority task

/-- `own` says that the calling processor is the one of this scheduler. Another
    one asks it to yield, which it does later. -/
def addTask (s : Scheduler) (blocks : ControlBlocks) (own : Bool) (task : Task) :
    Scheduler × ControlBlocks :=
  let added := blocks.setState task .runnable
  if s.preempts added task then
    let pushed := s.tasks.pushFront added.next task
    let waiting : Scheduler × ControlBlocks :=
      ({ s with tasks := pushed.1 }, { added with next := pushed.2 })
    if own then waiting.1.yield waiting.2 else waiting
  else
    let pushed := s.tasks.push added.next task
    ({ s with tasks := pushed.1 }, { added with next := pushed.2 })

def tick (s : Scheduler) (blocks : ControlBlocks) : Scheduler × ControlBlocks :=
  match s.currentTask with
  | none => (s, blocks)
  | some currentTask =>
      if !s.yieldLocked && blocks.state currentTask = .running then
        let timeSlice := (blocks.timeSlice currentTask + 2 ^ 32 - 1) % 2 ^ 32
        let ticked := blocks.setTimeSlice currentTask timeSlice
        if timeSlice = 0 then s.yield ticked else (s, ticked)
      else (s, blocks)

def lock (s : Scheduler) : Scheduler :=
  { s with yieldLocked := true, yieldPostponed := false }

def unlock (s : Scheduler) (blocks : ControlBlocks) : Scheduler × ControlBlocks :=
  if s.yieldPostponed then { s with yieldLocked := false, yieldPostponed := false }.yield blocks
  else ({ s with yieldLocked := false }, blocks)

/-- Nothing when there is no current task: the source would write through null. -/
def block (s : Scheduler) (blocks : ControlBlocks) : Option (Task × ControlBlocks) :=
  s.currentTask.map fun currentTask => (currentTask, blocks.setState currentTask .blocking)

def taskCount (s : Scheduler) (blocks : ControlBlocks) : Nat :=
  match s.currentTask with
  | none => s.tasks.getSize
  | some currentTask =>
      if blocks.state currentTask = .running then (s.tasks.getSize + 1) % 2 ^ 32
      else s.tasks.getSize

def init (task : Task) : Scheduler where
  currentTask := some task

theorem pop_empty {q : Queue} {next : Links} (h : q.Shows next []) : q.pop next = (none, q) := by
  unfold Queue.pop
  rw [h.head]
  rfl

section Yield

variable {s : Scheduler} {blocks : ControlBlocks}

theorem yield_locked (locked : s.yieldLocked = true) :
    s.yield blocks = ({ s with yieldPostponed := true }, blocks) := by
  simp [yield, locked]

theorem yield_empty (unlocked : s.yieldLocked = false) (h : s.tasks.Shows blocks.next []) :
    s.yield blocks = (s.stay blocks, blocks) := by
  unfold yield
  rw [if_neg (by simp [unlocked]), pop_empty h]

theorem yield_cons {toTask : Task} {rest : List Task} (unlocked : s.yieldLocked = false)
    (h : s.tasks.Shows blocks.next (toTask :: rest)) :
    s.yield blocks = switchTo { s with tasks := (s.tasks.pop blocks.next).2 } blocks toTask := by
  simp [yield, unlocked, h.pop.1]

theorem requeue_currentTask {fromTask : Task} :
    (s.requeue blocks fromTask).1.currentTask = s.currentTask := by
  unfold requeue
  split <;> rfl

theorem switchTo_currentTask {toTask : Task} :
    (s.switchTo blocks toTask).1.currentTask = some toTask := by
  unfold switchTo
  cases s.currentTask with
  | none => rfl
  | some fromTask => exact requeue_currentTask

theorem switchTo_flags {toTask : Task} : (s.switchTo blocks toTask).1.yieldLocked = s.yieldLocked ∧
    (s.switchTo blocks toTask).1.yieldPostponed = s.yieldPostponed := by
  unfold switchTo requeue
  grind

/-- A yield that is not postponed leaves the lock alone. -/
theorem yield_flags (blocks : ControlBlocks) (unlocked : s.yieldLocked = false) :
    (s.yield blocks).1.yieldLocked = s.yieldLocked ∧
    (s.yield blocks).1.yieldPostponed = s.yieldPostponed := by
  unfold yield
  rw [if_neg (by simp [unlocked])]
  simp only
  cases (s.tasks.pop blocks.next).1 with
  | some toTask => exact switchTo_flags
  | none =>
      unfold stay removeCurrent
      grind

end Yield

end Scheduler

end Mykonos.Tasks
