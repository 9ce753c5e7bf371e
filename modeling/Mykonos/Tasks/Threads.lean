import Mykonos.Lib.Run
import Mykonos.Tasks.Places
import Mykonos.Smp.Shootdown

/-! # The code that threads run

`Mutex`, `Completion`, `util::Queue`, `thread::create`, `thread::destroy`,
`scheduler::addTask`, `runOn` and the loop of `unmapMemory` that calls it, cut into the
steps between which other processors act. A step that branches replaces itself with
the code of the branch. Every processor is in the code of one task, waits for the run
lock of the task that it switches to, or halts.
-/

namespace Mykonos.Tasks

open Lib

/-- An object that tasks wait for. It has a spinlock and a queue of waiting tasks. -/
inductive Kind where
  | mutex
  | completion
  | queue
  deriving Repr, DecidableEq

inductive Spinlock where
  | object (id : Nat)
  /-- Of the queue of tasks that wait for the object. -/
  | waiters (id : Nat)
  | addTask (cpu : Nat)
  /-- Of the run queue. -/
  | tasks (cpu : Nat)
  | mailbox (cpu : Nat)
  deriving Repr, DecidableEq

/-- What a processor asks another one to do. -/
inductive Callback where
  | yield
  | flush
  deriving Repr, DecidableEq

inductive Op where
  | acquire (lock : Spinlock)
  /-- In `acquire`, with interrupts off. -/
  | spin (lock : Spinlock) (oldIrqState : Bool)
  | release (lock : Spinlock)
  | disableIrqs
  /-- `scheduler::block`, for the queue of the object if there is one. -/
  | block (object : Option Nat)
  | pushWaiter (object : Nat) (task : Task)
  | yield
  | lock
  | unlock
  | addTask (task : Task)
  /-- In `addTask`, before the current task is looked at. -/
  | insert (cpu : Nat) (task : Task)
  | pushFront (cpu : Nat) (task : Task)
  | push (cpu : Nat) (task : Task)
  | runOn (cpu : Nat) (callback : Callback)
  /-- The writes to the mailbox and the interrupt. -/
  | send (cpu : Nat) (callback : Callback)
  | wait (cpu : Nat)
  | withdraw (cpu : Nat)
  /-- `if (!lock)` in `Mutex::acquire`. -/
  | testMutex (object : Nat)
  | popBlocked (object : Nat)
  | clearMutex (object : Nat)
  /-- `if (completed)` in `await`. -/
  | testCompleted (object : Nat)
  | setCompleted (object : Nat)
  /-- The `pop` before the loop of `signalComplete`. -/
  | popFirst (object : Nat)
  | popNext (object : Nat)
  | wakeAll (object : Nat) (nextTask : Option Task)
  /-- `if (tail != nullptr)` in `util::Queue::push`. -/
  | testTail (object : Nat)
  | popWaiting (object : Nat)
  /-- `if (head == nullptr)` in `util::Queue::pop`. -/
  | testHead (object : Nat)
  | takeHead (object : Nat)
  | create (priority : Nat)
  /-- An iteration of the loop of `unmapMemory`. -/
  | shootdown (i : Nat)
  /-- A null pointer is read, or `destroy` came back. -/
  | kpanic
  deriving Repr, DecidableEq

/-- The functions that threads call. -/
inductive Primitive where
  | acquireMutex (object : Nat)
  | releaseMutex (object : Nat)
  | await (object : Nat)
  | signalComplete (object : Nat)
  | pushQueue (object : Nat)
  | popQueue (object : Nat)
  | create (priority : Nat)
  /-- With the queue of the cleaner. -/
  | destroy (object : Nat)
  | unmapMemory
  deriving Repr, DecidableEq

def Primitive.code : Primitive → List Op
  | .acquireMutex o => [.acquire (.object o), .testMutex o]
  | .releaseMutex o => [.acquire (.object o), .acquire (.waiters o), .popBlocked o]
  | .await o => [.acquire (.object o), .testCompleted o]
  | .signalComplete o => [.acquire (.object o), .setCompleted o, .acquire (.waiters o), .popFirst o]
  | .pushQueue o => [.acquire (.object o), .testTail o]
  | .popQueue o => [.acquire (.object o), .testHead o]
  | .create priority => [.create priority]
  | .destroy o => [.disableIrqs, .block none, .acquire (.object o), .testTail o, .yield, .kpanic]
  | .unmapMemory => [.shootdown 0]

def Primitive.uses : Primitive → Option (Nat × Kind)
  | .acquireMutex o | .releaseMutex o => some (o, .mutex)
  | .await o | .signalComplete o => some (o, .completion)
  | .pushQueue o | .popQueue o | .destroy o => some (o, .queue)
  | .create _ | .unmapMemory => none

inductive Activity where
  | executing (task : Task)
  /-- In `lockTask`, with interrupts off. -/
  | loading (toTask : Task)
  | halted
  deriving Repr, DecidableEq

/-- All processors and what they share. `owner` is the task that has a spinlock and
    `irqs` the interrupt flag of a task, which goes with its registers. The elements of
    a `util::Queue` are counted only. -/
structure Threads where
  kernel : Kernel
  kind : Nat → Kind
  lock : Nat → Bool
  completed : Nat → Bool
  elements : Nat → Nat
  owner : Spinlock → Option Task
  enableIrqs : Spinlock → Bool
  irqs : Task → Bool
  code : Task → List Op
  activity : Nat → Activity
  callback : Nat → Option Callback
  callerCanReturn : Nat → Bool
  ipis : Nat → Nat

namespace Threads

inductive Event where
  | call (cpu : Nat) (primitive : Primitive)
  /-- The processor takes the next step of the code it is in. -/
  | step (cpu : Nat)
  /-- The processor takes the interrupt of a call. -/
  | interrupt (cpu : Nat)
  | tick (cpu : Nat)
  /-- `lockTask` returns. -/
  | load (cpu : Nat)
  deriving Repr, DecidableEq

def Event.cpu : Event → Nat
  | .call cpu _ | .step cpu | .interrupt cpu | .tick cpu | .load cpu => cpu

def scheduler (s : Threads) (cpu : Nat) : Scheduler :=
  s.kernel.schedulers cpu

def setCode (s : Threads) (task : Task) (code : List Op) : Threads :=
  { s with code := Function.update s.code task code }

def setIrqs (s : Threads) (task : Task) (irqs : Bool) : Threads :=
  { s with irqs := Function.update s.irqs task irqs }

def setActivity (s : Threads) (cpu : Nat) (activity : Activity) : Threads :=
  { s with activity := Function.update s.activity cpu activity }

def setBlocks (s : Threads) (blocks : ControlBlocks) : Threads :=
  { s with kernel := { s.kernel with blocks := blocks } }

def setScheduler (s : Threads) (cpu : Nat) (scheduler : Scheduler) : Threads :=
  { s with kernel := s.kernel.on cpu (scheduler, s.kernel.blocks) }

/-- The queue of waiting tasks of the object and what is popped from it. -/
def popWaiter (s : Threads) (object : Nat) : Option Task × Threads :=
  let popped := (s.kernel.waiting object).pop s.kernel.blocks.next
  (popped.1, { s with kernel := s.kernel.store object (popped.2, s.kernel.blocks) })

/-- `yield` in one piece. The run lock of the old task is released when the processor
    has its registers. -/
def yield (s : Threads) (cpu : Nat) : Threads :=
  let kernel := s.kernel.on cpu ((s.scheduler cpu).yield s.kernel.blocks)
  if (s.scheduler cpu).yieldLocked then { s with kernel := kernel }
  else
    match ((s.scheduler cpu).tasks.pop s.kernel.blocks.next).1 with
    | some toTask => { s with kernel := kernel }.setActivity cpu (.loading toTask)
    | none =>
        if kernel.currentTask cpu = none then { s with kernel := kernel }.setActivity cpu .halted
        else { s with kernel := kernel }

/-- The lock of the run queue, which `yield` takes for a moment. -/
def canYield (s : Threads) (cpu : Nat) : Bool :=
  (s.scheduler cpu).yieldLocked || s.owner (.tasks cpu) == none

def unlock (s : Threads) (cpu : Nat) : Threads :=
  let scheduler := s.scheduler cpu
  if scheduler.yieldPostponed then
    (s.setScheduler cpu { scheduler with yieldLocked := false, yieldPostponed := false }).yield cpu
  else s.setScheduler cpu { scheduler with yieldLocked := false }

def tick (s : Threads) (cpu : Nat) : Threads :=
  match (s.scheduler cpu).currentTask with
  | none => s
  | some currentTask =>
      if !(s.scheduler cpu).yieldLocked && s.kernel.blocks.state currentTask = .running then
        let timeSlice := (s.kernel.blocks.timeSlice currentTask + 2 ^ 32 - 1) % 2 ^ 32
        let ticked := s.setBlocks (s.kernel.blocks.setTimeSlice currentTask timeSlice)
        if timeSlice = 0 then ticked.yield cpu else ticked
      else s

/-- The processor takes interrupts. -/
def irqsOn (s : Threads) (cpu : Nat) : Bool :=
  match s.activity cpu with
  | .executing task => s.irqs task
  | .loading _ => false
  | .halted => true

/-- `receiveCall`, with the callback that it finds. -/
def receiveCall (s : Threads) (cpu : Nat) : Threads :=
  match s.callback cpu with
  | none => s
  | some .flush => { s with callerCanReturn := Function.update s.callerCanReturn cpu true }
  | some .yield =>
      { s with callerCanReturn := Function.update s.callerCanReturn cpu true }.yield cpu

/-- Whether the run lock of the task is free. -/
def loadable (s : Threads) (task : Task) : Bool :=
  (List.range s.kernel.cpus).all fun cpu => s.activity cpu != .executing task

/-- The code that comes after `push_front` in `addTask`. -/
def preempt (cpu target : Nat) : Op :=
  if target = cpu then .yield else .runOn target .yield

/-- A step of the task that the processor executes, with the code after it. -/
def execute (s : Threads) (cpu : Nat) (task : Task) (rest : List Op) : Op → Option Threads
  | .acquire lock => some ((s.setIrqs task false).setCode task (.spin lock (s.irqs task) :: rest))
  | .spin lock oldIrqState =>
      match s.owner lock with
      | some _ => none
      | none =>
          some ({ s with
            owner := Function.update s.owner lock (some task)
            enableIrqs := Function.update s.enableIrqs lock oldIrqState }.setCode task rest)
  | .release lock =>
      some (({ s with owner := Function.update s.owner lock none }.setIrqs task
        (s.enableIrqs lock || s.irqs task)).setCode task rest)
  | .disableIrqs => some ((s.setIrqs task false).setCode task rest)
  | .block object =>
      (s.scheduler cpu).block s.kernel.blocks |>.map fun blocked =>
        (s.setBlocks blocked.2).setCode task
          (match object with
          | none => rest
          | some o => .acquire (.waiters o) :: .pushWaiter o blocked.1 ::
              .release (.waiters o) :: rest)
  | .pushWaiter o blocked =>
      let pushed := (s.kernel.waiting o).push s.kernel.blocks.next blocked
      some ({ s with
        kernel := s.kernel.store o (pushed.1, { s.kernel.blocks with next := pushed.2 })
          }.setCode task rest)
  | .yield => if s.canYield cpu then some ((s.setCode task rest).yield cpu) else none
  | .lock => some ((s.setScheduler cpu (s.scheduler cpu).lock).setCode task rest)
  | .unlock =>
      if (s.scheduler cpu).yieldPostponed && s.owner (.tasks cpu) != none then none
      else some ((s.setCode task rest).unlock cpu)
  | .addTask other =>
      let target := s.kernel.getLeastBusy cpu
      some ((s.setBlocks (s.kernel.blocks.setState other .runnable)).setCode task
        (.acquire (.addTask target) :: .insert target other :: rest))
  | .insert target other =>
      if (s.scheduler target).preempts s.kernel.blocks other then
        some (s.setCode task (.acquire (.tasks target) :: .pushFront target other ::
          .release (.tasks target) ::
          .release (.addTask target) :: preempt cpu target :: rest))
      else
        some (s.setCode task (.acquire (.tasks target) :: .push target other ::
          .release (.tasks target) ::
          .release (.addTask target) :: rest))
  | .pushFront target other =>
      let pushed := (s.scheduler target).tasks.pushFront s.kernel.blocks.next other
      some ({ s with
        kernel := s.kernel.on target
          ({ s.scheduler target with tasks := pushed.1 },
            { s.kernel.blocks with next := pushed.2 }) }.setCode task rest)
  | .push target other =>
      let pushed := (s.scheduler target).tasks.push s.kernel.blocks.next other
      some ({ s with
        kernel := s.kernel.on target
          ({ s.scheduler target with tasks := pushed.1 },
            { s.kernel.blocks with next := pushed.2 }) }.setCode task rest)
  | .runOn target callback =>
      some (s.setCode task (if target < Smp.maxCpus then
          .acquire (.mailbox target) :: .send target callback :: .withdraw target ::
            .release (.mailbox target) :: rest
        else rest))
  | .send target callback =>
      some ({ s with
        callback := Function.update s.callback target (some callback)
        callerCanReturn := Function.update s.callerCanReturn target false
        ipis :=
          Function.update s.ipis target (s.ipis target + 1) }.setCode task (.wait target :: rest))
  | .wait target => if s.callerCanReturn target then some (s.setCode task rest) else none
  | .withdraw target =>
      some ({ s with callback := Function.update s.callback target none }.setCode task rest)
  | .testMutex o =>
      if !s.lock o then
        some ({ s with lock := Function.update s.lock o true }.setCode task
          (.release (.object o) :: rest))
      else some (s.setCode task (.block (some o) :: .release (.object o) :: .yield :: rest))
  | .popBlocked o =>
      let popped := s.popWaiter o
      some (popped.2.setCode task (.release (.waiters o) ::
        match popped.1 with
        | none => .clearMutex o :: .release (.object o) :: rest
        | some nextTask => .release (.object o) :: .addTask nextTask :: rest))
  | .clearMutex o => some ({ s with lock := Function.update s.lock o false }.setCode task rest)
  | .testCompleted o =>
      some (s.setCode task (if s.completed o then .release (.object o) :: rest
        else .block (some o) :: .release (.object o) :: .yield :: rest))
  | .setCompleted o =>
      some ({ s with completed := Function.update s.completed o true }.setCode task rest)
  | .popFirst o =>
      let popped := s.popWaiter o
      some (popped.2.setCode task (.release (.waiters o) :: .lock :: .wakeAll o popped.1 :: rest))
  | .popNext o =>
      let popped := s.popWaiter o
      some (popped.2.setCode task (.release (.waiters o) :: .wakeAll o popped.1 :: rest))
  | .wakeAll o nextTask =>
      some (s.setCode task (match nextTask with
        | none => .unlock :: .release (.object o) :: rest
        | some other => .addTask other :: .acquire (.waiters o) :: .popNext o :: rest))
  | .testTail o =>
      some ({ s with elements := Function.update s.elements o (s.elements o + 1) }.setCode task
        (if s.elements o = 0 then .acquire (.waiters o) :: .popWaiting o :: rest
          else .release (.object o) :: rest))
  | .popWaiting o =>
      let popped := s.popWaiter o
      some (popped.2.setCode task (.release (.waiters o) :: .release (.object o) ::
        match popped.1 with
        | none => rest
        | some wokenUpTask => .addTask wokenUpTask :: rest))
  | .testHead o =>
      some (s.setCode task (if s.elements o = 0 then
          .block (some o) :: .release (.object o) :: .yield :: .acquire (.object o) ::
            .takeHead o :: rest
        else .takeHead o :: rest))
  | .takeHead o =>
      some ({ s with elements := Function.update s.elements o (s.elements o - 1) }.setCode task
        (.release (.object o) :: if s.elements o = 0 then [.kpanic] else rest))
  | .create priority =>
      let created := s.kernel.created
      some ({ s with
        kernel := { s.kernel with
          created := created + 1
          blocks := { s.kernel.blocks with
            priority := Function.update s.kernel.blocks.priority created priority } } }.setCode task
          (.addTask created :: rest))
  | .shootdown i =>
      some (s.setCode task (if i < s.kernel.cpus then
          if i = cpu then .shootdown (i + 1) :: rest
          else .runOn i .flush :: .shootdown (i + 1) :: rest
        else rest))
  | .kpanic => none

def perform (s : Threads) : Event → Option Threads
  | .call cpu primitive =>
      match s.activity cpu with
      | .executing task =>
          if s.code task = [] ∧ ∀ use ∈ primitive.uses, s.kind use.1 = use.2 then
            some (s.setCode task primitive.code)
          else none
      | _ => none
  | .step cpu =>
      match s.activity cpu with
      | .executing task =>
          match s.code task with
          | [] => none
          | op :: rest => s.execute cpu task rest op
      | _ => none
  | .interrupt cpu =>
      if 0 < s.ipis cpu ∧ s.irqsOn cpu ∧ s.canYield cpu then
        some ({ s with ipis := Function.update s.ipis cpu (s.ipis cpu - 1) }.receiveCall cpu)
      else none
  | .tick cpu => if s.irqsOn cpu ∧ s.canYield cpu then some (s.tick cpu) else none
  | .load cpu =>
      match s.activity cpu with
      | .loading task =>
          if s.loadable task then some (s.setActivity cpu (.executing task)) else none
      | _ => none

def after? (s : Threads) (event : Event) : Option Threads :=
  if event.cpu < s.kernel.cpus then s.perform event else none

def Step (s : Threads) (event : Event) (t : Threads) : Prop :=
  s.after? event = some t

theorem executing_unique {s : Threads} {cpu : Nat} {task other : Task}
    (here : s.activity cpu = .executing task) (there : s.activity cpu = .executing other) :
    task = other :=
  Activity.executing.inj (here.symm.trans there)

/-- The steps, with what each of them needs. -/
inductive Taken (s : Threads) : Event → Threads → Prop where
  | call {cpu : Nat} {primitive : Primitive} {task : Task} (here : s.activity cpu = .executing task)
      (done : s.code task = []) (kinds : ∀ use ∈ primitive.uses, s.kind use.1 = use.2) :
      Taken s (.call cpu primitive) (s.setCode task primitive.code)
  | step {cpu : Nat} {task : Task} {op : Op} {rest : List Op} {t : Threads}
      (here : s.activity cpu = .executing task) (code : s.code task = op :: rest)
      (executed : s.execute cpu task rest op = some t) : Taken s (.step cpu) t
  | interrupt {cpu : Nat} (rings : 0 < s.ipis cpu) (on : s.irqsOn cpu = true)
      (free : s.canYield cpu = true) :
      Taken s (.interrupt cpu)
        ({ s with ipis := Function.update s.ipis cpu (s.ipis cpu - 1) }.receiveCall cpu)
  | tick {cpu : Nat} (on : s.irqsOn cpu = true) (free : s.canYield cpu = true) :
      Taken s (.tick cpu) (s.tick cpu)
  | load {cpu : Nat} {task : Task} (here : s.activity cpu = .loading task)
      (free : s.loadable task = true) :
      Taken s (.load cpu) (s.setActivity cpu (.executing task))

theorem Step.taken {s t : Threads} {event : Event} (step : s.Step event t) :
    event.cpu < s.kernel.cpus ∧ s.Taken event t := by
  obtain ⟨inside, performed⟩ := Option.ite_none_right_eq_some.mp step
  refine ⟨inside, ?_⟩
  cases event with
  | call cpu primitive =>
      simp only [perform] at performed
      split at performed
      · rename_i task here
        obtain ⟨ready, result⟩ := Option.ite_none_right_eq_some.mp performed
        obtain rfl := Option.some.inj result
        exact .call here ready.1 ready.2
      · cases performed
  | step cpu =>
      simp only [perform] at performed
      split at performed
      · rename_i task here
        split at performed
        · cases performed
        · rename_i op rest code
          exact .step here code performed
      · cases performed
  | interrupt cpu =>
      obtain ⟨rings, result⟩ := Option.ite_none_right_eq_some.mp performed
      obtain rfl := Option.some.inj result
      exact .interrupt rings.1 rings.2.1 rings.2.2
  | tick cpu =>
      obtain ⟨on, result⟩ := Option.ite_none_right_eq_some.mp performed
      obtain rfl := Option.some.inj result
      exact .tick on.1 on.2
  | load cpu =>
      simp only [perform] at performed
      split at performed
      · rename_i task here
        obtain ⟨free, result⟩ := Option.ite_none_right_eq_some.mp performed
        obtain rfl := Option.some.inj result
        exact .load here free
      · cases performed

/-- Each processor is in the code of its first task. -/
def started (cpus : Nat) (priority : Task → Nat) (kind : Nat → Kind) : Threads where
  kernel := Kernel.started cpus priority
  kind := kind
  lock _ := false
  completed _ := false
  elements _ := 0
  owner _ := none
  enableIrqs _ := false
  irqs _ := true
  code _ := []
  activity cpu := if cpu < cpus then .executing cpu else .halted
  callback _ := none
  callerCanReturn _ := false
  ipis _ := 0

end Threads

end Mykonos.Tasks
