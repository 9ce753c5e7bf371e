import Mykonos.Lib.Run
import Mykonos.Tasks.Scheduler

/-! # Where a task is

All processors share the control blocks, and so do the queues in which tasks
wait. A task is current on one processor or in one run queue, as long as nobody
wakes it between its `block` and its `yield`.
-/

namespace Mykonos.Tasks

open Lib

/-- The schedulers and the wait queues of all objects that tasks block on.
    `cpus` is `cpuCount`, `created` the number of control blocks allocated. -/
structure Kernel where
  cpus : Nat
  schedulers : Nat → Scheduler
  blocks : ControlBlocks
  waiting : Nat → Queue
  created : Nat

namespace Kernel

/-- A scheduler and the control blocks after a call on the processor. -/
def on (k : Kernel) (cpu : Nat) (result : Scheduler × ControlBlocks) : Kernel :=
  { k with schedulers := Function.update k.schedulers cpu result.1, blocks := result.2 }

/-- A wait queue and the control blocks after a call on the queue. -/
def store (k : Kernel) (queue : Nat) (result : Queue × ControlBlocks) : Kernel :=
  { k with waiting := Function.update k.waiting queue result.1, blocks := result.2 }

def taskCount (k : Kernel) (cpu : Nat) : Nat :=
  (k.schedulers cpu).taskCount k.blocks

def getLeastBusy (k : Kernel) (cpu : Nat) : Nat :=
  (List.range k.cpus).foldl
    (fun best i => if k.taskCount best = 0 then best else
      if k.taskCount i < k.taskCount best then i else best) cpu

def addTask (k : Kernel) (cpu : Nat) (task : Task) : Kernel :=
  let target := k.getLeastBusy cpu
  k.on target ((k.schedulers target).addTask k.blocks (target == cpu) task)

/-- What happens on a processor, each in one piece. The yield that `addTask` asks
    of another processor is a step of that processor. -/
inductive Event where
  | block (cpu queue : Nat)
  | wake (cpu queue : Nat)
  | create (cpu priority : Nat)
  | yield (cpu : Nat)
  | tick (cpu : Nat)
  | lock (cpu : Nat)
  | unlock (cpu : Nat)
  deriving Repr, DecidableEq

def Event.cpu : Event → Nat
  | .block cpu _ | .wake cpu _ | .create cpu _ | .yield cpu | .tick cpu | .lock cpu
    | .unlock cpu => cpu

/-- The current task blocks and goes into the wait queue. A task that has blocked
    has to yield before it can block again. -/
def block (k : Kernel) (cpu queue : Nat) : Option Kernel :=
  (k.schedulers cpu).block k.blocks |>.bind fun blocked =>
    if k.blocks.state blocked.1 = .blocking then none
    else
      let pushed := (k.waiting queue).push blocked.2.next blocked.1
      some (k.store queue (pushed.1, { blocked.2 with next := pushed.2 }))

/-- The first task of the wait queue is given to a scheduler. -/
def wake (k : Kernel) (cpu queue : Nat) : Kernel :=
  let popped := (k.waiting queue).pop k.blocks.next
  match popped.1 with
  | none => k
  | some task => (k.store queue (popped.2, k.blocks)).addTask cpu task

/-- `thread::create`, with a control block that nobody has. -/
def create (k : Kernel) (cpu priority : Nat) : Kernel :=
  let task := k.created
  { k with
    created := k.created + 1
    blocks := { k.blocks with
      priority := Function.update k.blocks.priority task priority } }.addTask cpu task

def perform (k : Kernel) : Event → Option Kernel
  | .block cpu queue => k.block cpu queue
  | .wake cpu queue => some (k.wake cpu queue)
  | .create cpu priority => some (k.create cpu priority)
  | .yield cpu => some (k.on cpu ((k.schedulers cpu).yield k.blocks))
  | .tick cpu => some (k.on cpu ((k.schedulers cpu).tick k.blocks))
  | .lock cpu => some (k.on cpu ((k.schedulers cpu).lock, k.blocks))
  | .unlock cpu => some (k.on cpu ((k.schedulers cpu).unlock k.blocks))

def after? (k : Kernel) (event : Event) : Option Kernel :=
  if event.cpu < k.cpus then k.perform event else none

def Step (k : Kernel) (event : Event) (l : Kernel) : Prop :=
  k.after? event = some l

/-- Each processor has been given its first task. -/
def started (cpus : Nat) (priority : Task → Nat) : Kernel where
  cpus := cpus
  schedulers cpu := if cpu < cpus then Scheduler.init cpu else { currentTask := none }
  blocks := ⟨fun _ => .running, fun _ => 0, priority, fun _ => none⟩
  waiting _ := {}
  created := cpus

def currentTask (k : Kernel) (cpu : Nat) : Option Task :=
  (k.schedulers cpu).currentTask

/-- Every task is in one place only: the current tasks of all processors and the
    contents of all run queues have no task twice. -/
def OnePlace (k : Kernel) : Prop :=
  ∃ tasks : Nat → List Task,
    (∀ cpu < k.cpus, (k.schedulers cpu).tasks.Shows k.blocks.next (tasks cpu)) ∧
    ((List.range k.cpus).flatMap fun cpu => (k.currentTask cpu).toList ++ tasks cpu).Nodup

/-- The step does not wake a task that is still current somewhere. -/
def WakesNoCurrent (k : Kernel) : Event → Prop
  | .wake _ queue => ∀ task ∈ (k.waiting queue).head, ∀ cpu < k.cpus, k.currentTask cpu ≠ some task
  | _ => True

instance (k : Kernel) : (event : Event) → Decidable (k.WakesNoCurrent event)
  | .wake _ queue =>
      inferInstanceAs (Decidable (∀ task ∈ (k.waiting queue).head, ∀ cpu < k.cpus,
        k.currentTask cpu ≠ some task))
  | .block _ _ | .create _ _ | .yield _ | .tick _ | .lock _ | .unlock _ =>
      inferInstanceAs (Decidable True)

/-- The queues that run through the control blocks. -/
inductive Slot where
  | run (cpu : Nat)
  | wait (queue : Nat)
  deriving DecidableEq

def queue (k : Kernel) : Slot → Queue
  | .run cpu => (k.schedulers cpu).tasks
  | .wait queue => k.waiting queue

/-- The state of a task tells where it is. A current task that has blocked may
    already be in a wait queue. -/
structure Placed (k : Kernel) (tasks : Slot → List Task) : Prop where
  queues : Queue.Apart k.queue k.blocks.next tasks
  distinct : ∀ c d t, k.currentTask c = some t → k.currentTask d = some t → c = d
  active : ∀ c t, k.currentTask c = some t → c < k.cpus ∧ k.blocks.state t ≠ .runnable
  runnable : ∀ c t, t ∈ tasks (.run c) → k.blocks.state t = .runnable
  blocking : ∀ w t, t ∈ tasks (.wait w) → k.blocks.state t = .blocking
  created : ∀ c t, k.currentTask c = some t → t < k.created
  queued : ∀ i t, t ∈ tasks i → t < k.created

@[simp] theorem on_queue (k : Kernel) (cpu : Nat) (result : Scheduler × ControlBlocks) :
    (k.on cpu result).queue = Function.update k.queue (.run cpu) result.1.tasks := by
  funext slot
  cases slot with
  | run other =>
      by_cases same : other = cpu
      · subst same
        simp [on, queue]
      · simp [on, queue, same]
  | wait other => simp [on, queue]

@[simp] theorem on_currentTask (k : Kernel) (cpu : Nat) (result : Scheduler × ControlBlocks) :
    (k.on cpu result).currentTask = Function.update k.currentTask cpu result.1.currentTask := by
  funext other
  by_cases same : other = cpu
  · subst same
    simp [on, currentTask]
  · simp [on, currentTask, same]

@[simp] theorem on_blocks (k : Kernel) (cpu : Nat) (result : Scheduler × ControlBlocks) :
    (k.on cpu result).blocks = result.2 := rfl

@[simp] theorem on_cpus (k : Kernel) (cpu : Nat) (result : Scheduler × ControlBlocks) :
    (k.on cpu result).cpus = k.cpus := rfl

@[simp] theorem on_created (k : Kernel) (cpu : Nat) (result : Scheduler × ControlBlocks) :
    (k.on cpu result).created = k.created := rfl

@[simp] theorem store_queue (k : Kernel) (w : Nat) (result : Queue × ControlBlocks) :
    (k.store w result).queue = Function.update k.queue (.wait w) result.1 := by
  funext slot
  cases slot with
  | run other => simp [store, queue]
  | wait other =>
      by_cases same : other = w
      · subst same
        simp [store, queue]
      · simp [store, queue, same]

@[simp] theorem store_currentTask (k : Kernel) (w : Nat) (result : Queue × ControlBlocks) :
    (k.store w result).currentTask = k.currentTask := rfl

@[simp] theorem store_blocks (k : Kernel) (w : Nat) (result : Queue × ControlBlocks) :
    (k.store w result).blocks = result.2 := rfl

@[simp] theorem store_cpus (k : Kernel) (w : Nat) (result : Queue × ControlBlocks) :
    (k.store w result).cpus = k.cpus := rfl

@[simp] theorem store_created (k : Kernel) (w : Nat) (result : Queue × ControlBlocks) :
    (k.store w result).created = k.created := rfl

@[simp] theorem on_on (k : Kernel) (cpu : Nat) (first second : Scheduler × ControlBlocks) :
    (k.on cpu first).on cpu second = k.on cpu second := by
  simp [on]

@[simp] theorem on_schedulers (k : Kernel) (cpu : Nat) (result : Scheduler × ControlBlocks) :
    (k.on cpu result).schedulers cpu = result.1 :=
  Function.update_self _ _ _

namespace Placed

variable {k l : Kernel} {tasks : Slot → List Task} {cpu : Nat}

/-- Time slices, flags and current tasks that are given up do not matter. -/
theorem frame (h : Placed k tasks) (queues : l.queue = k.queue)
    (next : l.blocks.next = k.blocks.next) (state : l.blocks.state = k.blocks.state)
    (cpus : l.cpus = k.cpus) (created : l.created = k.created)
    (current : ∀ c t, l.currentTask c = some t → k.currentTask c = some t) : Placed l tasks := by
  refine ⟨queues ▸ next ▸ h.queues, ?_, ?_, state ▸ h.runnable, state ▸ h.blocking, ?_,
    created ▸ h.queued⟩
  · exact fun c d t onC onD => h.distinct c d t (current c t onC) (current d t onD)
  · exact fun c t held => cpus ▸ state ▸ h.active c t (current c t held)
  · exact fun c t held => created ▸ h.created c t (current c t held)

theorem on (h : Placed k tasks) {result : Scheduler × ControlBlocks}
    (same : result.1.tasks = (k.schedulers cpu).tasks) (next : result.2.next = k.blocks.next)
    (state : result.2.state = k.blocks.state)
    (current : ∀ t, result.1.currentTask = some t → k.currentTask cpu = some t) :
    Placed (k.on cpu result) tasks := by
  refine h.frame ?_ next state rfl rfl ?_
  · rw [on_queue, same]
    exact Function.update_eq_self (Slot.run cpu) k.queue
  · rw [on_currentTask]
    grind

/-- A task that is nowhere goes into a run queue. -/
theorem insert (h : Placed k tasks) {task : Task} {list : List Task}
    (queues : Queue.Apart l.queue l.blocks.next (Function.update tasks (.run cpu) list))
    (members : ∀ t, t ∈ list ↔ t = task ∨ t ∈ tasks (.run cpu))
    (state : l.blocks.state = Function.update k.blocks.state task .runnable)
    (cpus : l.cpus = k.cpus) (created : l.created = k.created)
    (current : l.currentTask = k.currentTask) (known : task < k.created)
    (inactive : ∀ c, k.currentTask c ≠ some task) (absent : ∀ i, task ∉ tasks i) :
    Placed l (Function.update tasks (.run cpu) list) := by
  have active := h.active
  have runnable := h.runnable
  have blocking := h.blocking
  have queued := h.queued
  refine ⟨queues, current ▸ h.distinct, ?_, ?_, ?_, created ▸ current ▸ h.created, ?_⟩
  · rw [cpus, state, current]
    grind
  · rw [state]
    grind
  · rw [state]
    grind
  · rw [created]
    grind

theorem push (h : Placed k tasks) (cpu : Nat) {task : Task} (known : task < k.created)
    (inactive : ∀ c, k.currentTask c ≠ some task) (absent : ∀ i, task ∉ tasks i) :
    Placed
      (k.on cpu
        ({ k.schedulers cpu with
            tasks := ((k.schedulers cpu).tasks.push k.blocks.next task).1 },
          { k.blocks.setState task .runnable with
            next := ((k.schedulers cpu).tasks.push k.blocks.next task).2 }))
      (Function.update tasks (.run cpu) (tasks (.run cpu) ++ [task])) := by
  refine h.insert ?_ (by simp [or_comm]) rfl rfl rfl ?_ known inactive absent
  · rw [on_queue]
    exact h.queues.push (.run cpu) absent
  · rw [on_currentTask]
    exact Function.update_eq_self cpu k.currentTask

theorem pushFront (h : Placed k tasks) (cpu : Nat) {task : Task} (known : task < k.created)
    (inactive : ∀ c, k.currentTask c ≠ some task) (absent : ∀ i, task ∉ tasks i) :
    Placed
      (k.on cpu
        ({ k.schedulers cpu with
            tasks := ((k.schedulers cpu).tasks.pushFront k.blocks.next task).1 },
          { k.blocks.setState task .runnable with
            next := ((k.schedulers cpu).tasks.pushFront k.blocks.next task).2 }))
      (Function.update tasks (.run cpu) (task :: tasks (.run cpu))) := by
  refine h.insert ?_ (by simp) rfl rfl rfl ?_ known inactive absent
  · rw [on_queue]
    exact h.queues.pushFront (.run cpu) absent
  · rw [on_currentTask]
    exact Function.update_eq_self cpu k.currentTask

/-- The first task of the queue becomes current. -/
theorem dispatch (h : Placed k tasks) (running : cpu < k.cpus) {toTask : Task} {rest : List Task}
    (cons : tasks (.run cpu) = toTask :: rest)
    (queues : l.queue = Function.update k.queue (.run cpu)
      ((k.queue (.run cpu)).pop k.blocks.next).2) (next : l.blocks.next = k.blocks.next)
    (state : l.blocks.state = Function.update k.blocks.state toTask .running)
    (cpus : l.cpus = k.cpus) (created : l.created = k.created)
    (current : l.currentTask = Function.update k.currentTask cpu (some toTask)) :
    Placed l (Function.update tasks (.run cpu) rest) := by
  have shows := h.queues.shows (.run cpu)
  have popped := h.queues.pop (.run cpu)
  rw [cons] at shows popped
  have waiting : k.blocks.state toTask = .runnable := h.runnable cpu toTask (by simp [cons])
  have absent : toTask ∉ rest := (List.nodup_cons.mp shows.threaded.nodup).1
  have apart := h.queues.apart
  have distinct := h.distinct
  have active := h.active
  have runnable := h.runnable
  have blocking := h.blocking
  have older := h.created
  have queued := h.queued
  refine ⟨queues ▸ next ▸ popped, ?_, ?_, ?_, ?_, ?_, ?_⟩
  · rw [current]
    grind
  · rw [cpus, state, current]
    grind
  · rw [state]
    grind
  · rw [state]
    grind
  · rw [created, current]
    grind
  · rw [created]
    grind

theorem switchTo (h : Placed k tasks) (running : cpu < k.cpus) {toTask : Task} {rest : List Task}
    (cons : tasks (.run cpu) = toTask :: rest) :
    ∃ tasks', Placed (k.on cpu (Scheduler.switchTo { k.schedulers cpu with
      tasks := ((k.schedulers cpu).tasks.pop k.blocks.next).2 } k.blocks toTask)) tasks' := by
  obtain ⟨mid, switched⟩ : ∃ mid, mid = k.on cpu ({ k.schedulers cpu with
      tasks := ((k.schedulers cpu).tasks.pop k.blocks.next).2
      currentTask :=
        some toTask }, (k.blocks.setState toTask .running).setTimeSlice toTask initialTimeSlice) :=
    ⟨_, rfl⟩
  have dispatched : Placed mid (Function.update tasks (.run cpu) rest) := by
    rw [switched]
    exact h.dispatch running cons (by simp [queue]) rfl rfl rfl rfl (by simp)
  unfold Scheduler.switchTo
  cases current : (k.schedulers cpu).currentTask with
  | none => exact ⟨_, switched ▸ dispatched⟩
  | some fromTask =>
      unfold Scheduler.requeue
      simp only
      split
      · rename_i still
        have active := h.active cpu fromTask current
        have waiting := h.runnable cpu toTask (by simp [cons])
        have other : fromTask ≠ toTask := by grind
        have left : ∀ c, mid.currentTask c ≠ some fromTask := by
          have distinct := h.distinct cpu
          rw [switched, on_currentTask]
          grind [currentTask]
        have absent : ∀ i, fromTask ∉ Function.update tasks (.run cpu) rest i := by
          have runnable := dispatched.runnable
          have blocking := dispatched.blocking
          have state : mid.blocks.state fromTask = .running := by
            rw [switched]
            exact still
          intro i
          cases i with
          | run c => grind
          | wait w => grind
        have pushed := dispatched.push cpu (switched ▸ h.created cpu fromTask current) left absent
        rw [switched, on_on, on_schedulers] at pushed
        exact ⟨_, pushed⟩
      · exact ⟨_, switched ▸ dispatched⟩

theorem yield (h : Placed k tasks) (running : cpu < k.cpus) :
    ∃ tasks', Placed (k.on cpu ((k.schedulers cpu).yield k.blocks)) tasks' := by
  by_cases locked : (k.schedulers cpu).yieldLocked = true
  · rw [Scheduler.yield_locked locked]
    exact ⟨tasks, h.on rfl rfl rfl fun _ held => held⟩
  · have unlocked := Bool.eq_false_iff.mpr locked
    have shows := h.queues.shows (.run cpu)
    cases list : tasks (.run cpu) with
    | nil =>
        rw [list] at shows
        rw [Scheduler.yield_empty unlocked shows]
        refine ⟨tasks, h.on ?_ rfl rfl ?_⟩
        · unfold Scheduler.stay
          grind [Scheduler.removeCurrent]
        · unfold Scheduler.stay
          grind [Scheduler.removeCurrent, currentTask]
    | cons toTask rest =>
        rw [list] at shows
        rw [Scheduler.yield_cons unlocked shows]
        exact h.switchTo running list

theorem tick (h : Placed k tasks) (running : cpu < k.cpus) :
    ∃ tasks', Placed (k.on cpu ((k.schedulers cpu).tick k.blocks)) tasks' := by
  unfold Scheduler.tick
  have same : Placed (k.on cpu (k.schedulers cpu, k.blocks)) tasks :=
    h.on rfl rfl rfl fun _ held => held
  split
  · exact ⟨tasks, same⟩
  · rename_i task current
    split
    · have ticked : ∀ n, Placed (k.on cpu (k.schedulers cpu, k.blocks.setTimeSlice task n)) tasks :=
        fun n => h.on rfl rfl rfl fun _ held => held
      simp only
      split
      · have yielded := (ticked ((k.blocks.timeSlice task + 2 ^ 32 - 1) % 2 ^ 32)).yield running
        simpa only [on_on, on_schedulers, on_blocks] using yielded
      · exact ⟨tasks, ticked _⟩
    · exact ⟨tasks, same⟩

theorem unlock (h : Placed k tasks) (running : cpu < k.cpus) :
    ∃ tasks', Placed (k.on cpu ((k.schedulers cpu).unlock k.blocks)) tasks' := by
  unfold Scheduler.unlock
  split
  · have unlocked :
      Placed (k.on cpu ({ k.schedulers cpu with yieldLocked := false, yieldPostponed := false },
        k.blocks)) tasks := h.on rfl rfl rfl fun _ held => held
    have yielded := unlocked.yield running
    simpa only [on_on, on_schedulers, on_blocks] using yielded
  · exact ⟨tasks, h.on rfl rfl rfl fun _ held => held⟩

theorem getLeastBusy_lt {best : Nat} (running : best < k.cpus) : k.getLeastBusy best < k.cpus := by
  unfold getLeastBusy
  have all : ∀ i ∈ List.range k.cpus, i < k.cpus := by simp
  generalize List.range k.cpus = indices at all
  induction indices generalizing best with
  | nil => exact running
  | cons i rest ih =>
      rw [List.foldl_cons]
      apply ih
      · split
        · exact running
        · split
          · exact all i (by simp)
          · exact running
      · exact fun j member => all j (by simp [member])

/-- A task that is nowhere is given to a scheduler. -/
theorem addTask (h : Placed k tasks) (running : cpu < k.cpus) {task : Task}
    (known : task < k.created) (inactive : ∀ c, k.currentTask c ≠ some task)
    (absent : ∀ i, task ∉ tasks i) :
    ∃ tasks', Placed (k.addTask cpu task) tasks' := by
  have present := getLeastBusy_lt running
  unfold Kernel.addTask
  generalize k.getLeastBusy cpu = target at *
  unfold Scheduler.addTask
  simp only
  split
  · have pushed := h.pushFront target known inactive absent
    split
    · have yielded := pushed.yield present
      rw [on_on, on_schedulers, on_blocks] at yielded
      exact yielded
    · exact ⟨_, pushed⟩
  · exact ⟨_, h.push target known inactive absent⟩

theorem block (h : Placed k tasks) {w : Nat} (blocked : k.block cpu w = some l) :
    ∃ tasks', Placed l tasks' := by
  unfold Kernel.block Scheduler.block at blocked
  cases current : (k.schedulers cpu).currentTask with
  | none => simp [current] at blocked
  | some task =>
      simp only [current, Option.map_some, Option.bind_some] at blocked
      split at blocked
      · cases blocked
      · rename_i awake
        obtain rfl := Option.some.inj blocked
        have inactive := (h.active cpu task current).2
        have absent : ∀ i, task ∉ tasks i := by
          intro i
          cases i with
          | run c => exact fun member => inactive (h.runnable c task member)
          | wait v => exact fun member => awake (h.blocking v task member)
        have pushed := h.queues.push (.wait w) absent
        have apart := h.queues.apart
        have active := h.active
        have runnable := h.runnable
        have blocking := h.blocking
        have queued := h.queued
        have known := h.created cpu task current
        refine ⟨Function.update tasks (.wait w) (tasks (.wait w) ++ [task]), ?_, h.distinct, ?_, ?_,
          ?_, h.created, ?_⟩
        · rw [store_queue]
          exact pushed
        · simp only [store_currentTask, store_cpus, store_blocks, ControlBlocks.setState_state]
          grind
        · simp only [store_blocks, ControlBlocks.setState_state]
          grind
        · simp only [store_blocks, ControlBlocks.setState_state]
          grind
        · simp only [store_created]
          grind

/-- The first task of a wait queue is taken out. -/
theorem release (h : Placed k tasks) {w : Nat} {task : Task} {rest : List Task}
    (cons : tasks (.wait w) = task :: rest) :
    Placed (k.store w (((k.waiting w).pop k.blocks.next).2, k.blocks))
      (Function.update tasks (.wait w) rest) := by
  have popped := h.queues.pop (.wait w)
  rw [cons] at popped
  have blocking := h.blocking
  have queued := h.queued
  refine ⟨?_, h.distinct, h.active, ?_, ?_, h.created, ?_⟩
  · rw [store_queue]
    exact popped
  · simpa using h.runnable
  · simp only [store_blocks]
    grind
  · simp only [store_created]
    grind

theorem wake (h : Placed k tasks) (running : cpu < k.cpus) {w : Nat}
    (away : k.WakesNoCurrent (.wake cpu w)) :
    ∃ tasks', Placed (k.wake cpu w) tasks' := by
  have shows := h.queues.shows (.wait w)
  have first : ((k.waiting w).pop k.blocks.next).1 = (tasks (.wait w)).head? := shows.pop.1
  unfold Kernel.wake
  cases list : tasks (.wait w) with
  | nil =>
      simp only [first, list, List.head?_nil]
      exact ⟨tasks, h⟩
  | cons task rest =>
      simp only [first, list, List.head?_cons]
      have released := h.release list
      have head : (k.waiting w).head = some task := shows.head.trans (by rw [list]; rfl)
      rw [list] at shows
      refine released.addTask running (h.queued (.wait w) task (by simp [list])) ?_ ?_
      · intro c current
        exact away task head c (h.active c task current).1 current
      · intro i member
        have absent := (List.nodup_cons.mp shows.threaded.nodup).1
        have apart := h.queues.apart i (.wait w) task
        grind

theorem create (h : Placed k tasks) (running : cpu < k.cpus) (priority : Nat) :
    ∃ tasks', Placed (k.create cpu priority) tasks' := by
  unfold Kernel.create
  have grown : Placed { k with
      created := k.created + 1
      blocks := { k.blocks with priority := Function.update k.blocks.priority k.created priority } }
          tasks := by
    obtain ⟨queues, distinct, active, runnable, blocking, created, queued⟩ := h
    exact ⟨queues, distinct, active, runnable, blocking,
      fun c t held => Nat.lt_succ_of_lt (created c t held), fun i t member =>
        Nat.lt_succ_of_lt (queued i t member)⟩
  refine grown.addTask running (Nat.lt_succ_self k.created) ?_ ?_
  · exact fun c held => Nat.lt_irrefl _ (h.created c _ held)
  · exact fun i member => Nat.lt_irrefl _ (h.queued i _ member)

theorem step (h : Placed k tasks) {event : Event} (away : k.WakesNoCurrent event)
    (taken : k.Step event l) :
    ∃ tasks', Placed l tasks' := by
  unfold Step after? at taken
  split at taken
  · rename_i running
    cases event with
    | block cpu w => exact h.block taken
    | wake cpu w =>
        obtain rfl := Option.some.inj taken
        exact h.wake running away
    | create cpu priority =>
        obtain rfl := Option.some.inj taken
        exact h.create running priority
    | yield cpu =>
        obtain rfl := Option.some.inj taken
        exact h.yield running
    | tick cpu =>
        obtain rfl := Option.some.inj taken
        exact h.tick running
    | lock cpu =>
        obtain rfl := Option.some.inj taken
        exact ⟨tasks, h.on rfl rfl rfl fun _ held => held⟩
    | unlock cpu =>
        obtain rfl := Option.some.inj taken
        exact h.unlock running
  · cases taken

theorem onePlace (h : Placed k tasks) : k.OnePlace := by
  refine ⟨fun cpu => tasks (.run cpu), fun cpu _ => h.queues.shows (.run cpu), ?_⟩
  have apart : ∀ c d t, k.currentTask c = some t → t ∉ tasks (.run d) :=
    fun c d t current member => (h.active c t current).2 (h.runnable d t member)
  have distinct := h.distinct
  rw [List.nodup_flatMap]
  constructor
  · intro cpu _
    apply List.Nodup.append
    · cases k.currentTask cpu <;> simp
    · exact (h.queues.shows (.run cpu)).threaded.nodup
    · intro t current
      exact apart cpu cpu t (by simpa using current)
  · apply List.nodup_range.imp
    intro c d other t onC onD
    have separate := h.queues.apart (.run c) (.run d) t
    grind

end Placed

theorem started_placed (cpus : Nat) (priority : Task → Nat) :
    Placed (started cpus priority) fun _ => [] := by
  have first : ∀ c t, (started cpus priority).currentTask c = some t → c < cpus ∧ t = c := by
    intro c t current
    simp only [started, currentTask] at current
    grind [Scheduler.init]
  refine ⟨⟨?_, by simp⟩, ?_, ?_, by simp, by simp, ?_, by simp⟩
  · intro slot
    have empty : (started cpus priority).queue slot = {} := by
      cases slot with
      | run c =>
          simp only [started, queue]
          split <;> rfl
      | wait w => rfl
    rw [empty]
    exact .empty _
  · intro c d t onC onD
    exact (first c t onC).2.symm.trans (first d t onD).2
  · intro c t current
    exact ⟨(first c t current).1, by simp [started]⟩
  · intro c t current
    obtain ⟨running, rfl⟩ := first c t current
    exact running

/-- In every run that wakes no task between its `block` and its `yield`, every
    task is in one place only. -/
theorem one_place {cpus : Nat} {priority : Task → Nat} {events : List Event} {k : Kernel}
    (run : Run (fun k event l => k.WakesNoCurrent event ∧ k.Step event l)
      (started cpus priority) events k) :
    k.OnePlace := by
  obtain ⟨tasks, placed⟩ := run.invariant (P := fun k => ∃ tasks, Placed k tasks)
    ⟨_, started_placed cpus priority⟩ fun _ _ _ ⟨_, placed⟩ ⟨away, taken⟩ => placed.step away taken
  exact placed.onePlace

/-- A task blocks, yields, and is woken by another processor. -/
theorem one_place_after_wake :
    ∃ k, Run (fun k event l => k.WakesNoCurrent event ∧ k.Step event l) (started 2 fun _ => 0)
        [.create 0 1, .block 0 0, .yield 0, .wake 1 0, .yield 0] k ∧
      k.currentTask 0 = some 0 ∧ k.OnePlace := by
  have computed : ∃ k, [Event.create 0 1, .block 0 0, .yield 0, .wake 1 0, .yield 0].foldlM
      (fun k event =>
        if k.WakesNoCurrent event then k.after? event else none) (started 2 fun _ => 0) = some k ∧
      k.currentTask 0 = some 0 := ⟨_, rfl, by decide +kernel⟩
  obtain ⟨k, replayed, current⟩ := computed
  have run : Run (fun k event l => k.WakesNoCurrent event ∧ k.Step event l) _ _ k :=
    Run.of_foldlM_guarded replayed
  exact ⟨k, run, current, one_place run⟩

/-- The woken task yields to itself: it runs, and is in the run queue. -/
theorem woken_before_yield :
    ∃ k, Run Step (started 2 fun _ => 0) [.block 0 0, .wake 1 0, .yield 0] k ∧
      k.currentTask 0 = some 0 ∧ (k.schedulers 0).tasks.head = some 0 ∧ ¬k.OnePlace := by
  have computed :
      ∃ k, [Event.block 0 0, .wake 1 0, .yield 0].foldlM after? (started 2 fun _ => 0) = some k ∧
      k.currentTask 0 = some 0 ∧ (k.schedulers 0).tasks.head = some 0 ∧ k.cpus = 2 :=
        ⟨_, rfl, by decide +kernel⟩
  obtain ⟨k, replayed, current, head, two⟩ := computed
  refine ⟨k, Run.of_foldlM replayed, current, head, ?_⟩
  rintro ⟨tasks, shows, nodup⟩
  have queued := (shows 0 (by omega)).head
  rw [head] at queued
  have both := (List.nodup_flatMap.mp nodup).1 0 (by simp [two])
  rw [current] at both
  have member := List.mem_of_head? queued.symm
  simp at both
  exact both.1 member

end Kernel

end Mykonos.Tasks
