import Mathlib.Data.Set.Insert
import Mykonos.Lib.Run
import Mykonos.Tasks.Scheduler

/-! # One processor against a deque

Every sequence of calls on one processor, interrupts included, dispatches tasks
as a deque does. The deque keeps the tasks that are ready in a list, without
links and without states.
-/

namespace Mykonos.Tasks

open Lib

/-- A scheduler and the control blocks. -/
abbrev Processor := Scheduler × ControlBlocks

/-- What happens on the processor, each one before the next. -/
inductive Call where
  | addTask (task : Task)
  | yield
  | tick
  | blockThenYield
  | lock
  | unlock
  deriving Repr, DecidableEq

/-- The tasks that are ready, without the one that runs. `slice` is what the
    running task has left. -/
structure Deque where
  current : Option Task
  ready : List Task := []
  locked : Bool := false
  postponed : Bool := false
  slice : Nat
  deriving Repr, DecidableEq

namespace Deque

def started (task : Task) (slice : Nat) : Deque where
  current := some task
  slice := slice

/-- The running task moves to the back. -/
def yield (d : Deque) : Deque :=
  if d.locked then { d with postponed := true }
  else
    match d.ready with
    | [] => d
    | first :: rest =>
        { d with
          current := some first
          ready := rest ++ d.current.toList
          slice := initialTimeSlice }

def addTask (d : Deque) (priority : Task → Nat) (task : Task) : Deque :=
  if ∀ running ∈ d.current, priority running < priority task then
    yield { d with ready := task :: d.ready }
  else { d with ready := d.ready ++ [task] }

def tick (d : Deque) : Deque :=
  if d.locked || d.current.isNone then d
  else
    let ticked := { d with slice := (d.slice + 2 ^ 32 - 1) % 2 ^ 32 }
    if ticked.slice = 0 then ticked.yield else ticked

/-- The running task leaves. -/
def block (d : Deque) : Deque :=
  yield { d with current := none }

def unlock (d : Deque) : Deque :=
  if d.postponed then yield { d with locked := false, postponed := false }
  else { d with locked := false }

def apply (priority : Task → Nat) (d : Deque) : Call → Deque
  | .addTask task => d.addTask priority task
  | .yield => d.yield
  | .tick => d.tick
  | .blockThenYield => d.block
  | .lock => { d with locked := true, postponed := false }
  | .unlock => d.unlock

/-- What the callers keep to, seen from the deque. -/
def allows (d : Deque) : Call → Bool
  | .addTask task => d.current ≠ some task ∧ task ∉ d.ready
  | .yield => true
  | .tick => true
  | .blockThenYield => d.current.isSome && !d.locked
  | .lock => !d.locked
  | .unlock => d.locked

def attempt (priority : Task → Nat) (d : Deque) (call : Call) : Option Deque :=
  if d.allows call then some (d.apply priority call) else none

end Deque

namespace Processor

/-- `init` with a control block that was just allocated, as all of them are, but
    for what it holds in `timeSlice`. -/
def started (task : Task) (slice : Nat) (priority : Task → Nat) : Processor :=
  (Scheduler.init task, ⟨fun _ => .running, fun _ => slice, priority, fun _ => none⟩)

def apply (s : Processor) : Call → Processor
  | .addTask task => s.1.addTask s.2 true task
  | .yield => s.1.yield s.2
  | .tick => s.1.tick s.2
  | .blockThenYield =>
      match s.1.block s.2 with
      | none => s
      | some blocked => s.1.yield blocked.2
  | .lock => (s.1.lock, s.2)
  | .unlock => s.1.unlock s.2

def Queued (s : Processor) (task : Task) : Prop :=
  ∃ tasks, s.1.tasks.Shows s.2.next tasks ∧ task ∈ tasks

/-- What the callers keep to. -/
def Allowed (s : Processor) : Call → Prop
  | .addTask task => s.1.currentTask ≠ some task ∧ ¬s.Queued task
  | .yield => True
  | .tick => True
  | .blockThenYield => s.1.currentTask ≠ none ∧ s.1.yieldLocked = false
  | .lock => s.1.yieldLocked = false
  | .unlock => s.1.yieldLocked = true

def Step (s : Processor) (call : Call) (t : Processor) : Prop :=
  s.Allowed call ∧ s.apply call = t

/-- The current task as the deque sees it: one that has blocked is no longer
    there. -/
inductive Runs (s : Processor) (d : Deque) : Prop where
  | idle (empty : s.1.currentTask = none) (gone : d.current = none)
  | running (task : Task) (current : s.1.currentTask = some task)
      (state : s.2.state task = .running) (same : d.current = some task)
      (slice : s.2.timeSlice task = d.slice)
  | blocked (task : Task) (current : s.1.currentTask = some task)
      (state : s.2.state task = .blocking) (gone : d.current = none)

theorem Runs.frame {s t : Processor} {d e : Deque} (h : Runs s d)
    (current : t.1.currentTask = s.1.currentTask) (same : e.current = d.current)
    (slice : e.slice = d.slice)
    (kept : ∀ task ∈ s.1.currentTask, t.2.state task = s.2.state task ∧ t.2.timeSlice task =
      s.2.timeSlice task) :
    Runs t e := by
  cases h with
  | idle empty gone => exact .idle (current.trans empty) (same.trans gone)
  | running task before state running left =>
      obtain ⟨sameState, sameSlice⟩ := kept task before
      exact .running task (current.trans before) (sameState.trans state) (same.trans running)
        (sameSlice.trans (left.trans slice.symm))
  | blocked task before state gone =>
      exact .blocked task (current.trans before) ((kept task before).1.trans state)
        (same.trans gone)

/-- The processor stands for the deque. `known` are the tasks that were ever
    given to it. -/
structure Follows (priority : Task → Nat) (known : Set Task) (s : Processor)
    (d : Deque) : Prop where
  locked : s.1.yieldLocked = d.locked
  postponed : s.1.yieldPostponed = d.postponed
  priority : s.2.priority = priority
  runs : s.Runs d
  ready : s.1.tasks.Shows s.2.next d.ready
  runnable : ∀ t ∈ d.ready, s.2.state t = .runnable
  placed : ∀ t ∈ known, s.1.currentTask = some t ∨ t ∈ d.ready ∨ s.2.state t = .blocking

namespace Follows

variable {priority : Task → Nat} {known : Set Task} {s : Processor} {d : Deque}

/-- Nothing is ready: a blocked task leaves, the others stay. -/
theorem stay (h : Follows priority known s d) (unlocked : d.locked = false) (empty : d.ready = []) :
    Follows priority known (s.1.yield s.2) d ∧ (s.1.yield s.2).1.currentTask = d.current := by
  have ready := h.ready
  rw [empty] at ready
  rw [Scheduler.yield_empty (h.locked.trans unlocked) ready]
  unfold Scheduler.stay
  cases h.runs with
  | idle none gone =>
      simp only [none, gone]
      exact ⟨h, trivial⟩
  | running task current state same slice =>
      simp only [current, state, same, if_true]
      exact ⟨h, trivial⟩
  | blocked task current state gone =>
      simp only [current, state, reduceCtorEq, if_false]
      refine ⟨⟨h.locked, h.postponed, h.priority, .idle rfl gone, h.ready, h.runnable, ?_⟩,
        gone.symm⟩
      intro t member
      rcases h.placed t member with running | place
      · rw [current] at running
        cases running
        exact .inr (.inr state)
      · exact .inr place

/-- Something is ready: its first task is dispatched. -/
theorem switchTo (h : Follows priority known s d) (unlocked : d.locked = false) {first : Task}
    {rest : List Task} (cons : d.ready = first :: rest) :
    Follows priority known (s.1.yield s.2)
        { d with
          current := some first
          ready := rest ++ d.current.toList
          slice := initialTimeSlice } ∧
      (s.1.yield s.2).1.currentTask = some first := by
  have ready := h.ready
  rw [cons] at ready
  have popped := ready.pop.2
  have distinct := (List.nodup_cons.mp ready.threaded.nodup).1
  have waiting : ∀ t ∈ first :: rest, s.2.state t = .runnable := cons ▸ h.runnable
  rw [Scheduler.yield_cons (h.locked.trans unlocked) ready]
  unfold Scheduler.switchTo
  have placed := h.placed
  rw [cons] at placed
  cases h.runs with
  | idle empty gone =>
      simp only [empty, gone, Option.toList_none, List.append_nil]
      refine ⟨⟨h.locked, h.postponed, h.priority, .running first rfl ?_ rfl ?_, popped, ?_, ?_⟩,
        trivial⟩
      · simp
      · simp
      · simp only [ControlBlocks.setTimeSlice_state, ControlBlocks.setState_state]
        grind
      · simp only [ControlBlocks.setTimeSlice_state, ControlBlocks.setState_state]
        grind
  | running task current state same slice =>
      have other : task ≠ first := by grind
      unfold Scheduler.requeue
      simp only [current, same, ControlBlocks.setTimeSlice_state, ControlBlocks.setState_state,
        Function.update_of_ne other, state, if_true, Option.toList_some]
      refine ⟨⟨h.locked, h.postponed, h.priority, .running first rfl ?_ rfl ?_,
        popped.push (by grind), ?_, ?_⟩, trivial⟩
      · simp [Function.update_of_ne (Ne.symm other)]
      · simp
      · grind
      · grind
  | blocked task current state gone =>
      have other : task ≠ first := by grind
      unfold Scheduler.requeue
      simp only [current, gone, ControlBlocks.setTimeSlice_state, ControlBlocks.setState_state,
        Function.update_of_ne other, state, reduceCtorEq, if_false, Option.toList_none,
        List.append_nil]
      refine ⟨⟨h.locked, h.postponed, h.priority, .running first rfl ?_ rfl ?_, popped, ?_, ?_⟩,
        trivial⟩
      · simp
      · simp
      · simp only [ControlBlocks.setTimeSlice_state, ControlBlocks.setState_state]
        grind
      · simp only [ControlBlocks.setTimeSlice_state, ControlBlocks.setState_state]
        grind

theorem yield (h : Follows priority known s d) (unlocked : d.locked = false) :
    Follows priority known (s.1.yield s.2) d.yield ∧ (s.1.yield s.2).1.currentTask =
      d.yield.current := by
  unfold Deque.yield
  rw [if_neg (by simp [unlocked])]
  split
  · rename_i empty
    exact h.stay unlocked empty
  · rename_i first rest cons
    exact h.switchTo unlocked cons

end Follows

/-- Between two calls the current task runs. -/
structure Settled (priority : Task → Nat) (known : Set Task) (s : Processor)
    (d : Deque) : Prop where
  follows : Follows priority known s d
  settled : s.1.currentTask = d.current

namespace Settled

variable {priority : Task → Nat} {known : Set Task} {s : Processor} {d : Deque}

theorem yield (h : Settled priority known s d) :
    Settled priority known (s.1.yield s.2) d.yield := by
  by_cases locked : d.locked = true
  · rw [Scheduler.yield_locked (h.follows.locked.trans locked)]
    unfold Deque.yield
    rw [if_pos locked]
    obtain ⟨⟨hlocked, _, hpriority, runs, ready, runnable, placed⟩, settled⟩ := h
    have kept :=
      runs.frame (t := ({ s.1 with yieldPostponed := true }, s.2)) (e :=
        { d with postponed := true })
      rfl rfl rfl fun _ _ => ⟨rfl, rfl⟩
    exact ⟨⟨hlocked, rfl, hpriority, kept, ready, runnable, placed⟩, settled⟩
  · obtain ⟨follows, settled⟩ := h.follows.yield (Bool.eq_false_iff.mpr locked)
    exact ⟨follows, settled⟩

theorem running (h : Settled priority known s d) {task : Task}
    (current : s.1.currentTask = some task) :
    s.2.state task = .running ∧ s.2.timeSlice task = d.slice := by
  cases h.follows.runs with
  | idle empty gone => simp [empty] at current
  | running other same state _ slice =>
      rw [same] at current
      cases current
      exact ⟨state, slice⟩
  | blocked other same state gone =>
      rw [h.settled, gone] at current
      cases current

theorem preempts_iff (h : Settled priority known s d) {task : Task}
    (other : s.1.currentTask ≠ some task) :
    s.1.preempts (s.2.setState task .runnable) task = true ↔
      ∀ running ∈ d.current, priority running < priority task := by
  unfold Scheduler.preempts
  rw [← h.settled, ← h.follows.priority]
  cases current : s.1.currentTask with
  | none => simp
  | some running =>
      have distinct : running ≠ task := fun same => other (same ▸ current)
      simp only [ControlBlocks.setState_state, ControlBlocks.setState_priority,
        Function.update_of_ne distinct, (h.running current).1]
      simp only [bne_self_eq_false, Bool.false_or, Option.mem_def, Option.some.injEq, forall_eq']
      exact decide_eq_true_iff

/-- The state with a task more in the queue. -/
theorem inserted (h : Settled priority known s d) {task : Task} {q : Queue} {next : Links}
    {ready : List Task} (other : s.1.currentTask ≠ some task) (shows : q.Shows next ready)
    (members : ∀ t, t ∈ ready ↔ t = task ∨ t ∈ d.ready) :
    Settled priority (insert task known) ({ s.1 with tasks := q },
      { s.2.setState task .runnable with next := next }) { d with ready := ready } := by
  have placed := h.follows.placed
  have runnable := h.follows.runnable
  refine ⟨⟨h.follows.locked, h.follows.postponed, h.follows.priority, ?_, shows, ?_, ?_⟩, h.settled⟩
  · refine h.follows.runs.frame rfl rfl rfl ?_
    intro running current
    have distinct : running ≠ task := fun same => other (same ▸ current)
    simp [distinct]
  · intro t member
    simp only [ControlBlocks.setState_state]
    grind
  · intro t member
    simp only [ControlBlocks.setState_state]
    grind

theorem addTask (h : Settled priority known s d) {task : Task}
    (allowed : Allowed s (.addTask task)) :
    Settled priority (insert task known) (s.1.addTask s.2 true task) (d.addTask priority task) := by
  obtain ⟨other, unqueued⟩ := allowed
  have absent : task ∉ d.ready := fun member => unqueued ⟨d.ready, h.follows.ready, member⟩
  unfold Scheduler.addTask Deque.addTask
  by_cases front : s.1.preempts (s.2.setState task .runnable) task = true
  · rw [if_pos front, if_pos ((h.preempts_iff other).mp front)]
    exact (h.inserted other (h.follows.ready.pushFront absent) (by simp)).yield
  · rw [if_neg front, if_neg (fun higher => front ((h.preempts_iff other).mpr higher))]
    exact h.inserted other (h.follows.ready.push absent) (by simp [or_comm])

theorem tick (h : Settled priority known s d) : Settled priority known (s.1.tick s.2) d.tick := by
  unfold Scheduler.tick Deque.tick
  cases current : s.1.currentTask with
  | none =>
      rw [if_pos (by simp [← h.settled, current])]
      exact h
  | some task =>
      obtain ⟨state, slice⟩ := h.running current
      by_cases locked : d.locked = true
      · simp only [h.follows.locked, locked, Bool.not_true, Bool.false_and, Bool.true_or, if_true]
        exact h
      · have unlocked := Bool.eq_false_iff.mpr locked
        have ticked :
            ∀ n, Settled priority known (s.1, s.2.setTimeSlice task n) { d with slice := n } := by
          intro n
          obtain ⟨⟨hlocked, hpostponed, hpriority, runs, ready, runnable, placed⟩, settled⟩ := h
          refine ⟨⟨hlocked, hpostponed, hpriority, ?_, ready, runnable, placed⟩, settled⟩
          exact .running task current state (settled.symm.trans current) (by simp)
        rw [if_neg (by simp [unlocked, ← h.settled, current])]
        simp only [slice]
        rw [if_pos (by simp [h.follows.locked, unlocked, state])]
        split
        · exact (ticked _).yield
        · exact ticked _

theorem block (h : Settled priority known s d) (allowed : Allowed s .blockThenYield) :
    Settled priority known (s.apply .blockThenYield) d.block := by
  obtain ⟨busy, unlocked⟩ := allowed
  obtain ⟨task, current⟩ := Option.ne_none_iff_exists'.mp busy
  have state := (h.running current).1
  obtain ⟨follows, settled⟩ := h
  have runnable := follows.runnable
  have placed := follows.placed
  have blocked :
      Follows priority known (s.1, s.2.setState task .blocking) { d with current := none } := by
    refine ⟨follows.locked, follows.postponed, follows.priority,
      .blocked task current (by simp) rfl, follows.ready, ?_, ?_⟩
    · simp only [ControlBlocks.setState_state]
      grind
    · simp only [ControlBlocks.setState_state]
      grind
  obtain ⟨yielded, same⟩ := blocked.yield (follows.locked.symm.trans unlocked)
  simp only [apply, Scheduler.block, current, Option.map_some]
  exact ⟨yielded, same⟩

/-- The flags may change, as long as those of the deque do too. -/
theorem flags (h : Settled priority known s d) (locked postponed : Bool) :
    Settled priority known ({ s.1 with yieldLocked := locked, yieldPostponed := postponed }, s.2)
      { d with locked := locked, postponed := postponed } := by
  obtain ⟨⟨_, _, hpriority, runs, ready, runnable, placed⟩, settled⟩ := h
  refine ⟨⟨rfl, rfl, hpriority, ?_, ready, runnable, placed⟩, settled⟩
  exact runs.frame rfl rfl rfl fun _ _ => ⟨rfl, rfl⟩

theorem unlock (h : Settled priority known s d) :
    Settled priority known (s.1.unlock s.2) d.unlock := by
  unfold Scheduler.unlock Deque.unlock
  rw [h.follows.postponed]
  by_cases postponed : d.postponed = true
  · rw [if_pos postponed, if_pos postponed]
    exact (h.flags false false).yield
  · rw [if_neg postponed, if_neg postponed]
    have same := h.flags false d.postponed
    simp only [← h.follows.postponed] at same ⊢
    exact same

theorem mono (h : Settled priority known s d) {fewer : Set Task} (subset : ∀ t ∈ fewer, t ∈ known) :
    Settled priority fewer s d := by
  obtain ⟨⟨locked, postponed, hpriority, runs, ready, runnable, placed⟩, settled⟩ := h
  exact ⟨⟨locked, postponed, hpriority, runs, ready, runnable,
    fun t member => placed t (subset t member)⟩, settled⟩

theorem apply (h : Settled priority known s d) {call : Call} {more : Set Task}
    (allowed : s.Allowed call) (grown : ∀ t ∈ more, t ∈ known ∨ call = .addTask t) :
    Settled priority more (s.apply call) (d.apply priority call) := by
  cases call with
  | addTask task =>
      apply (h.addTask allowed).mono
      intro t member
      simpa [eq_comm, or_comm] using grown t member
  | yield => exact h.yield.mono fun t member => by simpa using grown t member
  | tick => exact h.tick.mono fun t member => by simpa using grown t member
  | blockThenYield => exact (h.block allowed).mono fun t member => by simpa using grown t member
  | lock => exact (h.flags true false).mono fun t member => by simpa using grown t member
  | unlock => exact h.unlock.mono fun t member => by simpa using grown t member

theorem started (task : Task) (slice : Nat) (priority : Task → Nat) :
    Settled priority {task} (Processor.started task slice priority) (Deque.started task slice) := by
  refine ⟨⟨rfl, rfl, rfl, .running task rfl rfl rfl rfl, .empty _, List.forall_mem_nil _, ?_⟩, rfl⟩
  intro t member
  obtain rfl := Set.mem_singleton_iff.mp member
  exact .inl rfl

theorem run {task : Task} {slice : Nat} {calls : List Call}
    (run : Run Step (Processor.started task slice priority) calls s) :
    Settled priority {t | t = task ∨ .addTask t ∈ calls} s
      (calls.foldl (Deque.apply priority) (Deque.started task slice)) := by
  induction run with
  | start => exact (Settled.started task slice priority).mono fun t member => by simpa using member
  | next _ last ih =>
      obtain ⟨allowed, rfl⟩ := last
      rw [List.foldl_append]
      apply ih.apply allowed
      intro t member
      simpa [or_assoc, eq_comm] using member

theorem queued_iff (h : Settled priority known s d) (task : Task) :
    s.Queued task ↔ task ∈ d.ready := by
  constructor
  · rintro ⟨tasks, shows, member⟩
    rw [shows.threaded.unique h.follows.ready.threaded] at member
    exact member
  · exact fun member => ⟨d.ready, h.follows.ready, member⟩

/-- The deque knows which calls are allowed. -/
theorem allowed_iff (h : Settled priority known s d) (call : Call) :
    s.Allowed call ↔ d.allows call = true := by
  cases call with
  | addTask task => simp [Allowed, Deque.allows, h.queued_iff, h.settled]
  | yield => simp [Allowed, Deque.allows]
  | tick => simp [Allowed, Deque.allows]
  | blockThenYield => simp [Allowed, Deque.allows, h.settled, h.follows.locked,
      Option.isSome_iff_ne_none]
  | lock => simp [Allowed, Deque.allows, h.follows.locked]
  | unlock => simp [Allowed, Deque.allows, h.follows.locked]

/-- What the deque allows runs on the processor. -/
theorem replay {calls : List Call} {e : Deque} (h : Settled priority known s d)
    (replayed : calls.foldlM (Deque.attempt priority) d = some e) : ∃ t, Run Step s calls t := by
  induction calls generalizing known s d with
  | nil => exact ⟨s, .start s⟩
  | cons call rest ih =>
      obtain ⟨mid, first, later⟩ := Option.bind_eq_some_iff.mp replayed
      obtain ⟨may, rfl⟩ : d.allows call = true ∧ d.apply priority call = mid := by
        simpa [Deque.attempt] using first
      have allowed := (h.allowed_iff call).mpr may
      have next : Settled priority ∅ (s.apply call) (d.apply priority call) :=
        h.apply allowed (by simp)
      obtain ⟨t, run⟩ := ih next later
      exact ⟨t, (Run.single ⟨allowed, rfl⟩).trans run⟩

/-- A known task is in one place, which its state tells. -/
theorem exclusive (h : Settled priority known s d) {t : Task} (member : t ∈ known) :
    (s.1.currentTask = some t ∧ d.ready.count t = 0 ∧ s.2.state t = .running) ∨
      (s.1.currentTask ≠ some t ∧ d.ready.count t = 1 ∧ s.2.state t = .runnable) ∨
      (s.1.currentTask ≠ some t ∧ d.ready.count t = 0 ∧ s.2.state t = .blocking) := by
  have once := List.nodup_iff_count_le_one.mp h.follows.ready.threaded.nodup t
  have listed := List.count_pos_iff (a := t) (l := d.ready)
  have runnable := h.follows.runnable t
  have running (current : s.1.currentTask = some t) := h.running current
  have placed := h.follows.placed t member
  grind

end Settled

/-- The current tasks after each of the calls, the first one included. -/
def dispatches (s : Processor) (calls : List Call) : List (Option Task) :=
  (calls.scanl apply s).map (·.1.currentTask)

theorem run_foldl {s t : Processor} {calls : List Call} (run : Run Step s calls t) :
    t = calls.foldl apply s := by
  induction run with
  | start => rfl
  | next _ last ih =>
      obtain ⟨_, rfl⟩ := last
      rw [List.foldl_append, ← ih]
      rfl

theorem run_dispatches {task : Task} {slice : Nat} {priority : Task → Nat} {calls : List Call}
    {s : Processor} (run : Run Step (started task slice priority) calls s) :
    (started task slice priority).dispatches calls =
      (calls.scanl (Deque.apply priority) (Deque.started task slice)).map (·.current) := by
  unfold dispatches
  induction run with
  | start => rfl
  | next before last ih =>
      have settled := (Settled.run (.next before last)).settled
      rw [run_foldl (.next before last)] at settled
      simp only [List.foldl_append, List.foldl_cons, List.foldl_nil] at settled
      simp [List.scanl_append, ih, settled]

/-- One processor dispatches as the deque does. Its queue shows the list of the
    deque, counted modulo the size of the counter, and every task that was given
    to it is current, in the queue once, or blocked. -/
theorem dispatches_as_deque {task : Task} {slice : Nat} {priority : Task → Nat} {calls : List Call}
    {s : Processor} (run : Run Step (started task slice priority) calls s) :
    let d := calls.foldl (Deque.apply priority) (Deque.started task slice)
    (started task slice priority).dispatches calls =
        (calls.scanl (Deque.apply priority) (Deque.started task slice)).map (·.current) ∧
      s.1.currentTask = d.current ∧ s.1.tasks.Shows s.2.next d.ready ∧
      s.1.tasks.getSize = d.ready.length % 2 ^ 32 ∧ (∀ t ∈ d.ready, s.2.state t = .runnable) ∧
      ∀ t, t = task ∨ .addTask t ∈ calls →
        (s.1.currentTask = some t ∧ d.ready.count t = 0 ∧ s.2.state t = .running) ∨
          (s.1.currentTask ≠ some t ∧ d.ready.count t = 1 ∧ s.2.state t = .runnable) ∨
          (s.1.currentTask ≠ some t ∧ d.ready.count t = 0 ∧ s.2.state t = .blocking) := by
  have settled := Settled.run run
  refine ⟨run_dispatches run, settled.settled, settled.follows.ready, settled.follows.ready.size,
    settled.follows.runnable, ?_⟩
  intro t known
  exact settled.exclusive known

/-- A task of higher priority preempts the first one, which gets the processor
    back when the other blocks. -/
theorem dispatches_as_deque_after_block :
    ∃ s, Run Step (started 0 0 fun t => t) [.addTask 1, .blockThenYield, .addTask 2] s ∧
      (started 0 0 fun t => t).dispatches [.addTask 1, .blockThenYield, .addTask 2] =
        [some 0, some 1, some 0, some 2] ∧
      s.1.currentTask = some 2 ∧ s.1.tasks.getSize = 1 := by
  have replayed : [Call.addTask 1, .blockThenYield, .addTask 2].foldlM (Deque.attempt fun t => t)
      (Deque.started 0 0) = some ⟨some 2, [0], false, false, 5⟩ := rfl
  obtain ⟨s, run⟩ := (Settled.started 0 0 fun t => t).replay replayed
  obtain ⟨dispatched, current, _, size, _, _⟩ := dispatches_as_deque run
  exact ⟨s, run, dispatched, current, size⟩

end Processor

end Mykonos.Tasks
