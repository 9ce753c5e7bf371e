import Mykonos.Lib.Run
import Mykonos.Tasks.Queue

/-! # The completion

`signalComplete` sets the flag and passes every task that waits to `addTask`, one after
the other, with the spinlock held. Whoever comes later finds the flag.
-/

namespace Mykonos.Tasks

open Lib

namespace Completion

/-- Where a task is with respect to the completion. -/
inductive Place where
  | outside
  /-- Blocked, in `waitingTasks`. -/
  | waiting
  /-- Popped from `waitingTasks`, not yet passed to `addTask`. -/
  | popped
  /-- Passed to `addTask`, still in `yield`. -/
  | woken
  deriving Repr, DecidableEq

end Completion

/-- The fields of `async::Completion` with the links of all tasks. While a task is in the
    loop of `signalComplete`, `signaller` has its `nextTask`. The histories are those of
    the tasks that blocked, that were passed to `addTask` and that came back from `await`. -/
structure Completion where
  completed : Bool := false
  waitingTasks : Queue := {}
  next : Links
  signaller : Option (Option Task) := none
  place : Task → Completion.Place
  blocked : List Task := []
  passed : List Task := []
  returned : List Task := []

namespace Completion

inductive Event where
  | await (task : Task)
  | signalComplete
  /-- The loop of `signalComplete`: `addTask` and the next `pop`, or its end. -/
  | drain
  /-- The task goes on after `yield`. -/
  | resume (task : Task)
  /-- Another queue writes the link of a task that does not wait here. -/
  | relink (task : Task) (next : Option Task)
  deriving Repr, DecidableEq

/-- The section of `await` under the spinlock. -/
def await (c : Completion) (task : Task) : Completion :=
  if c.completed then { c with returned := c.returned ++ [task] }
  else
    let pushed := c.waitingTasks.push c.next task
    { c with
      waitingTasks := pushed.1
      next := pushed.2
      place := Function.update c.place task .waiting
      blocked := c.blocked ++ [task] }

/-- `nextTask = waitingTasks.pop()`. -/
def popNext (c : Completion) : Completion :=
  let popped := c.waitingTasks.pop c.next
  { c with
    waitingTasks := popped.2
    signaller := some popped.1
    place := popped.1.elim c.place fun nextTask => Function.update c.place nextTask .popped }

/-- One iteration of the loop, with the lock released after the last one. -/
def drain (c : Completion) : Option Task → Completion
  | none => { c with signaller := none }
  | some nextTask =>
      { c with
        place := Function.update c.place nextTask .woken
        passed := c.passed ++ [nextTask] }.popNext

@[simp] theorem await_completed (c : Completion) (task : Task) :
    (c.await task).completed = c.completed := by
  unfold await
  split <;> rfl

@[simp] theorem popNext_completed (c : Completion) : c.popNext.completed = c.completed := rfl

@[simp] theorem drain_completed (c : Completion) (nextTask : Option Task) :
    (c.drain nextTask).completed = c.completed := by
  cases nextTask <;> rfl

def after? (c : Completion) : Event → Option Completion
  | .await task =>
      if c.signaller = none ∧ c.place task = .outside then some (c.await task) else none
  | .signalComplete =>
      if c.signaller = none then some { c with completed := true }.popNext else none
  | .drain => c.signaller.map c.drain
  | .resume task =>
      if c.place task = .woken then
        some { c with
          place := Function.update c.place task .outside
          returned := c.returned ++ [task] }
      else none
  | .relink task next =>
      if c.place task = .waiting then none
      else some { c with next := Function.update c.next task next }

def Step (c : Completion) (event : Event) (d : Completion) : Prop :=
  c.after? event = some d

def started (next : Links) : Completion where
  next := next
  place _ := .outside

/-- The task that the signaller has popped and not yet passed on. -/
def inHand (c : Completion) : List Task :=
  (c.signaller.getD none).toList

/-- Every task that blocked waits, is in the hands of the signaller or was passed on, and
    nobody waits for a completed one but while it is drained. -/
structure Kept (c : Completion) (waiting : List Task) : Prop where
  shows : c.waitingTasks.Shows c.next waiting
  members : ∀ t, t ∈ waiting ↔ c.place t = .waiting
  hand : ∀ t, t ∈ c.inHand ↔ c.place t = .popped
  woken : ∀ t, c.place t = .woken → t ∈ c.passed
  order : c.passed ++ c.inHand ++ waiting = c.blocked
  once : c.blocked.Nodup
  signalled : c.signaller ≠ none ∨ c.passed ≠ [] ∨ c.returned ≠ [] → c.completed = true
  drained : c.completed = true → c.signaller = none ∨ c.signaller = some none → waiting = []

namespace Kept

variable {c d : Completion} {waiting : List Task} {task : Task}

theorem popNext (shows : c.waitingTasks.Shows c.next waiting)
    (members : ∀ t, t ∈ waiting ↔ c.place t = .waiting) (hand : ∀ t, c.place t ≠ .popped)
    (woken : ∀ t, c.place t = .woken → t ∈ c.passed) (order : c.passed ++ waiting = c.blocked)
    (once : c.blocked.Nodup) (completed : c.completed = true) :
    Kept c.popNext waiting.tail := by
  obtain ⟨first, rest⟩ := shows.pop
  unfold Completion.popNext
  cases waiting with
  | nil =>
      rw [List.head?_nil] at first
      simp only [first, Option.elim_none]
      refine ⟨rest, members, ?_, woken, by simpa [inHand] using order, once, fun _ => completed,
        fun _ _ => rfl⟩
      simpa [inHand] using hand
  | cons nextTask tail =>
      rw [List.head?_cons] at first
      have nodup := shows.threaded.nodup
      simp only [first, Option.elim_some]
      refine ⟨rest, ?_, ?_, ?_, by simpa [inHand] using order, once, fun _ => completed, by simp⟩
      · grind
      · simp only [inHand]
        grind
      · grind

theorem await (h : Kept c waiting) (free : c.signaller = none) (outside : c.place task = .outside) :
    Kept (c.await task) (if c.completed then waiting else waiting ++ [task]) := by
  obtain ⟨shows, members, hand, woken, order, once, signalled, drained⟩ := h
  unfold Completion.await
  cases completed : c.completed with
  | true =>
      simp only [if_true]
      exact ⟨shows, members, hand, woken, order, once, fun _ => rfl, completed ▸ drained⟩
  | false =>
      have absent : task ∉ waiting := by simp [members, outside]
      have quiet : c.passed = [] ∧ c.returned = [] := by grind
      have all : waiting = c.blocked := by simpa [quiet.1, inHand, free] using order
      simp only [Bool.false_eq_true, if_false]
      refine ⟨shows.push absent, fun t => ?_, fun t => ?_, fun t => ?_, ?_, ?_, ?_, ?_⟩
      · simp only [Function.update_apply, List.mem_append, List.mem_singleton]
        split
        · rename_i same
          exact iff_of_true (.inr same) rfl
        · rename_i other
          rw [or_iff_left other, members]
      · simp only [Function.update_apply, inHand, free, Option.getD_none, Option.toList_none,
          List.not_mem_nil, false_iff]
        split
        · nofun
        · simpa [inHand, free] using (hand t).not
      · simp only [Function.update_apply]
        split
        · nofun
        · exact woken t
      · simp [quiet.1, inHand, free, all]
      · exact List.nodup_append_comm.mp (List.nodup_cons.mpr ⟨all ▸ absent, once⟩)
      · intro some_one
        exact completed ▸ signalled some_one
      · simp

theorem step (h : Kept c waiting) {event : Event} (taken : c.Step event d) :
    ∃ waiting', Kept d waiting' := by
  unfold Step after? at taken
  cases event with
  | await task =>
      obtain ⟨⟨free, outside⟩, result⟩ := Option.ite_none_right_eq_some.mp taken
      obtain rfl := Option.some.inj result
      exact ⟨_, h.await free outside⟩
  | signalComplete =>
      obtain ⟨free, result⟩ := Option.ite_none_right_eq_some.mp taken
      obtain rfl := Option.some.inj result
      have nobody : c.inHand = [] := by simp [inHand, free]
      refine ⟨_, popNext h.shows h.members ?_ h.woken ?_ h.once rfl⟩
      · intro t popped
        have member := (h.hand t).mpr popped
        simp [nobody] at member
      · simpa [nobody] using h.order
  | drain =>
      obtain ⟨nextTask, signaller, rfl⟩ := Option.map_eq_some_iff.mp taken
      have completed := h.signalled (.inl (by simp [signaller]))
      obtain ⟨shows, members, hand, woken, order, once, signalled, drained⟩ := h
      cases nextTask with
      | none =>
          refine ⟨waiting, shows, members, ?_, woken, ?_, once, fun _ => completed, ?_⟩
          · simpa [inHand, signaller, Completion.drain] using hand
          · simpa [inHand, signaller, Completion.drain] using order
          · exact fun _ _ => drained completed (.inr signaller)
      | some nextTask =>
          have mine (t : Task) : t = nextTask ↔ c.place t = .popped := by
            simpa [inHand, signaller, eq_comm] using hand t
          refine ⟨_, popNext shows ?_ ?_ ?_ ?_ once completed⟩
          · grind
          · grind
          · grind
          · simpa [inHand, signaller] using order
  | resume task =>
      obtain ⟨resumes, result⟩ := Option.ite_none_right_eq_some.mp taken
      obtain rfl := Option.some.inj result
      obtain ⟨shows, members, hand, woken, order, once, signalled, drained⟩ := h
      have passed : c.passed ≠ [] := List.ne_nil_of_mem (woken task resumes)
      refine ⟨waiting, shows, ?_, ?_, ?_, order, once,
        fun _ => signalled (.inr (.inl passed)), drained⟩
      · grind
      · simp only [inHand] at hand ⊢
        grind
      · grind
  | relink task next =>
      simp only at taken
      split at taken
      · cases taken
      · rename_i away
        obtain rfl := Option.some.inj taken
        refine ⟨waiting, ?_, h.members, h.hand, h.woken, h.order, h.once, h.signalled, h.drained⟩
        apply h.shows.frame
        intro a member
        apply Function.update_of_ne
        rintro rfl
        exact away ((h.members a).mp member)

end Kept

theorem started_kept (next : Links) : Kept (started next) [] := by
  refine ⟨.empty next, ?_, ?_, ?_, rfl, .nil, ?_, fun _ _ => rfl⟩
  all_goals simp [started, inHand]

theorem Step.completed {c d : Completion} {event : Event} (taken : c.Step event d) :
    d.completed = true ↔ c.completed = true ∨ event = .signalComplete := by
  unfold Step after? at taken
  cases event with
  | await task =>
      obtain ⟨_, result⟩ := Option.ite_none_right_eq_some.mp taken
      obtain rfl := Option.some.inj result
      simp
  | signalComplete =>
      obtain ⟨_, result⟩ := Option.ite_none_right_eq_some.mp taken
      obtain rfl := Option.some.inj result
      simp
  | drain =>
      obtain ⟨nextTask, _, rfl⟩ := Option.map_eq_some_iff.mp taken
      simp
  | resume task =>
      obtain ⟨_, result⟩ := Option.ite_none_right_eq_some.mp taken
      obtain rfl := Option.some.inj result
      simp
  | relink task next =>
      simp only at taken
      split at taken
      · cases taken
      · obtain rfl := Option.some.inj taken
        simp

/-- The flag is set by `signalComplete` and stays. -/
theorem completed_iff {next : Links} {events : List Event} {c : Completion}
    (run : Run Step (started next) events c) : c.completed = true ↔ .signalComplete ∈ events := by
  induction run with
  | start => simp [started]
  | next _ last ih =>
      rw [last.completed, ih, List.mem_append, List.mem_singleton]
      exact or_congr_right eq_comm

/-- The loop ends after it has passed on the task at hand and those that wait. -/
theorem Kept.drains {c : Completion} {waiting left : List Task} (h : Kept c waiting)
    (busy : c.signaller ≠ none) (all : c.inHand ++ waiting = left) :
    ∃ d, Run Step c (List.replicate (left.length + 1) .drain) d ∧ d.signaller = none ∧
    d.passed = c.passed ++ left := by
  obtain ⟨nextTask, signaller⟩ := Option.ne_none_iff_exists'.mp busy
  induction left generalizing c waiting nextTask with
  | nil =>
      cases nextTask with
      | none =>
          have step : c.Step .drain (c.drain none) := by simp [Step, after?, signaller]
          exact ⟨c.drain none, Run.single step, rfl, (List.append_nil _).symm⟩
      | some nextTask => simp [inHand, signaller] at all
  | cons first rest ih =>
      cases nextTask with
      | none =>
          have completed := h.signalled (.inl busy)
          have empty := h.drained completed (.inr signaller)
          simp [inHand, signaller, empty] at all
      | some nextTask =>
          have step : c.Step .drain (c.drain (some nextTask)) := by simp [Step, after?, signaller]
          obtain ⟨waiting', h'⟩ := h.step step
          obtain ⟨rfl, rfl⟩ : nextTask = first ∧ waiting = rest := by
            simpa [inHand, signaller] using all
          have passed : (c.drain (some nextTask)).passed = c.passed ++ [nextTask] := rfl
          have fewer : (c.drain (some nextTask)).inHand ++ waiting' = waiting := by
            have before := h.order
            have after := h'.order
            rw [passed] at after
            simp only [inHand, signaller, Option.getD_some, Option.toList_some] at before
            rw [List.append_assoc] at after
            exact List.append_cancel_left (after.trans before.symm)
          obtain ⟨d, run, free, all'⟩ :=
            ih h' (by simp [Completion.drain, Completion.popNext]) fewer _ rfl
          exact ⟨d, (Run.single step).trans run, free, by simp [all', passed]⟩

/-- No `await` returns before `signalComplete` has set the flag. A task that blocked is
    passed to `addTask` once: it waits, is about to be passed on, or was. Outside of
    `signalComplete` nobody waits for a completed one, and `signalComplete` ends when it
    has passed on all that waited. -/
theorem completion_wakes_all {next : Links} {events : List Event} {c : Completion}
    (run : Run Step (started next) events c) :
    (c.returned ≠ [] → c.completed = true ∧ .signalComplete ∈ events) ∧
      ∃ waiting, c.waitingTasks.Shows c.next waiting ∧ (∀ t, t ∈ waiting ↔ c.place t = .waiting) ∧
        c.blocked.Nodup ∧ c.passed ++ c.inHand ++ waiting = c.blocked ∧
        (c.completed = true → c.signaller = none → waiting = [] ∧ c.passed = c.blocked) ∧
        (c.signaller ≠ none → ∃ n d, Run Step c (List.replicate n .drain) d ∧ d.signaller = none ∧
          d.passed = c.blocked) := by
  obtain ⟨waiting, kept⟩ :=
    run.invariant (P := fun c => ∃ waiting, Kept c waiting) ⟨[], started_kept next⟩
    fun _ _ _ ⟨_, kept⟩ taken => kept.step taken
  refine ⟨fun back => ?_, waiting, kept.shows, kept.members, kept.once, kept.order,
    fun completed free => ?_, ?_⟩
  · have completed := kept.signalled (.inr (.inr back))
    exact ⟨completed, (completed_iff run).mp completed⟩
  · have empty := kept.drained completed (.inl free)
    have order := kept.order
    simp only [inHand, free, empty, Option.getD_none, Option.toList_none, List.append_nil] at order
    exact ⟨empty, order⟩
  · intro busy
    obtain ⟨d, drains, free, passed⟩ := kept.drains busy rfl
    exact ⟨_, d, drains, free, by rw [passed, ← List.append_assoc, kept.order]⟩

/-- Two tasks wait, are passed on one after the other, and a third one need not wait. -/
theorem completion_wakes_all_in_turn :
    ∃ c, Run Step (started fun _ => none)
        [.await 1, .await 2, .signalComplete, .drain, .resume 1, .relink 1 (some 2), .drain,
          .drain, .await 3] c ∧
      c.returned = [1, 3] ∧ c.passed = [1, 2] ∧ c.completed = true ∧ c.blocked.Nodup := by
  have computed : ∃ c, [Event.await 1, .await 2, .signalComplete, .drain, .resume 1,
    .relink 1 (some 2), .drain, .drain,
      .await 3].foldlM after? (started fun _ => none) = some c ∧ c.returned = [1, 3] ∧
      c.passed = [1, 2] :=
    ⟨_, rfl, by decide +kernel⟩
  obtain ⟨c, replayed, returned, passed⟩ := computed
  have run : Run Step _ _ c := Run.of_foldlM replayed
  obtain ⟨back, _, _, _, nodup, _⟩ := completion_wakes_all run
  exact ⟨c, run, returned, passed, (back (by simp [returned])).1, nodup⟩

end Completion

/-! ## The completion as a latch -/

/-- What a completion is for: threads wait until it is set, and then none does. -/
structure Latch (ι : Type*) where
  completed : Bool := false
  waiting : List ι := []

namespace Latch

variable {ι : Type*}

/-- The caller goes on if the latch is set and waits otherwise. -/
def await (latch : Latch ι) (thread : ι) : Latch ι :=
  if latch.completed then latch else { latch with waiting := latch.waiting ++ [thread] }

/-- The latch that is set, and the threads that go on. -/
def signalComplete (latch : Latch ι) : Latch ι × List ι :=
  (⟨true, []⟩, latch.waiting)

end Latch

namespace Completion

/-- A completion that nobody is about to signal, as a latch. -/
structure Stands (c : Completion) (latch : Latch Task) : Prop where
  kept : Kept c latch.waiting
  completed : c.completed = latch.completed
  free : c.signaller = none

theorem Stands.await {c d : Completion} {latch : Latch Task} (h : Stands c latch) {task : Task}
    (taken : c.Step (.await task) d) : Stands d (latch.await task) := by
  obtain ⟨kept, completed, free⟩ := h
  obtain ⟨⟨_, outside⟩, result⟩ := Option.ite_none_right_eq_some.mp taken
  obtain rfl := Option.some.inj result
  have after := kept.await free outside
  unfold Latch.await
  rw [completed] at after
  cases set : latch.completed with
  | true =>
      rw [set, if_pos rfl] at after
      exact ⟨after, by simp [completed], by simp [Completion.await, completed, set, free]⟩
  | false =>
      rw [set, if_neg Bool.false_ne_true] at after
      exact ⟨after, by simp [completed, set], by simp [Completion.await, completed, set, free]⟩

/-- `signalComplete`, its loop included, sets the latch and passes on all that waited. -/
theorem Stands.signalComplete {c : Completion} {latch : Latch Task} (h : Stands c latch) :
    ∃ n d, Run Step c (.signalComplete :: List.replicate n .drain) d ∧
      Stands d latch.signalComplete.1 ∧ d.passed = c.passed ++ latch.signalComplete.2 := by
  obtain ⟨kept, completed, free⟩ := h
  have begun : c.Step .signalComplete { c with completed := true }.popNext := if_pos free
  obtain ⟨waiting, kept'⟩ := kept.step begun
  have all : ({ c with completed := true }.popNext).inHand ++ waiting = latch.waiting := by
    have before := kept.order
    simp only [inHand, free, Option.getD_none, Option.toList_none, List.append_nil] at before
    have after := kept'.order
    rw [List.append_assoc] at after
    exact List.append_cancel_left (after.trans before.symm)
  obtain ⟨d, drains, left, passed⟩ := kept'.drains (by simp [popNext]) all
  have set : d.completed = true ∧ ∃ waiting, Kept d waiting :=
    drains.invariant (P := fun d => d.completed = true ∧ ∃ waiting, Kept d waiting) ⟨rfl, _, kept'⟩
      fun _ _ _ ⟨set, _, kept⟩ taken => ⟨taken.completed.mpr (.inl set), kept.step taken⟩
  obtain ⟨set, rest, final⟩ := set
  obtain rfl := final.drained set (.inl left)
  exact ⟨_, d, (Run.single begun).trans drains, ⟨final, set, left⟩, passed⟩

end Completion

end Mykonos.Tasks
