import Mykonos.Lib.Run
import Mykonos.Tasks.Queue

/-! # The mutex

`release` does not clear the flag when a task waits: it hands the mutex over to the
first one, which does not look at the flag again when it resumes.
-/

namespace Mykonos.Tasks

open Lib

/-- Where a task is with respect to the mutex. -/
inductive Place where
  | outside
  /-- Blocked, in `blockedTasks`. -/
  | waiting
  /-- Popped from `blockedTasks`, not yet passed to `addTask`. -/
  | granted
  /-- Passed to `addTask`, still in `yield`. -/
  | woken
  /-- Past `acquire` and before `release`. -/
  | holding
  /-- In `release`, about to call `addTask`. -/
  | handing (nextTask : Task)
  deriving Repr, DecidableEq

/-- The fields of `lock::Mutex` with the links of all tasks, and the histories of the
    tasks that blocked, that were popped and that came back from `acquire` after it. -/
structure Mutex where
  lock : Bool := false
  blockedTasks : Queue := {}
  next : Links
  place : Task → Place
  blocked : List Task := []
  obtained : List Task := []
  resumed : List Task := []

namespace Mutex

inductive Event where
  | acquire (task : Task)
  | release (task : Task)
  | addTask (task : Task)
  /-- The task goes on after `yield`. -/
  | resume (task : Task)
  /-- Another queue writes the link of a task that does not wait here. -/
  | relink (task : Task) (next : Option Task)
  deriving Repr, DecidableEq

/-- The section of `acquire` under the spinlock. -/
def acquire (m : Mutex) (task : Task) : Mutex :=
  if !m.lock then { m with lock := true, place := Function.update m.place task .holding }
  else
    let pushed := m.blockedTasks.push m.next task
    { m with
      blockedTasks := pushed.1
      next := pushed.2
      place := Function.update m.place task .waiting
      blocked := m.blocked ++ [task] }

/-- The section of `release` under the spinlock. -/
def release (m : Mutex) (task : Task) : Mutex :=
  let popped := m.blockedTasks.pop m.next
  match popped.1 with
  | none =>
      { m with
        blockedTasks := popped.2
        lock := false
        place := Function.update m.place task .outside }
  | some nextTask =>
      { m with
        blockedTasks := popped.2
        place :=
          Function.update (Function.update m.place task (.handing nextTask)) nextTask .granted
        obtained := m.obtained ++ [nextTask] }

def after? (m : Mutex) : Event → Option Mutex
  | .acquire task => if m.place task = .outside then some (m.acquire task) else none
  | .release task => if m.place task = .holding then some (m.release task) else none
  | .addTask task =>
      match m.place task with
      | .handing nextTask =>
          some { m with
            place := Function.update (Function.update m.place task .outside) nextTask .woken }
      | _ => none
  | .resume task =>
      if m.place task = .woken then
        some { m with
          place := Function.update m.place task .holding
          resumed := m.resumed ++ [task] }
      else none
  | .relink task next =>
      if m.place task = .waiting then none
      else some { m with next := Function.update m.next task next }

def Step (m : Mutex) (event : Event) (n : Mutex) : Prop :=
  m.after? event = some n

def started (next : Links) : Mutex where
  next := next
  place _ := .outside

/-- A popped task owns the mutex from the moment it is popped. -/
def Owner (m : Mutex) (task : Task) : Prop :=
  m.place task = .granted ∨ m.place task = .woken ∨ m.place task = .holding

/-- A task that owns the mutex and has yet to come back from `acquire`. -/
def InFlight (m : Mutex) (task : Task) : Prop :=
  m.place task = .granted ∨ m.place task = .woken

/-- The flag, the queue and the tasks in flight tell who owns the mutex. -/
structure Held (m : Mutex) (waiting : List Task) (owner : Option Task) : Prop where
  shows : m.blockedTasks.Shows m.next waiting
  members : ∀ t, t ∈ waiting ↔ m.place t = .waiting
  owners : ∀ t, m.Owner t ↔ owner = some t
  flag : m.lock = owner.isSome
  idle : owner = none → waiting = []
  handing : ∀ t u, m.place t = .handing u → m.place u = .granted
  hands : ∀ t u v, m.place t = .handing v → m.place u = .handing v → t = u
  order : m.obtained ++ waiting = m.blocked
  flight : ∀ t, owner = some t → m.obtained =
    if m.place t = .holding then m.resumed else m.resumed ++ [t]
  settled : owner = none → m.obtained = m.resumed

namespace Held

variable {m : Mutex} {waiting : List Task} {owner : Option Task} {task : Task}

theorem acquire (h : Held m waiting owner) (outside : m.place task = .outside) :
    ∃ waiting' owner', Held (m.acquire task) waiting' owner' := by
  obtain ⟨shows, members, owners, flag, idle, handing, hands, order, flight, settled⟩ := h
  unfold Owner at owners
  unfold Mutex.acquire
  cases lock : m.lock with
  | false =>
      have free : owner = none := by simpa [lock] using flag
      simp only [Bool.not_false, if_true]
      refine ⟨waiting, some task, shows, ?_, ?_, rfl, by simp, ?_, ?_, order, ?_, by simp⟩
      · grind
      · simp only [Owner]
        grind
      · grind
      · grind
      · simp only [Option.some.injEq]
        grind
  | true =>
      have absent : task ∉ waiting := by simp [members, outside]
      simp only [Bool.not_true, Bool.false_eq_true, if_false]
      refine ⟨waiting ++ [task], owner, shows.push absent, ?_, ?_, lock.symm.trans flag, ?_, ?_, ?_,
        ?_, ?_, settled⟩
      · grind
      · simp only [Owner]
        grind
      · grind
      · grind
      · grind
      · rw [← List.append_assoc, order]
      · grind

theorem release (h : Held m waiting owner) (holding : m.place task = .holding) :
    ∃ waiting' owner', Held (m.release task) waiting' owner' := by
  obtain ⟨shows, members, owners, flag, idle, handing, hands, order, flight, settled⟩ := h
  obtain ⟨first, rest⟩ := shows.pop
  unfold Owner at owners
  have mine : owner = some task := (owners task).mp (by simp [holding])
  subst mine
  have obtained := flight task rfl
  rw [if_pos holding] at obtained
  unfold Mutex.release
  cases waiting with
  | nil =>
      simp only [first, List.head?_nil]
      refine ⟨[], none, rest, ?_, ?_, rfl, fun _ => rfl, ?_, ?_, order, by simp, fun _ => obtained⟩
      · grind
      · simp only [Owner]
        grind
      · grind
      · grind
  | cons nextTask tail =>
      have nodup := shows.threaded.nodup
      simp only [first, List.head?_cons]
      refine ⟨tail, some nextTask, rest, ?_, ?_, flag, by simp, ?_, ?_, ?_, ?_, by simp⟩
      · grind
      · simp only [Owner]
        grind
      · grind
      · grind
      · simpa using order
      · grind

theorem step (h : Held m waiting owner) {event : Event} {n : Mutex} (taken : m.Step event n) :
    ∃ waiting' owner', Held n waiting' owner' := by
  unfold Step after? at taken
  cases event with
  | acquire task =>
      simp only at taken
      split at taken
      · rename_i outside
        obtain rfl := Option.some.inj taken
        exact h.acquire outside
      · cases taken
  | release task =>
      simp only at taken
      split at taken
      · rename_i holding
        obtain rfl := Option.some.inj taken
        exact h.release holding
      · cases taken
  | addTask task =>
      simp only at taken
      split at taken
      · rename_i nextTask handing
        obtain rfl := Option.some.inj taken
        obtain ⟨shows, members, owners, flag, idle, given, hands, order, flight, settled⟩ := h
        have granted := given task nextTask handing
        unfold Owner at owners
        refine ⟨waiting, owner, shows, ?_, ?_, flag, idle, ?_, ?_, order, ?_, settled⟩
        · grind
        · simp only [Owner]
          grind
        · grind
        · grind
        · grind
      · cases taken
  | resume task =>
      simp only at taken
      split at taken
      · rename_i woken
        obtain rfl := Option.some.inj taken
        obtain ⟨shows, members, owners, flag, idle, given, hands, order, flight, settled⟩ := h
        unfold Owner at owners
        have mine : owner = some task := (owners task).mp (by simp [woken])
        refine ⟨waiting, owner, shows, ?_, ?_, flag, idle, ?_, ?_, order, ?_, ?_⟩
        · grind
        · simp only [Owner]
          grind
        · grind
        · grind
        · grind
        · grind
      · cases taken
  | relink task next =>
      simp only at taken
      split at taken
      · cases taken
      · rename_i away
        obtain rfl := Option.some.inj taken
        obtain ⟨shows, members, owners, flag, idle, handing, hands, order, flight, settled⟩ := h
        refine ⟨waiting, owner, ?_, members, owners, flag, idle, handing, hands, order,
          flight, settled⟩
        apply shows.frame
        intro a member
        apply Function.update_of_ne
        rintro rfl
        exact away ((members a).mp member)

end Held

theorem started_held (next : Links) : Held (started next) [] none := by
  refine ⟨.empty next, ?_, ?_, rfl, fun _ => rfl, ?_, ?_, rfl, ?_, fun _ => rfl⟩
  all_goals simp [started, Owner]

/-- At most one task owns the mutex, the flag tells whether one does, nobody waits for
    a free mutex, and the tasks that blocked own it and come back once each, in the
    order in which they blocked. -/
theorem mutex_handoff {next : Links} {events : List Event} {m : Mutex}
    (run : Run Step (started next) events m) :
    (∀ t u, m.Owner t → m.Owner u → t = u) ∧ (m.lock = true ↔ ∃ t, m.Owner t) ∧
      (m.lock = false → ∀ t, m.place t ≠ .waiting) ∧
      ∃ waiting, m.blockedTasks.Shows m.next waiting ∧ (∀ t, t ∈ waiting ↔ m.place t = .waiting) ∧
        m.obtained ++ waiting = m.blocked ∧
        (m.obtained = m.resumed ∨ ∃ t, m.InFlight t ∧ m.obtained = m.resumed ++ [t]) := by
  obtain ⟨waiting, owner, held⟩ :=
    run.invariant (P := fun m => ∃ waiting owner, Held m waiting owner)
    ⟨[], none, started_held next⟩ fun _ _ _ ⟨_, _, held⟩ taken => held.step taken
  obtain ⟨shows, members, owners, flag, idle, _, _, order, flight, settled⟩ := held
  refine ⟨?_, ?_, ?_, waiting, shows, members, order, ?_⟩
  · intro t u first second
    rw [owners] at first second
    exact Option.some.inj (first.symm.trans second)
  · rw [flag, Option.isSome_iff_exists]
    simp [owners]
  · intro free t waits
    have empty : waiting = [] := idle (by simpa [flag] using free)
    have member := (members t).mpr waits
    simp [empty] at member
  · cases owner with
    | none => exact .inl (settled rfl)
    | some t =>
        have obtained := flight t rfl
        split at obtained
        · exact .inl obtained
        · rename_i away
          have owns := (owners t).mpr rfl
          exact .inr ⟨t, by simpa [Owner, InFlight, away] using owns, obtained⟩

/-- One task holds the mutex, two block, and the first of them is handed it. -/
theorem mutex_handoff_in_order :
    ∃ m, Run Step (started fun _ => none) [.acquire 1, .acquire 2, .acquire 3, .release 1,
      .addTask 1, .resume 2] m ∧
      m.place 2 = .holding ∧ m.obtained = [2] ∧ m.blocked = [2, 3] ∧
      (m.lock = true ↔ ∃ t, m.Owner t) := by
  have computed : ∃ m, [Event.acquire 1, .acquire 2, .acquire 3, .release 1, .addTask 1,
    .resume 2].foldlM after?
      (started fun _ => none) = some m ∧ m.place 2 = .holding ∧ m.obtained = [2] ∧
      m.blocked = [2, 3] :=
    ⟨_, rfl, by decide +kernel⟩
  obtain ⟨m, replayed, holding, obtained, blocked⟩ := computed
  have run : Run Step _ _ m := Run.of_foldlM replayed
  exact ⟨m, run, holding, obtained, blocked, (mutex_handoff run).2.1⟩

end Mutex

end Mykonos.Tasks
