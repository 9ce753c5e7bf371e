import Mykonos.Lib.Run
import Mykonos.Tasks.Queue

/-! # Who is on which stack

`swapRegisters` gives up the run lock of the old task with a call, on the stack of
that task, and stays there until it has the run lock of the new one and loads its
stack pointer. Whoever takes the run lock of the old task in between shares the
stack with it, or frees it.
-/

namespace Mykonos.Tasks

open Lib

/-- Where a processor is between two tasks. `idle` marks the swap of a task with
    itself before the processor halts. -/
inductive Phase where
  | running (task : Task)
  /-- In `swapRegisters`, before `unlockTask`. -/
  | saving (fromTask toTask : Task) (idle : Bool)
  /-- After `unlockTask`, before `lockTask` returns. -/
  | unlocked (fromTask toTask : Task) (idle : Bool)
  /-- In `restoreRegisters` on the scheduler stack, before `lockTask` returns. -/
  | waiting (toTask : Task)
  /-- After `lockTask`, before the stack pointer is loaded. -/
  | loading (fromTask : Option Task) (toTask : Task) (idle : Bool)
  /-- Back from the swap of the task with itself. -/
  | returned (task : Task)
  /-- On the scheduler stack, before the run lock of the task is released. -/
  | parked (task : Task)
  | halted
  deriving Repr, DecidableEq

/-- The task on whose stack the processor is. -/
def Phase.stack : Phase → Option Task
  | .running task | .saving task _ _ | .unlocked task _ _ | .returned task => some task
  | .loading fromTask _ _ => fromTask
  | .waiting _ | .parked _ | .halted => none

/-- The task whose run lock the processor has. -/
def Phase.holds : Phase → Option Task
  | .running task | .saving task _ _ | .loading _ task _ | .returned task
    | .parked task => some task
  | .unlocked _ _ _ | .waiting _ | .halted => none

/-- The task to which the processor switches. -/
def Phase.heading : Phase → Option Task
  | .saving _ task _ | .unlocked _ task _ | .waiting task | .loading _ task _ => some task
  | .running _ | .returned _ | .parked _ | .halted => none

/-- The task whose run lock the processor has given up while it is on the stack. -/
def Phase.exposed : Phase → Option Task
  | .unlocked task _ _ => some task
  | .loading (some task) toTask _ => if task = toTask then none else some task
  | .loading none _ _ | .running _ | .saving _ _ _ | .waiting _ | .returned _ | .parked _
  | .halted => none

/-- What a task does for the cleaner: the code `thread::destroy` gave it. -/
inductive Job where
  | none
  | acquire (victim : Task)
  | release (victim : Task)
  | free (victim : Task)
  deriving Repr, DecidableEq

/-- `doomed` are the tasks that called `thread::destroy`, `pending` those of them
    that the cleaner has not taken yet. -/
structure Stacks where
  cpus : Nat
  phase : Nat → Phase
  runLock : Task → Bool
  doomed : Task → Bool
  pending : Task → Bool
  freed : Task → Bool
  job : Task → Job

namespace Stacks

inductive Event where
  /-- `yield` has popped a task. -/
  | dispatch (cpu : Nat) (toTask : Task)
  /-- `yield` has popped nothing and the current task does not run. -/
  | idle (cpu : Nat)
  | unlockTask (cpu : Nat)
  | lockTask (cpu : Nat)
  | load (cpu : Nat)
  /-- The task was unblocked before its processor could give it up. -/
  | unblocked (cpu : Nat)
  | park (cpu : Nat)
  | release (cpu : Nat)
  | destroy (cpu : Nat)
  | clean (cpu : Nat) (victim : Task)
  | work (cpu : Nat)
  deriving Repr, DecidableEq

def Event.cpu : Event → Nat
  | .dispatch cpu _ | .idle cpu | .unlockTask cpu | .lockTask cpu | .load cpu
    | .unblocked cpu | .park cpu
  | .release cpu | .destroy cpu | .clean cpu _ | .work cpu => cpu

def goto (s : Stacks) (cpu : Nat) (phase : Phase) : Stacks :=
  { s with phase := Function.update s.phase cpu phase }

def setLock (s : Stacks) (task : Task) (locked : Bool) : Stacks :=
  { s with runLock := Function.update s.runLock task locked }

def setJob (s : Stacks) (task : Task) (job : Job) : Stacks :=
  { s with job := Function.update s.job task job }

/-- Interrupts are off while the cleaner has the run lock of its victim. -/
def Job.preemptible : Job → Bool
  | .release _ => false
  | .none | .acquire _ | .free _ => true

/-- A step of the destruction code. -/
def work (s : Stacks) (task : Task) : Option Stacks :=
  match s.job task with
  | .none => none
  | .acquire victim =>
      if s.runLock victim then none
      else some ((s.setLock victim true).setJob task (.release victim))
  | .release victim => some ((s.setLock victim false).setJob task (.free victim))
  | .free victim => some ({ s with freed := Function.update s.freed victim true }.setJob task .none)

/-- A destroyed task is in no queue, so nobody pops it. -/
def perform (s : Stacks) : Event → Option Stacks
  | .dispatch cpu toTask =>
      if s.doomed toTask then none
      else
        match s.phase cpu with
        | .running fromTask =>
            if Job.preemptible (s.job fromTask) then
              some (s.goto cpu (.saving fromTask toTask false))
            else none
        | .halted => some (s.goto cpu (.waiting toTask))
        | _ => none
  | .idle cpu =>
      match s.phase cpu with
      | .running task => if Job.preemptible (s.job task) then some
          (s.goto cpu (.saving task task true)) else none
      | _ => none
  | .unlockTask cpu =>
      match s.phase cpu with
      | .saving fromTask toTask idle =>
          some ((s.setLock fromTask false).goto cpu (.unlocked fromTask toTask idle))
      | _ => none
  | .lockTask cpu =>
      match s.phase cpu with
      | .unlocked fromTask toTask idle =>
          if s.runLock toTask then none
          else some ((s.setLock toTask true).goto cpu (.loading (some fromTask) toTask idle))
      | .waiting toTask =>
          if s.runLock toTask then none
          else some ((s.setLock toTask true).goto cpu (.loading none toTask false))
      | _ => none
  | .load cpu =>
      match s.phase cpu with
      | .loading _ toTask idle =>
          some (s.goto cpu (if idle then .returned toTask else .running toTask))
      | _ => none
  | .unblocked cpu =>
      match s.phase cpu with
      | .returned task => some (s.goto cpu (.running task))
      | _ => none
  | .park cpu =>
      match s.phase cpu with
      | .returned task => some (s.goto cpu (.parked task))
      | _ => none
  | .release cpu =>
      match s.phase cpu with
      | .parked task => some ((s.setLock task false).goto cpu .halted)
      | _ => none
  | .destroy cpu =>
      match s.phase cpu with
      | .running task =>
          if s.doomed task then none
          else some { s with
            doomed := Function.update s.doomed task true
            pending := Function.update s.pending task true }
      | _ => none
  | .clean cpu victim =>
      match s.phase cpu with
      | .running task =>
          if s.pending victim ∧ s.job task = .none then
            some ({ s with pending := Function.update s.pending victim false }.setJob task
              (.acquire victim))
          else none
      | _ => none
  | .work cpu =>
      match s.phase cpu with
      | .running task => s.work task
      | _ => none

def after? (s : Stacks) (event : Event) : Option Stacks :=
  if event.cpu < s.cpus then s.perform event else none

def Step (s : Stacks) (event : Event) (t : Stacks) : Prop :=
  s.after? event = some t

/-- Every processor runs the task it was given at `init`, which took its run lock. -/
def started (cpus : Nat) : Stacks where
  cpus := cpus
  phase cpu := if cpu < cpus then .running cpu else .halted
  runLock task := task < cpus
  doomed _ := false
  pending _ := false
  freed _ := false
  job _ := .none

/-- At most one processor is on a stack, and none on one that is freed. -/
structure Exclusive (s : Stacks) : Prop where
  single : ∀ c d t, (s.phase c).stack = some t → (s.phase d).stack = some t → c = d
  freed : ∀ t, s.freed t = true → ∀ c, (s.phase c).stack ≠ some t

/-- While a processor is on the stack of a task, the run lock of the task is held. -/
def Locked (s : Stacks) : Prop :=
  ∀ c t, (s.phase c).stack = some t → s.runLock t = true

/-- The task whose run lock the processor is about to take for the cleaner. -/
def claims (s : Stacks) (cpu : Nat) : Option Task :=
  match s.phase cpu with
  | .running task =>
      match s.job task with
      | .acquire victim => some victim
      | _ => none
  | _ => none

/-- The step takes no run lock of a task that another processor is still leaving, and
    destroys no task that another processor switches to. -/
def Careful (s : Stacks) : Event → Prop
  | .lockTask cpu => ∀ t ∈ (s.phase cpu).heading, ∀ c < s.cpus, c ≠ cpu →
    (s.phase c).exposed ≠ some t
  | .work cpu => ∀ t ∈ s.claims cpu, ∀ c < s.cpus, (s.phase c).exposed ≠ some t
  | .destroy cpu => ∀ t ∈ (s.phase cpu).stack, ∀ c < s.cpus, (s.phase c).heading ≠ some t
  | _ => True

instance (s : Stacks) : (event : Event) → Decidable (s.Careful event)
  | .lockTask cpu => inferInstanceAs (Decidable
      (∀ t ∈ (s.phase cpu).heading, ∀ c < s.cpus, c ≠ cpu → (s.phase c).exposed ≠ some t))
  | .work cpu =>
    inferInstanceAs (Decidable (∀ t ∈ s.claims cpu, ∀ c < s.cpus, (s.phase c).exposed ≠ some t))
  | .destroy cpu => inferInstanceAs (Decidable
      (∀ t ∈ (s.phase cpu).stack, ∀ c < s.cpus, (s.phase c).heading ≠ some t))
  | .dispatch _ _ | .idle _ | .unlockTask _ | .load _ | .unblocked _ | .park _ | .release _
  | .clean _ _ =>
      inferInstanceAs (Decidable True)

/-- The cleaner has had the run lock of the task. -/
def Claimed (s : Stacks) (t : Task) : Prop :=
  s.freed t = true ∨ ∃ w, s.job w = .release t ∨ s.job w = .free t

/-- Run locks are held by one processor or one cleaner at a time, and nobody else is
    on the stack. Nobody switches to a destroyed task, but for its own processor, and nobody
    takes the run lock of a task that a processor is still leaving. -/
structure Sound (s : Stacks) : Prop where
  single : ∀ c d t, (s.phase c).stack = some t → (s.phase d).stack = some t → c = d
  locked : ∀ c t, (s.phase c).holds = some t → s.runLock t = true
  unique : ∀ c d t, (s.phase c).holds = some t → (s.phase d).holds = some t → c = d
  owned : ∀ c d t, (s.phase c).holds = some t → (s.phase d).stack = some t → c = d
  jobLocked : ∀ w t, s.job w = .release t → s.runLock t = true
  jobUnique : ∀ v w t, s.job v = .release t → s.job w = .release t → v = w
  jobApart : ∀ c w t, (s.phase c).holds = some t → s.job w ≠ .release t
  absent : ∀ c, s.cpus ≤ c → s.phase c = .halted
  doomed : ∀ c t, s.doomed t = true → (s.phase c).heading = some t → (s.phase c).stack = some t
  claimed : ∀ t, s.Claimed t → ∀ c, (s.phase c).stack ≠ some t ∧ (s.phase c).heading ≠ some t
  victim : ∀ t, s.pending t = true ∨ s.Claimed t ∨ (∃ w, s.job w = .acquire t) → s.doomed t = true
  bare : ∀ c t, (s.phase c).exposed = some t → s.runLock t = false

theorem stack_cases {p : Phase} {t : Task} (h : p.stack = some t) :
    p.holds = some t ∨ p.exposed = some t := by
  cases p with
  | loading fromTask toTask idle =>
      cases h
      by_cases same : t = toTask
      · exact .inl (by simp [Phase.holds, same])
      · exact .inr (by simp [Phase.exposed, same])
  | unlocked fromTask toTask idle => exact .inr h
  | running | saving | returned => exact .inl h
  | waiting | parked | halted => cases h

theorem exposed_stack {p : Phase} {t : Task} (h : p.exposed = some t) : p.stack = some t := by
  cases p with
  | loading fromTask toTask idle =>
      cases fromTask with
      | none => cases h
      | some task =>
          by_cases same : task = toTask
          · simp [Phase.exposed, same] at h
          · rw [Phase.exposed, if_neg same] at h
            exact h
  | unlocked fromTask toTask idle => exact h
  | running | saving | returned | waiting | parked | halted => cases h

namespace Sound

variable {s : Stacks} {cpu : Nat}

/-- The processor moves on without touching a lock. -/
theorem goto (h : Sound s) {q : Phase} (inRange : cpu < s.cpus) (stack : ∀ t, q.stack = some t →
      (s.phase cpu).stack = some t ∨ (s.phase cpu).holds = some t ∧ (s.phase cpu).heading = some t)
    (holds : q.holds = (s.phase cpu).holds)
    (heading : ∀ t, q.heading = some t → s.doomed t = false ∨ (s.phase cpu).stack =
      some t ∧ q.stack = some t)
    (covered : q.exposed = none) : Sound (s.goto cpu q) := by
  obtain ⟨single, locked, unique, owned, jobLocked, jobUnique, jobApart, absent, doomed, claimed,
    victim, bare⟩ := h
  have claimed' : ∀ t, s.Claimed t → ∀ c, (Function.update s.phase cpu q c).stack ≠ some t ∧
      (Function.update s.phase cpu q c).heading ≠ some t := by
    intro t taken c
    have gone := claimed t taken
    have dead := victim t (.inr (.inl taken))
    grind
  refine ⟨?_, ?_, ?_, ?_, jobLocked, jobUnique, ?_, ?_, ?_, claimed', victim, ?_⟩
  all_goals simp only [Stacks.goto]
  · grind
  · grind
  · grind
  · grind
  · grind
  · grind
  · grind
  · grind

/-- A processor that comes to no other task comes to none that has been claimed. -/
theorem claimed_goto (h : Sound s) {q : Phase}
    (stack : ∀ t, q.stack = some t → (s.phase cpu).stack = some t)
    (heading : ∀ t, q.heading = some t → (s.phase cpu).heading = some t) {t : Task}
    (taken : s.Claimed t) (c : Nat) :
    (Function.update s.phase cpu q c).stack ≠ some t ∧
    (Function.update s.phase cpu q c).heading ≠ some t := by
  have gone := h.claimed t taken
  grind

/-- The processor gives up the run lock that it has. -/
theorem giveUp (h : Sound s) {q : Phase} {task : Task} (inRange : cpu < s.cpus)
    (held : (s.phase cpu).holds = some task)
    (stack : ∀ t, q.stack = some t → (s.phase cpu).stack = some t) (holds : q.holds = none)
    (heading : ∀ t, q.heading = some t → (s.phase cpu).heading = some t)
    (doomed : ∀ t, s.doomed t = true → q.heading = some t → q.stack = some t)
    (exposed : ∀ t, q.exposed = some t → t = task) : Sound ((s.setLock task false).goto cpu q) := by
  have claimed' := fun t => h.claimed_goto (t := t) stack heading
  obtain ⟨single, locked, unique, owned, jobLocked, jobUnique, jobApart, absent, doomed', claimed,
    victim, bare⟩ := h
  refine ⟨?_, ?_, ?_, ?_, ?_, jobUnique, ?_, ?_, ?_, fun t => claimed' t, victim, ?_⟩
  all_goals simp only [Stacks.goto, setLock]
  · grind
  · grind
  · grind
  · grind
  · grind
  · grind
  · grind
  · grind
  · grind

/-- The processor takes the run lock of the task it switches to. -/
theorem take (h : Sound s) {q : Phase} {task : Task} (inRange : cpu < s.cpus)
    (free : s.runLock task = false)
    (careful : ∀ c < s.cpus, c ≠ cpu → (s.phase c).exposed ≠ some task)
    (was : (s.phase cpu).heading = some task) (stack : q.stack = (s.phase cpu).stack)
    (holds : q.holds = some task) (heading : q.heading = (s.phase cpu).heading)
    (exposed : ∀ t, q.exposed = some t → (s.phase cpu).exposed = some t ∧ t ≠ task) :
    Sound ((s.setLock task true).goto cpu q) := by
  have cleared : ∀ c, c ≠ cpu → (s.phase c).stack ≠ some task := by
    intro c other on
    rcases stack_cases on with held | exposed
    · simp [h.locked c task held] at free
    · refine careful c ?_ other exposed
      by_contra outside
      rw [h.absent c (Nat.le_of_not_lt outside)] at exposed
      cases exposed
  have left : ∀ c, c ≠ cpu → (s.phase c).exposed ≠ some task := fun c other leaving =>
    cleared c other (exposed_stack leaving)
  have claimed' :=
    fun t => h.claimed_goto (t := t) (fun _ on => stack ▸ on) fun _ on => heading ▸ on
  obtain ⟨single, locked, unique, owned, jobLocked, jobUnique, jobApart, absent, doomed', claimed,
    victim, bare⟩ := h
  refine ⟨?_, ?_, ?_, ?_, ?_, jobUnique, ?_, ?_, ?_, fun t => claimed' t, victim, ?_⟩
  all_goals simp only [Stacks.goto, setLock]
  · grind
  · grind
  · grind
  · grind
  · grind
  · grind
  · grind
  · grind
  · grind

theorem dispatch (h : Sound s) {toTask : Task} {t : Stacks} (inRange : cpu < s.cpus)
    (taken : s.perform (.dispatch cpu toTask) = some t) : Sound t := by
  simp only [perform] at taken
  split at taken
  · cases taken
  · rename_i alive
    have alive := Bool.eq_false_iff.mpr alive
    split at taken
    · rename_i fromTask running
      split at taken
      · obtain rfl := Option.some.inj taken
        apply h.goto inRange <;> simp [running, Phase.stack, Phase.holds, Phase.heading,
          Phase.exposed, alive]
      · cases taken
    · rename_i halted
      obtain rfl := Option.some.inj taken
      apply h.goto inRange <;> simp [halted, Phase.stack, Phase.holds, Phase.heading,
        Phase.exposed, alive]
    · cases taken

theorem idle (h : Sound s) {t : Stacks} (inRange : cpu < s.cpus)
    (taken : s.perform (.idle cpu) = some t) :
    Sound t := by
  cases phase : s.phase cpu <;> simp only [perform, phase, reduceCtorEq] at taken
  split at taken
  · obtain rfl := Option.some.inj taken
    apply h.goto inRange <;> simp [phase, Phase.stack, Phase.holds, Phase.heading, Phase.exposed]
  · cases taken

theorem unlockTask (h : Sound s) {t : Stacks} (inRange : cpu < s.cpus)
    (taken : s.perform (.unlockTask cpu) = some t) : Sound t := by
  cases phase : s.phase cpu with
  | saving fromTask toTask idle =>
      simp only [perform, phase, Option.some.injEq] at taken
      subst taken
      have doomed := h.doomed cpu
      simp only [phase, Phase.stack, Phase.heading] at doomed
      apply h.giveUp inRange <;>
        simp [phase, Phase.stack, Phase.holds, Phase.heading, Phase.exposed]
      simpa using doomed
  | _ => simp [perform, phase] at taken

theorem lockTask (h : Sound s) {t : Stacks} (inRange : cpu < s.cpus)
    (careful : s.Careful (.lockTask cpu)) (taken : s.perform (.lockTask cpu) = some t) :
    Sound t := by
  simp only [Careful] at careful
  cases phase : s.phase cpu with
  | unlocked fromTask toTask idle =>
      simp only [perform, phase] at taken
      rw [phase] at careful
      split at taken
      · cases taken
      · rename_i free
        obtain rfl := Option.some.inj taken
        apply h.take inRange (Bool.eq_false_iff.mpr free) (careful toTask rfl) <;>
          simp [phase, Phase.stack, Phase.holds, Phase.heading, Phase.exposed]
  | waiting toTask =>
      simp only [perform, phase] at taken
      rw [phase] at careful
      split at taken
      · cases taken
      · rename_i free
        obtain rfl := Option.some.inj taken
        apply h.take inRange (Bool.eq_false_iff.mpr free) (careful toTask rfl) <;>
          simp [phase, Phase.stack, Phase.holds, Phase.heading, Phase.exposed]
  | _ => simp [perform, phase] at taken

theorem load (h : Sound s) {t : Stacks} (inRange : cpu < s.cpus)
    (taken : s.perform (.load cpu) = some t) :
    Sound t := by
  cases phase : s.phase cpu with
  | loading fromTask toTask idle =>
      simp only [perform, phase, Option.some.injEq] at taken
      subst taken
      apply h.goto inRange <;>
        cases idle <;> simp [phase, Phase.stack, Phase.holds, Phase.heading, Phase.exposed]
  | _ => simp [perform, phase] at taken

theorem unblocked (h : Sound s) {t : Stacks} (inRange : cpu < s.cpus)
    (taken : s.perform (.unblocked cpu) = some t) :
    Sound t := by
  cases phase : s.phase cpu with
  | returned task =>
      simp only [perform, phase, Option.some.injEq] at taken
      subst taken
      apply h.goto inRange <;> simp [phase, Phase.stack, Phase.holds, Phase.heading, Phase.exposed]
  | _ => simp [perform, phase] at taken

theorem park (h : Sound s) {t : Stacks} (inRange : cpu < s.cpus)
    (taken : s.perform (.park cpu) = some t) :
    Sound t := by
  cases phase : s.phase cpu with
  | returned task =>
      simp only [perform, phase, Option.some.injEq] at taken
      subst taken
      apply h.goto inRange <;> simp [phase, Phase.stack, Phase.holds, Phase.heading, Phase.exposed]
  | _ => simp [perform, phase] at taken

theorem release (h : Sound s) {t : Stacks} (inRange : cpu < s.cpus)
    (taken : s.perform (.release cpu) = some t) :
    Sound t := by
  cases phase : s.phase cpu with
  | parked task =>
      simp only [perform, phase, Option.some.injEq] at taken
      subst taken
      apply h.giveUp inRange <;>
        simp [phase, Phase.stack, Phase.holds, Phase.heading, Phase.exposed]
  | _ => simp [perform, phase] at taken

theorem destroy (h : Sound s) {t : Stacks} (careful : s.Careful (.destroy cpu))
    (taken : s.perform (.destroy cpu) = some t) : Sound t := by
  cases phase : s.phase cpu with
  | running task =>
      simp only [perform, phase] at taken
      split at taken
      · cases taken
      · obtain rfl := Option.some.inj taken
        obtain ⟨single, locked, unique, owned, jobLocked, jobUnique, jobApart, absent, doomed,
          claimed, victim, bare⟩ := h
        refine ⟨single, locked, unique, owned, jobLocked, jobUnique, jobApart, absent, ?_,
          claimed, ?_, bare⟩
        · intro c t dead ahead
          by_cases same : t = task
          · subst same
            by_cases inside : c < s.cpus
            · exact absurd ahead (careful t (by simp [phase, Phase.stack]) c inside)
            · rw [absent c (Nat.le_of_not_lt inside)] at ahead
              cases ahead
          · exact doomed c t (by simpa [same] using dead) ahead
        · intro t taken
          by_cases same : t = task
          · simp [same]
          · have before := victim t
            simp only [Function.update_of_ne same] at taken ⊢
            exact before taken
  | _ => simp [perform, phase] at taken

theorem clean (h : Sound s) {victim : Task} {t : Stacks}
    (taken : s.perform (.clean cpu victim) = some t) :
    Sound t := by
  cases phase : s.phase cpu with
  | running task =>
      simp only [perform, phase] at taken
      split at taken
      · rename_i allowed
        obtain ⟨waiting, free⟩ := allowed
        obtain rfl := Option.some.inj taken
        have same :
            ∀ t, Claimed ({ s with pending := Function.update s.pending victim false }.setJob task
            (.acquire victim)) t → s.Claimed t := by
          intro t
          simp only [Claimed, setJob]
          grind
        obtain ⟨single, locked, unique, owned, jobLocked, jobUnique, jobApart, absent, doomed,
          claimed, dead, bare⟩ := h
        refine ⟨single, locked, unique, owned, ?_, ?_, ?_, absent, doomed, ?_, ?_, bare⟩
        · simp only [setJob]
          grind
        · simp only [setJob]
          grind
        · simp only [setJob]
          grind
        · exact fun t taken => claimed t (same t taken)
        · intro t taken
          have before := dead t
          have old := same t
          simp only [setJob] at taken old ⊢
          grind
      · cases taken
  | _ => simp [perform, phase] at taken

/-- The cleaner has the run lock of its victim: nobody is on the stack any more. -/
theorem acquire (h : Sound s) {task victim : Task} (job : s.job task = .acquire victim)
    (free : s.runLock victim = false) (careful : ∀ c < s.cpus, (s.phase c).exposed ≠ some victim) :
    Sound ((s.setLock victim true).setJob task (.release victim)) := by
  have cleared : ∀ c, (s.phase c).stack ≠ some victim := by
    intro c on
    rcases stack_cases on with held | exposed
    · simp [h.locked c victim held] at free
    · refine careful c ?_ exposed
      by_contra outside
      rw [h.absent c (Nat.le_of_not_lt outside)] at exposed
      cases exposed
  obtain ⟨single, locked, unique, owned, jobLocked, jobUnique, jobApart, absent, doomed, claimed,
    dead, bare⟩ := h
  have gone := dead victim (.inr (.inr ⟨task, job⟩))
  have more : ∀ t, Claimed ((s.setLock victim true).setJob task (.release victim)) t →
      t = victim ∨ s.Claimed t := by
    intro t
    simp only [Claimed, setJob, setLock]
    grind
  refine ⟨single, ?_, unique, owned, ?_, ?_, ?_, absent, doomed, ?_, ?_, ?_⟩
  · simp only [setJob, setLock]
    grind
  · simp only [setJob, setLock]
    grind
  · simp only [setJob, setLock]
    grind
  · simp only [setJob, setLock]
    grind
  · intro t taken c
    rcases more t taken with rfl | before
    · exact ⟨cleared c, fun ahead => cleared c (doomed c t gone ahead)⟩
    · exact claimed t before c
  · intro t taken
    have before := dead t
    have extra := more t
    simp only [setJob, setLock] at taken extra ⊢
    grind
  · intro c t exposed
    have away : t ≠ victim := by
      rintro rfl
      exact cleared c (exposed_stack exposed)
    exact (Function.update_of_ne away ..).trans (bare c t exposed)

/-- The cleaner gives the run lock of its victim back. -/
theorem leave (h : Sound s) {task victim : Task} (job : s.job task = .release victim) :
    Sound ((s.setLock victim false).setJob task (.free victim)) := by
  obtain ⟨single, locked, unique, owned, jobLocked, jobUnique, jobApart, absent, doomed, claimed,
    dead, bare⟩ := h
  have same : ∀ t, Claimed ((s.setLock victim false).setJob task (.free victim)) t →
      s.Claimed t := by
    intro t
    simp only [Claimed, setJob, setLock]
    grind
  refine ⟨single, ?_, unique, owned, ?_, ?_, ?_, absent, doomed, ?_, ?_, ?_⟩
  · simp only [setJob, setLock]
    grind
  · simp only [setJob, setLock]
    grind
  · simp only [setJob, setLock]
    grind
  · simp only [setJob, setLock]
    grind
  · exact fun t taken => claimed t (same t taken)
  · intro t taken
    have before := dead t
    have old := same t
    simp only [setJob, setLock] at taken old ⊢
    grind
  · intro c t exposed
    have before := bare c t exposed
    simp only [setJob, setLock]
    grind

theorem free (h : Sound s) {task victim : Task} (job : s.job task = .free victim) :
    Sound ({ s with freed := Function.update s.freed victim true }.setJob task .none) := by
  obtain ⟨single, locked, unique, owned, jobLocked, jobUnique, jobApart, absent, doomed, claimed,
    dead, bare⟩ := h
  have same :
      ∀ t, Claimed ({ s with freed := Function.update s.freed victim true }.setJob task .none) t →
      s.Claimed t := by
    intro t
    simp only [Claimed, setJob]
    grind
  refine ⟨single, locked, unique, owned, ?_, ?_, ?_, absent, doomed, ?_, ?_, bare⟩
  · simp only [setJob]
    grind
  · simp only [setJob]
    grind
  · simp only [setJob]
    grind
  · exact fun t taken => claimed t (same t taken)
  · intro t taken
    have before := dead t
    have old := same t
    simp only [setJob] at taken old ⊢
    grind

theorem work (h : Sound s) {t : Stacks} (careful : s.Careful (.work cpu))
    (taken : s.perform (.work cpu) = some t) :
    Sound t := by
  cases phase : s.phase cpu with
  | running task =>
      simp only [perform, phase, Stacks.work] at taken
      cases job : s.job task with
      | none => simp [job] at taken
      | acquire victim =>
          simp only [job] at taken
          split at taken
          · cases taken
          · rename_i free
            obtain rfl := Option.some.inj taken
            exact h.acquire job (Bool.eq_false_iff.mpr free)
              (careful victim (by simp [claims, phase, job]))
      | release victim =>
          simp only [job, Option.some.injEq] at taken
          subst taken
          exact h.leave job
      | free victim =>
          simp only [job, Option.some.injEq] at taken
          subst taken
          exact h.free job
  | _ => simp [perform, phase] at taken

theorem step (h : Sound s) {event : Event} {t : Stacks} (careful : s.Careful event)
    (taken : s.Step event t) :
    Sound t := by
  unfold Step after? at taken
  split at taken
  · rename_i inRange
    cases event with
    | dispatch cpu toTask => exact h.dispatch inRange taken
    | idle cpu => exact h.idle inRange taken
    | unlockTask cpu => exact h.unlockTask inRange taken
    | lockTask cpu => exact h.lockTask inRange careful taken
    | load cpu => exact h.load inRange taken
    | unblocked cpu => exact h.unblocked inRange taken
    | park cpu => exact h.park inRange taken
    | release cpu => exact h.release inRange taken
    | destroy cpu => exact h.destroy careful taken
    | clean cpu victim => exact h.clean taken
    | work cpu => exact h.work careful taken
  · cases taken

theorem exclusive (h : Sound s) : s.Exclusive :=
  ⟨h.single, fun t gone c => (h.claimed t (.inl gone) c).1⟩

/-- The run locks say who is on which stack, but for the end of a switch. -/
theorem locked_iff (h : Sound s) : s.Locked ↔ ∀ c, (s.phase c).exposed = none := by
  constructor
  · intro locked c
    cases exposed : (s.phase c).exposed with
    | none => rfl
    | some t =>
        have held := locked c t (exposed_stack exposed)
        exact absurd ((h.bare c t exposed).symm.trans held) Bool.false_ne_true
  · intro covered c t on
    rcases stack_cases on with held | exposed
    · exact h.locked c t held
    · cases (covered c).symm.trans exposed

end Sound

theorem started_sound (cpus : Nat) : Sound (started cpus) := by
  refine ⟨?_, ?_, ?_, ?_, ?_, ?_, ?_, ?_, ?_, ?_, ?_, ?_⟩
  all_goals simp only [started, Claimed]
  all_goals grind [Phase.stack, Phase.holds, Phase.heading, Phase.exposed]

/-- In every run that takes no run lock of a task while another processor is between
    giving it up and leaving the stack, stacks are used by one processor at a time. Their run
    locks are held exactly in the states in which no processor is there. -/
theorem stacks_exclusive {cpus : Nat} {events : List Event} {s : Stacks}
    (run : Run (fun s event t => s.Careful event ∧ s.Step event t) (started cpus) events s) :
    s.Exclusive ∧ (s.Locked ↔ ∀ c, (s.phase c).exposed = none) := by
  have sound := run.invariant (P := Sound) (started_sound cpus) fun _ _ _ h ⟨careful, taken⟩ =>
    h.step careful taken
  exact ⟨sound.exclusive, sound.locked_iff⟩

/-- One switch and one destroyed task, each step of them in turn. -/
def orderly : List Event :=
  [.destroy 0, .dispatch 0 2, .unlockTask 0, .lockTask 0, .load 0, .clean 1 0, .work 1,
    .work 1, .work 1]

theorem stacks_exclusive_orderly :
    ∃ s, Run (fun s event t => s.Careful event ∧ s.Step event t) (started 2) orderly s ∧
      s.freed 0 = true ∧ s.Exclusive ∧ (s.Locked ↔ ∀ c, (s.phase c).exposed = none) := by
  have computed :
      ∃ s, orderly.foldlM (fun s event => if s.Careful event then s.after? event else none)
        (started 2) = some s ∧ s.freed 0 = true :=
    ⟨_, rfl, by decide +kernel⟩
  obtain ⟨s, replayed, freed⟩ := computed
  have run : Run (fun s event t => s.Careful event ∧ s.Step event t) (started 2) orderly s :=
    Run.of_foldlM_guarded replayed
  exact ⟨s, run, freed, stacks_exclusive run⟩

/-- The second processor resumes a task that the first one is still leaving. -/
def resumed : List Event :=
  [.dispatch 0 2, .unlockTask 0, .dispatch 1 0, .unlockTask 1, .lockTask 1, .load 1]

/-- The cleaner frees the stack of a task that the first processor is still leaving. -/
def cleaned : List Event :=
  [.destroy 0, .dispatch 0 2, .unlockTask 0, .clean 1 0, .work 1, .work 1, .work 1]

/-- Two processors on one stack, and a processor on a stack that is freed. -/
theorem stacks_shared :
    (∃ s, Run Step (started 2) resumed s ∧ (s.phase 0).stack = some 0 ∧
      (s.phase 1).stack = some 0) ∧
      (∃ s, Run Step (started 2) cleaned s ∧ (s.phase 0).stack = some 0 ∧ s.freed 0 = true) := by
  have first : ∃ s, resumed.foldlM after? (started 2) = some s ∧ (s.phase 0).stack = some 0 ∧
      (s.phase 1).stack = some 0 := ⟨_, rfl, by decide +kernel⟩
  have second : ∃ s, cleaned.foldlM after? (started 2) = some s ∧ (s.phase 0).stack = some 0 ∧
      s.freed 0 = true :=
    ⟨_, rfl, by decide +kernel⟩
  obtain ⟨s, replayed, left, right⟩ := first
  obtain ⟨u, replayed', on, freed⟩ := second
  exact ⟨⟨s, Run.of_foldlM replayed, left, right⟩, ⟨u, Run.of_foldlM replayed', on, freed⟩⟩

end Stacks

end Mykonos.Tasks
