import Mykonos.Tasks.Discipline

/-! # Spinlocks and switches

Every spinlock is released before the task that has it yields, with one exception:
`signalComplete` calls `scheduler::unlock` with the lock of the completion, and a yield
that was postponed happens there.
-/

namespace Mykonos.Tasks

open Lib

namespace Threads

/-- The events in which a processor may switch. -/
def Event.Yields (s : Threads) : Event → Prop
  | .call _ _ | .load _ => False
  | .interrupt _ | .tick _ => True
  | .step cpu => ∃ task rest, s.activity cpu = .executing task ∧
      (s.code task = .yield :: rest ∨ s.code task = .unlock :: rest)

/-- What a step can do to the spinlocks, the code and the processors. -/
inductive Moves (s : Threads) (event : Event) (t : Threads) : Prop where
  | goes (task : Task) (here : s.activity event.cpu = .executing task)
      (activity : t.activity = s.activity) (owner : t.owner = s.owner)
      (callerCanReturn : t.callerCanReturn = s.callerCanReturn)
      (others : ∀ other, other ≠ task → t.code other = s.code other)
      (free : blocked (t.code task) = false)
  | acquires (cpu : Nat) (task : Task) (lock : Spinlock) (rest : List Op)
      (stepped : event = .step cpu) (here : s.activity cpu = .executing task)
      (code : s.code task = .acquire lock :: rest)
      (result : t = (s.setIrqs task false).setCode task (.spin lock (s.irqs task) :: rest))
  | takes (task : Task) (lock : Spinlock) (oldIrqState : Bool) (rest : List Op)
      (here : s.activity event.cpu = .executing task)
      (code : s.code task = .spin lock oldIrqState :: rest) (free : s.owner lock = none)
      (result : t = { s with
        owner := Function.update s.owner lock (some task)
        enableIrqs := Function.update s.enableIrqs lock oldIrqState }.setCode task rest)
  | releases (task : Task) (lock : Spinlock) (rest : List Op)
      (here : s.activity event.cpu = .executing task) (code : s.code task = .release lock :: rest)
      (result : t = ({ s with owner := Function.update s.owner lock none }.setIrqs task
        (s.enableIrqs lock || s.irqs task)).setCode task rest)
  | sends (cpu : Nat) (task : Task) (target : Nat) (callback : Callback) (rest : List Op)
      (stepped : event = .step cpu) (here : s.activity cpu = .executing task)
      (code : s.code task = .send target callback :: rest) (result : t = { s with
        callback := Function.update s.callback target (some callback)
        callerCanReturn := Function.update s.callerCanReturn target false
        ipis :=
          Function.update s.ipis target (s.ipis target + 1) }.setCode task (.wait target :: rest))
  | switches (next : Activity) (activity : t.activity = Function.update s.activity event.cpu next)
      (cause : event.Yields s) (before : ∀ toTask, s.activity event.cpu ≠ .loading toTask)
      (after : next = s.activity event.cpu ∨ next = .halted ∨
        ∃ toTask, (s.scheduler event.cpu).tasks.head = some toTask ∧ next = .loading toTask)
      (owner : t.owner = s.owner)
      (answers : ∀ c, s.callerCanReturn c = true → t.callerCanReturn c = true)
      (others : ∀ other, s.activity event.cpu ≠ .executing other → t.code other = s.code other)
      (free : ∀ task, s.activity event.cpu = .executing task →
        blocked (s.code task) = false ∧ blocked (t.code task) = false)
  | loads (task : Task) (here : s.activity event.cpu = .loading task)
      (nobody : ∀ c, s.activity c ≠ .executing task)
      (result : t = s.setActivity event.cpu (.executing task))

section Moves

variable {strict : Bool} {s t : Threads} {held : Task → List Spinlock} {cpu : Nat} {task : Task}
  {event : Event}

/-- A yield changes nothing but the schedulers and what its own processor does. -/
theorem yield_cases (s : Threads) (cpu : Nat) :
    ∃ kernel next, s.yield cpu =
      { s with kernel := kernel, activity := Function.update s.activity cpu next } ∧
      (next = s.activity cpu ∨ next = .halted ∨
        ∃ toTask, (s.scheduler cpu).tasks.head = some toTask ∧ next = .loading toTask) := by
  unfold yield setActivity
  split
  · exact ⟨_, s.activity cpu, by rw [Function.update_eq_self], .inl rfl⟩
  · cases popped : ((s.scheduler cpu).tasks.pop s.kernel.blocks.next).1 with
    | some toTask => exact ⟨_, _, rfl, .inr (.inr ⟨toTask, Queue.pop_fst ▸ popped, rfl⟩)⟩
    | none =>
        simp only
        split
        · exact ⟨_, _, rfl, .inr (.inl rfl)⟩
        · exact ⟨_, s.activity cpu, by rw [Function.update_eq_self], .inl rfl⟩

/-- The processor yields in the state that its task or a handler has made of `s`. -/
theorem Moves.of_yield {u : Threads} (activity : u.activity = s.activity)
    (owner : u.owner = s.owner)
    (tasks : (u.scheduler event.cpu).tasks = (s.scheduler event.cpu).tasks) (cause : event.Yields s)
    (before : ∀ toTask, s.activity event.cpu ≠ .loading toTask)
    (answers : ∀ c, s.callerCanReturn c = true → u.callerCanReturn c = true)
    (others : ∀ other, s.activity event.cpu ≠ .executing other → u.code other = s.code other)
    (free : ∀ task, s.activity event.cpu = .executing task →
      blocked (s.code task) = false ∧ blocked (u.code task) = false) :
        Moves s event (u.yield event.cpu) := by
  obtain ⟨kernel, next, yielded, after⟩ := yield_cases u event.cpu
  rw [yielded]
  rw [activity, tasks] at after
  exact .switches next (by rw [activity]) cause before after owner answers others free

/-- A handler runs where the task that it interrupts need not wait. -/
theorem Sound.not_waiting (h : Sound strict s held) (on : s.irqsOn cpu = true) :
    (∀ toTask, s.activity cpu ≠ .loading toTask) ∧
      ∀ task, s.activity cpu = .executing task → blocked (s.code task) = false := by
  refine ⟨fun toTask loading => ?_, fun task here => (doing_of (h.interruptible on here).2).2⟩
  simp [irqsOn, loading] at on

theorem Sound.moves_handler {u : Threads} (h : Sound strict s held) (on : s.irqsOn event.cpu = true)
    (cause : event.Yields s) (activity : u.activity = s.activity) (owner : u.owner = s.owner)
    (code : u.code = s.code)
    (answers : ∀ c, s.callerCanReturn c = true → u.callerCanReturn c = true) : Moves s event u := by
  obtain ⟨before, free⟩ := h.not_waiting on
  refine .switches (s.activity event.cpu) ?_ cause before (.inl rfl) owner answers
    (fun _ _ => by rw [code])
    fun task here => ?_
  · rw [Function.update_eq_self, activity]
  · exact ⟨free task here, code ▸ free task here⟩

theorem Sound.moves_preempted {u : Threads} (h : Sound strict s held)
    (on : s.irqsOn event.cpu = true) (cause : event.Yields s) (activity : u.activity = s.activity)
    (owner : u.owner = s.owner) (code : u.code = s.code)
    (tasks : (u.scheduler event.cpu).tasks = (s.scheduler event.cpu).tasks)
    (answers : ∀ c, s.callerCanReturn c = true → u.callerCanReturn c = true) :
    Moves s event (u.yield event.cpu) := by
  obtain ⟨before, free⟩ := h.not_waiting on
  refine .of_yield activity owner tasks cause before answers (fun _ _ => by rw [code])
    fun task here => ?_
  exact ⟨free task here, code ▸ free task here⟩

theorem Sound.moves_execute {op : Op} {rest : List Op} (h : Sound strict s held)
    (here : s.activity cpu = .executing task) (code : s.code task = op :: rest)
    (quiet : strict = true → s.preemptsItself cpu = false)
    (taken : s.execute cpu task rest op = some t) :
    Moves s (.step cpu) t := by
  by_cases plain : op.plain = true
  · obtain ⟨u, code', rfl, alike, callerCanReturn, ok⟩ := h.plain here code quiet plain taken
    refine .goes task here alike.activity alike.owner callerCanReturn (fun other apart => ?_) ?_
    · simp [setCode, apart, alike.code]
    · simpa [setCode] using (doing_of ok).2
  · have doing := h.executing cpu task here
    rw [code] at doing
    have others (other : Task) (apart : other ≠ task) :
        (s.setCode task rest).code other = s.code other := by
      simp [setCode, apart]
    have before (toTask : Task) : s.activity cpu ≠ .loading toTask := by simp [here]
    cases op with
    | acquire lock =>
        obtain rfl := Option.some.inj taken
        exact .acquires cpu task lock rest rfl here code rfl
    | spin lock oldIrqState =>
        simp only [execute] at taken
        cases free : s.owner lock with
        | some other => simp [free] at taken
        | none =>
            simp only [free, Option.some.injEq] at taken
            exact .takes task lock oldIrqState rest here code free taken.symm
    | release lock =>
        obtain rfl := Option.some.inj taken
        exact .releases task lock rest here code rfl
    | disableIrqs =>
        have rest_ok : Disciplined strict (s.scheduler cpu).yieldLocked (held task) rest := doing
        obtain rfl := Option.some.inj taken
        exact .goes task here rfl rfl rfl others (by simpa [setCode] using (doing_of rest_ok).2)
    | lock =>
        obtain ⟨open_, has, rest_ok⟩ := doing
        obtain rfl := Option.some.inj taken
        exact .goes task here rfl rfl rfl others (by simpa [setCode] using (doing_of rest_ok).2)
    | wait target =>
        obtain ⟨mailbox, rest_ok⟩ := doing
        simp only [execute] at taken
        split at taken
        · obtain rfl := Option.some.inj taken
          exact .goes task here rfl rfl rfl others (by simpa [setCode] using (doing_of rest_ok).2)
        · cases taken
    | send target callback =>
        obtain rfl := Option.some.inj taken
        exact .sends cpu task target callback rest rfl here code rfl
    | yield =>
        obtain ⟨free, rest_ok⟩ := doing
        simp only [execute] at taken
        split at taken
        · obtain rfl := Option.some.inj taken
          refine Moves.of_yield rfl rfl rfl ⟨task, rest, here, .inl code⟩ before (fun _ => id)
            (fun other away => others other ?_) fun other at_cpu => ?_
          · rintro rfl
            exact away here
          · obtain rfl := executing_unique here at_cpu
            exact ⟨by simp [code, blocked], by simpa [setCode] using (doing_of rest_ok).2⟩
        · cases taken
    | unlock =>
        obtain ⟨locked, rest_ok⟩ := doing
        simp only [execute] at taken
        split at taken
        · cases taken
        · obtain rfl := Option.some.inj taken
          simp only [Threads.unlock]
          split
          · refine Moves.of_yield rfl rfl ?_ ⟨task, rest, here, .inr code⟩ before (fun _ => id)
              (fun other away => others other ?_) fun other at_cpu => ?_
            · simp [setCode, setScheduler, scheduler, Kernel.on, Event.cpu]
            · rintro rfl
              exact away here
            · obtain rfl := executing_unique here at_cpu
              exact ⟨by simp [code, blocked],
                by simpa [setCode, setScheduler] using (doing_of rest_ok).2⟩
          · exact .goes task here rfl rfl rfl others
              (by simpa [setCode, setScheduler] using (doing_of rest_ok).2)
    | _ => exact absurd rfl plain

theorem Sound.moves (h : Sound strict s held) (taken : s.Step event t)
    (quiet : strict = true → s.Quiet event) : Moves s event t := by
  obtain ⟨_, taken⟩ := taken.taken
  cases taken with
  | @call _ primitive task here _ _ =>
      have begun : Disciplined strict false [] primitive.code := code_ok primitive
      refine .goes task here rfl rfl rfl (fun other apart => by simp [setCode, apart]) ?_
      simpa [setCode] using (doing_of begun).2
  | step here code executed => exact h.moves_execute here code quiet executed
  | @interrupt cpu _ on _ =>
      have raised (c : Nat) (can : s.callerCanReturn c = true) :
          Function.update s.callerCanReturn cpu true c = true := by
        grind
      unfold receiveCall
      split
      · exact h.moves_handler on trivial rfl rfl rfl fun _ => id
      · exact h.moves_handler on trivial rfl rfl rfl raised
      · exact h.moves_preempted on trivial rfl rfl rfl rfl raised
  | tick on _ =>
      unfold tick
      split
      · exact h.moves_handler on trivial rfl rfl rfl fun _ => id
      · split
        · simp only
          split
          · exact h.moves_preempted on trivial rfl rfl rfl rfl fun _ => id
          · exact h.moves_handler on trivial rfl rfl rfl fun _ => id
        · exact h.moves_handler on trivial rfl rfl rfl fun _ => id
  | load here free => exact .loads _ here (h.nobody_executes free) rfl

/-- Only the processor of the event can stop executing a task, and it does so with the
    spinlocks as they were. -/
theorem Moves.leaves (moves : Moves s event t) (here : s.activity event.cpu = .executing task)
    (gone : t.activity event.cpu ≠ .executing task) : t.owner = s.owner := by
  cases moves with
  | goes _ _ activity => exact absurd (activity ▸ here) gone
  | acquires _ _ _ _ _ _ _ result | takes _ _ _ _ _ _ _ result | releases _ _ _ _ _ result
  | sends _ _ _ _ _ _ _ _ result => exact absurd (result ▸ here) gone
  | switches _ _ _ _ _ owner => exact owner
  | loads _ loading => cases loading.symm.trans here

theorem Moves.activity_of_ne (moves : Moves s event t) {c : Nat} (apart : c ≠ event.cpu) :
    t.activity c = s.activity c := by
  cases moves with
  | goes _ _ activity => rw [activity]
  | acquires _ _ _ _ _ _ _ result | takes _ _ _ _ _ _ _ result | releases _ _ _ _ _ result
  | sends _ _ _ _ _ _ _ _ result =>
      rw [result]
      rfl
  | switches next activity => rw [activity, Function.update_of_ne apart]
  | loads _ _ _ result =>
      rw [result]
      exact Function.update_of_ne apart _ _

end Moves

/-- A step on a run that is quiet. -/
def QuietStep (s : Threads) (event : Event) (t : Threads) : Prop :=
  s.Quiet event ∧ s.Step event t

theorem QuietRun.sound {cpus : Nat} {priority : Task → Nat} {kind : Nat → Kind}
    {events : List Event} {s : Threads}
    (run : Run QuietStep (started cpus priority kind) events s) : ∃ held, Sound true s held :=
  run.invariant (P := fun s => ∃ held, Sound true s held) ⟨_, started_sound true cpus priority kind⟩
    fun _ _ _ ⟨_, h⟩ ⟨quiet, taken⟩ => h.step taken fun _ => quiet

/-- In a quiet run a processor switches only away from tasks without spinlocks, and the
    spinlock on which a task spins is one that another processor is about to release. -/
theorem no_switch_with_spinlock {cpus : Nat} {priority : Task → Nat} {kind : Nat → Kind}
    {events : List Event} {s : Threads}
    (run : Run QuietStep (started cpus priority kind) events s) :
    (∀ event t cpu task, QuietStep s event t → s.activity cpu = .executing task →
      t.activity cpu ≠ .executing task → ∀ lock, s.owner lock ≠ some task ∧
      t.owner lock ≠ some task) ∧
      ∀ cpu task lock oldIrqState rest other, s.activity cpu = .executing task →
        s.code task = .spin lock oldIrqState :: rest → s.owner lock = some other →
        ∃ c, c ≠ cpu ∧ s.activity c = .executing other := by
  obtain ⟨held, h⟩ := QuietRun.sound run
  refine ⟨fun event t cpu task step here gone lock => ?_, ?_⟩
  · obtain ⟨held', h'⟩ := QuietRun.sound (run.next step)
    have moves := h.moves step.2 fun _ => step.1
    have own : cpu = event.cpu := by
      by_contra apart
      exact gone (moves.activity_of_ne apart ▸ here)
    subst own
    have nowhere (c : Nat) : t.activity c ≠ .executing task := by
      by_cases same : c = event.cpu
      · exact same ▸ gone
      · rw [moves.activity_of_ne same]
        exact fun at_c => same (h.alone c event.cpu task at_c here)
    have bare := h'.bare rfl task nowhere
    have free : t.owner lock ≠ some task := by simp [h'.owned, bare]
    exact ⟨moves.leaves here gone ▸ free, free⟩
  · intro cpu task lock oldIrqState rest other here code taken
    have member := (h.owned lock other).mp taken
    have doing := h.executing cpu task here
    rw [code] at doing
    by_contra nowhere
    have parked : ∀ c, s.activity c ≠ .executing other := by
      intro c at_c
      by_cases same : c = cpu
      · subst same
        obtain rfl := executing_unique here at_c
        exact Nat.lt_irrefl _ (doing.1 lock member)
      · exact nowhere ⟨c, same, at_c⟩
    simp [h.bare rfl other parked] at member

/-- One task waits for the completion, another one of the same priority signals it and
    then waits for the next one. -/
def politely : List Event :=
  .call 0 (.create 0) :: List.replicate 10 (.step 0) ++ .call 0 (.await 0) ::
    List.replicate 10 (.step 0) ++
    .load 0 :: .call 0 (.signalComplete 0) :: List.replicate 25 (.step 0) ++
    .call 0 (.await 1) :: List.replicate 9 (.step 0)

theorem no_switch_with_spinlock_politely :
    ∃ s t, Run QuietStep (started 1 (fun _ => 0) fun _ => .completion) politely s ∧
      QuietStep s (.step 0) t ∧
      s.activity 0 = .executing 1 ∧ t.activity 0 = .loading 0 ∧ s.completed 0 = true ∧
      ∀ lock, s.owner lock ≠ some 1 ∧ t.owner lock ≠ some 1 := by
  have computed :
      (politely.foldlM (fun (s : Threads) event => if s.Quiet event then s.after? event else none)
        (started 1 (fun _ => 0) fun _ => .completion)).any (fun s =>
          s.Quiet (.step 0) && s.activity 0 == .executing 1 && s.completed 0 &&
            (s.after? (.step 0)).any fun t => t.activity 0 == .loading 0) = true := by
    decide +kernel
  obtain ⟨s, replayed, checked⟩ := (Option.any_eq_true _ _).mp computed
  simp only [Bool.and_eq_true, beq_iff_eq, decide_eq_true_eq] at checked
  obtain ⟨⟨⟨quiet, here⟩, completed⟩, later⟩ := checked
  obtain ⟨t, taken, gone⟩ := (Option.any_eq_true _ _).mp later
  have gone := beq_iff_eq.mp gone
  have run : Run QuietStep _ _ s := Run.of_foldlM_guarded replayed
  have switch :=
    (no_switch_with_spinlock run).1 (.step 0) t 0 1 ⟨quiet, taken⟩ here (by simp [gone])
  exact ⟨s, t, run, ⟨quiet, taken⟩, here, gone, completed, switch⟩

/-- One task waits for the completion, another one of lower priority is about to leave
    `signalComplete`. -/
def rudely : List Event :=
  .call 0 (.create 1) :: List.replicate 11 (.step 0) ++ .load 0 :: .call 0 (.await 0) ::
    List.replicate 10 (.step 0) ++
    .load 0 :: .call 0 (.signalComplete 0) :: List.replicate 24 (.step 0)

/-- The processor switches away from the task that has the lock of the completion, and the
    task that it switches to spins on this lock with interrupts off. -/
theorem switched_with_spinlock :
    ∃ s t u, Run Step (started 1 (fun _ => 0) fun _ => .completion) rudely s ∧ s.Step (.step 0) t ∧
      s.activity 0 = .executing 0 ∧ t.activity 0 = .loading 1 ∧ t.owner (.object 0) = some 0 ∧
      Run Step t [.load 0, .call 0 (.await 0), .step 0] u ∧ u.activity 0 = .executing 1 ∧
      u.code 1 = [.spin (.object 0) true, .testCompleted 0] ∧ u.irqs 1 = false ∧
      u.owner (.object 0) = some 0 := by
  have computed : (rudely.foldlM after? (started 1 (fun _ => 0) fun _ => .completion)).any (fun s =>
      s.activity 0 == .executing 0 && (s.after? (.step 0)).any fun t =>
        t.activity 0 == .loading 1 && t.owner (.object 0) == some 0 &&
          ([Event.load 0, .call 0 (.await 0), .step 0].foldlM after? t).any fun u =>
            u.activity 0 == .executing 1 &&
              u.code 1 == [.spin (.object 0) true, .testCompleted 0] && !u.irqs 1 &&
              u.owner (.object 0) == some 0) = true := by
    decide +kernel
  obtain ⟨s, replayed, checked⟩ := (Option.any_eq_true _ _).mp computed
  simp only [Bool.and_eq_true, beq_iff_eq] at checked
  obtain ⟨here, later⟩ := checked
  obtain ⟨t, taken, checked⟩ := (Option.any_eq_true _ _).mp later
  simp only [Bool.and_eq_true, beq_iff_eq] at checked
  obtain ⟨⟨gone, owner⟩, later⟩ := checked
  obtain ⟨u, resumed, checked⟩ := (Option.any_eq_true _ _).mp later
  simp only [Bool.and_eq_true, beq_iff_eq, Bool.not_eq_true'] at checked
  obtain ⟨⟨⟨executing, spins⟩, off⟩, still⟩ := checked
  exact ⟨s, t, u, Run.of_foldlM replayed, taken, here, gone, owner, Run.of_foldlM resumed,
    executing, spins, off, still⟩

end Threads

end Mykonos.Tasks
