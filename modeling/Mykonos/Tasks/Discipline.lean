import Mykonos.Tasks.Threads

/-! # The spinlocks a task has

The code releases the spinlocks that it takes, the last one first, and a task that has
one has its interrupts off. So what a task has can be read off the code in front of it,
at every step of every processor.
-/

namespace Mykonos.Tasks

open Lib

/-- Spinlocks are taken in descending order. -/
def Spinlock.rank : Spinlock → Nat
  | .object _ => 3
  | .addTask _ | .mailbox _ => 2
  | .waiters _ | .tasks _ => 1

theorem Spinlock.rank_le (lock : Spinlock) : lock.rank ≤ 3 := by
  cases lock <;> simp [rank]

/-- The code releases the spinlocks that it has, the last one first. `locked` says that
    it is between `scheduler::lock` and `scheduler::unlock`. In a strict run it does not
    ask for a yield there. -/
def Disciplined (strict : Bool) : Bool → List Spinlock → List Op → Prop
  | locked, held, [] => locked = false ∧ held = []
  | locked, held, .acquire lock :: rest =>
      (∀ other ∈ held, lock.rank < other.rank) ∧ Disciplined strict locked (lock :: held) rest
  | _, _, .spin _ _ :: _ | _, _, .wait _ :: _ => False
  | locked, held, .release lock :: rest =>
      ∃ outer, held = lock :: outer ∧ (locked = true → outer ≠ []) ∧
        Disciplined strict locked outer rest
  | locked, held, .block object :: rest => (∀ o ∈ object, held = [.object o]) ∧
      Disciplined strict locked held rest
  | locked, held, .yield :: rest =>
      (held = [] ∨ strict = false ∧ locked = true) ∧ Disciplined strict locked held rest
  | locked, held, .lock :: rest => locked = false ∧ held ≠ [] ∧ Disciplined strict true held rest
  | locked, held, .unlock :: rest => locked = true ∧ Disciplined strict false held rest
  | locked, held, .addTask _ :: rest =>
      (∀ other ∈ held, 2 < other.rank) ∧ (locked = true ↔ held ≠ []) ∧
        Disciplined strict locked held rest
  | locked, held, .insert cpu _ :: rest =>
      ∃ outer, held = .addTask cpu :: outer ∧ (∀ other ∈ outer, 2 < other.rank) ∧
        (locked = true ↔ outer ≠ []) ∧
        Disciplined strict locked outer rest
  | locked, held, .runOn _ _ :: rest => (∀ other ∈ held, 2 < other.rank) ∧
      (locked = true ↔ held ≠ []) ∧
      Disciplined strict locked held rest
  | locked, held, .send cpu _ :: rest => (∃ outer, held = .mailbox cpu :: outer) ∧
      Disciplined strict locked held rest
  | locked, held, .testMutex o :: rest | locked, held, .testCompleted o :: rest
  | locked, held, .testTail o :: rest
  | locked, held, .testHead o :: rest | locked, held, .takeHead o :: rest =>
      held = [.object o] ∧ locked = false ∧ Disciplined strict false [] rest
  | locked, held, .popBlocked o :: rest | locked, held, .popFirst o :: rest
  | locked, held, .popWaiting o :: rest =>
      held = [.waiters o, .object o] ∧ locked = false ∧ Disciplined strict false [] rest
  | locked, held, .popNext o :: rest =>
      held = [.waiters o, .object o] ∧ locked = true ∧ Disciplined strict false [] rest
  | locked, held, .wakeAll o _ :: rest => held = [.object o] ∧ locked = true ∧
      Disciplined strict false [] rest
  | locked, held, .create _ :: rest | locked, held, .shootdown _ :: rest =>
      held = [] ∧ locked = false ∧ Disciplined strict false [] rest
  | locked, held, .kpanic :: _ => held = [] ∧ locked = false
  | locked, held, .disableIrqs :: rest | locked, held, .pushWaiter _ _ :: rest
  | locked, held, .pushFront _ _ :: rest
  | locked, held, .push _ _ :: rest | locked, held, .withdraw _ :: rest
  | locked, held, .clearMutex _ :: rest
  | locked, held, .setCompleted _ :: rest => Disciplined strict locked held rest

/-- A step that has nothing to do with spinlocks, waiting and switching. -/
def Op.plain : Op → Bool
  | .acquire _ | .spin _ _ | .release _ | .disableIrqs | .yield | .lock | .unlock | .send _ _
  | .wait _ => false
  | .block _ | .pushWaiter _ _ | .addTask _ | .insert _ _ | .pushFront _ _ | .push _ _
  | .runOn _ _ | .withdraw _ | .testMutex _ | .popBlocked _ | .clearMutex _ | .testCompleted _
  | .setCompleted _ | .popFirst _ | .popNext _ | .wakeAll _ _ | .testTail _ | .popWaiting _
  | .testHead _ | .takeHead _ | .create _ | .shootdown _ | .kpanic => true

/-- The next step may have to wait for another processor. -/
def blocked : List Op → Bool
  | .spin _ _ :: _ | .wait _ :: _ => true
  | _ => false

/-- What a task may be doing while a processor executes it. -/
def Doing (strict locked : Bool) (held : List Spinlock) : List Op → Prop
  | .spin lock oldIrqState :: rest =>
      (∀ other ∈ held, lock.rank < other.rank) ∧ (held ≠ [] → oldIrqState = false) ∧
        Disciplined strict locked (lock :: held) rest
  | .wait cpu :: rest => (∃ outer, held = .mailbox cpu :: outer) ∧
      Disciplined strict locked held rest
  | code => Disciplined strict locked held code

namespace Threads

/-- The processor is in `addTask`, between `scheduler::lock` and `scheduler::unlock`, and
    is about to put the task at the front of its own run queue. -/
def preemptsItself (s : Threads) (cpu : Nat) : Bool :=
  match s.activity cpu with
  | .executing task =>
      match s.code task with
      | .insert target other :: _ =>
          (s.scheduler cpu).yieldLocked && target == cpu &&
            (s.scheduler target).preempts s.kernel.blocks other
      | _ => false
  | _ => false

/-- `signalComplete` does not wake a task that preempts the one that calls it. -/
def Quiet (s : Threads) : Event → Prop
  | .step cpu => s.preemptsItself cpu = false
  | .call _ _ | .interrupt _ | .tick _ | .load _ => True

instance (s : Threads) : (event : Event) → Decidable (s.Quiet event)
  | .step cpu => inferInstanceAs (Decidable (s.preemptsItself cpu = false))
  | .call _ _ | .interrupt _ | .tick _ | .load _ => inferInstanceAs (Decidable True)

/-- The spinlocks that each task has, last one first. -/
structure Sound (strict : Bool) (s : Threads) (held : Task → List Spinlock) : Prop where
  owned : ∀ lock task, s.owner lock = some task ↔ lock ∈ held task
  ordered : ∀ task, (held task).Pairwise fun lock outer => lock.rank < outer.rank
  alone : ∀ c d task, s.activity c = .executing task → s.activity d = .executing task → c = d
  idle : ∀ cpu, s.kernel.cpus ≤ cpu → s.activity cpu = .halted
  executing : ∀ cpu task, s.activity cpu = .executing task →
    Doing strict (s.scheduler cpu).yieldLocked (held task) (s.code task)
  parked : ∀ task, (∀ cpu, s.activity cpu ≠ .executing task) →
    Disciplined strict false (held task) (s.code task)
  unlocked : ∀ cpu, (s.scheduler cpu).yieldLocked = true →
    ∃ task, s.activity cpu = .executing task ∧ held task ≠ []
  off : ∀ task, held task ≠ [] ∨ blocked (s.code task) = true → s.irqs task = false
  saved : ∀ task, ∀ lock ∈ (held task).dropLast, s.enableIrqs lock = false
  bare : strict = true → ∀ task, (∀ cpu, s.activity cpu ≠ .executing task) → held task = []
  prompt : strict = true → ∀ cpu, (s.scheduler cpu).yieldLocked = true →
    (s.scheduler cpu).yieldPostponed = false

/-- Only data that has nothing to do with spinlocks and switches has changed. -/
structure Alike (s t : Threads) : Prop where
  cpus : t.kernel.cpus = s.kernel.cpus
  owner : t.owner = s.owner
  enableIrqs : t.enableIrqs = s.enableIrqs
  irqs : t.irqs = s.irqs
  code : t.code = s.code
  activity : t.activity = s.activity
  flags : ∀ cpu, (t.scheduler cpu).yieldLocked = (s.scheduler cpu).yieldLocked ∧
    (t.scheduler cpu).yieldPostponed = (s.scheduler cpu).yieldPostponed

theorem Alike.objects {s : Threads} {kernel : Kernel} {lock completed callerCanReturn : Nat → Bool}
    {elements ipis : Nat → Nat} {callback : Nat → Option Callback}
    (cpus : kernel.cpus = s.kernel.cpus) (schedulers : kernel.schedulers = s.kernel.schedulers) :
    Alike s { s with kernel, lock, completed, elements, callback, callerCanReturn, ipis } :=
  ⟨cpus, rfl, rfl, rfl, rfl, rfl, fun cpu => by simp [scheduler, schedulers]⟩

namespace Sound

variable {strict : Bool} {s t : Threads} {held : Task → List Spinlock} {cpu : Nat} {task : Task}

/-- The task that a processor executes goes on with other code and other spinlocks, and
    the scheduler of this processor only is locked or unlocked. -/
theorem goes {locks : List Spinlock} (h : Sound strict s held)
    (here : s.activity cpu = .executing task) (cpus : t.kernel.cpus = s.kernel.cpus)
    (activity : t.activity = s.activity)
    (flags : ∀ c, c ≠ cpu → (t.scheduler c).yieldLocked = (s.scheduler c).yieldLocked ∧
      (t.scheduler c).yieldPostponed = (s.scheduler c).yieldPostponed)
    (others : ∀ other, other ≠ task → t.code other = s.code other ∧ t.irqs other = s.irqs other)
    (owned : ∀ lock other, t.owner lock = some other ↔ lock ∈ Function.update held task locks other)
    (ordered : locks.Pairwise fun lock outer => lock.rank < outer.rank)
    (saved : ∀ other, ∀ lock ∈ (Function.update held task locks other).dropLast,
      t.enableIrqs lock = false)
    (doing : Doing strict (t.scheduler cpu).yieldLocked locks (t.code task))
    (off : locks ≠ [] ∨ blocked (t.code task) = true → t.irqs task = false)
    (guarded : (t.scheduler cpu).yieldLocked = true → locks ≠ [])
    (prompt : strict = true → (t.scheduler cpu).yieldLocked = true →
      (t.scheduler cpu).yieldPostponed = false) :
    Sound strict t (Function.update held task locks) := by
  refine ⟨owned, fun other => ?_, activity ▸ h.alone, ?_, ?_, ?_, ?_, ?_, saved, ?_, ?_⟩
  · by_cases same : other = task
    · subst same
      simpa using ordered
    · simpa [same] using h.ordered other
  · rw [cpus, activity]
    exact h.idle
  · intro c other at_c
    rw [activity] at at_c
    by_cases same : other = task
    · subst same
      rw [h.alone c cpu other at_c here, Function.update_self]
      exact doing
    · have elsewhere : c ≠ cpu := by
        rintro rfl
        exact same (executing_unique at_c here)
      rw [Function.update_of_ne same, (flags c elsewhere).1, (others other same).1]
      exact h.executing c other at_c
  · intro other away
    rw [activity] at away
    have apart : other ≠ task := fun same => away cpu (same ▸ here)
    rw [Function.update_of_ne apart, (others other apart).1]
    exact h.parked other away
  · intro c locked
    by_cases at_cpu : c = cpu
    · subst at_cpu
      exact ⟨task, activity ▸ here, by simpa using guarded locked⟩
    · rw [(flags c at_cpu).1] at locked
      obtain ⟨other, at_c, has⟩ := h.unlocked c locked
      have apart : other ≠ task := by
        rintro rfl
        exact at_cpu (h.alone c cpu other at_c here)
      exact ⟨other, activity ▸ at_c, by rwa [Function.update_of_ne apart]⟩
  · intro other busy
    by_cases same : other = task
    · subst same
      rw [Function.update_self] at busy
      exact off busy
    · rw [Function.update_of_ne same, (others other same).1] at busy
      rw [(others other same).2]
      exact h.off other busy
  · intro strictly other away
    rw [activity] at away
    have apart : other ≠ task := fun same => away cpu (same ▸ here)
    rw [Function.update_of_ne apart]
    exact h.bare strictly other away
  · intro strictly c
    by_cases at_cpu : c = cpu
    · subst at_cpu
      exact prompt strictly
    · rw [(flags c at_cpu).1, (flags c at_cpu).2]
      exact h.prompt strictly c

/-- The task goes on with the same spinlocks, and no scheduler is locked or unlocked. -/
theorem proceeds (h : Sound strict s held) (here : s.activity cpu = .executing task)
    (cpus : t.kernel.cpus = s.kernel.cpus) (activity : t.activity = s.activity)
    (flags : ∀ c, (t.scheduler c).yieldLocked = (s.scheduler c).yieldLocked ∧
      (t.scheduler c).yieldPostponed = (s.scheduler c).yieldPostponed)
    (owner : t.owner = s.owner) (enableIrqs : t.enableIrqs = s.enableIrqs)
    (others : ∀ other, other ≠ task → t.code other = s.code other ∧ t.irqs other = s.irqs other)
    (irqs : s.irqs task = false → t.irqs task = false)
    (doing : Doing strict (s.scheduler cpu).yieldLocked (held task) (t.code task))
    (off : blocked (t.code task) = true → t.irqs task = false) : Sound strict t held := by
  rw [← Function.update_eq_self task held]
  refine h.goes here cpus activity (fun c _ => flags c) others ?_ (h.ordered task) ?_ ?_ ?_ ?_ ?_
  · simpa [owner] using h.owned
  · simpa [enableIrqs] using h.saved
  · rwa [(flags cpu).1]
  · rintro (has | waits)
    · exact irqs (h.off task (.inl has))
    · exact off waits
  · intro locked
    rw [(flags cpu).1] at locked
    obtain ⟨other, at_cpu, has⟩ := h.unlocked cpu locked
    rwa [← executing_unique at_cpu here]
  · rw [(flags cpu).1, (flags cpu).2]
    exact fun strictly => h.prompt strictly cpu

/-- What a task does with the next step is disciplined unless it has to wait. -/
theorem doing_cons {locked : Bool} {locks : List Spinlock} {op : Op} {rest : List Op}
    (doing : Doing strict locked locks (op :: rest)) (goes : blocked (op :: rest) = false) :
    Disciplined strict locked locks (op :: rest) := by
  cases op <;> first | exact doing | cases goes

theorem doing_of {locked : Bool} {locks : List Spinlock} {code : List Op}
    (code_ok : Disciplined strict locked locks code) :
    Doing strict locked locks code ∧ blocked code = false := by
  cases code with
  | nil => exact ⟨code_ok, rfl⟩
  | cons op rest => cases op <;> first | exact ⟨code_ok, rfl⟩ | exact code_ok.elim

/-- The task gets the spinlock on which it spins. -/
theorem takes (h : Sound strict s held) (here : s.activity cpu = .executing task) {lock : Spinlock}
    {oldIrqState : Bool} {rest : List Op} (code : s.code task = .spin lock oldIrqState :: rest)
    (free : s.owner lock = none) :
    Sound strict ({ s with
        owner := Function.update s.owner lock (some task)
        enableIrqs := Function.update s.enableIrqs lock oldIrqState }.setCode task rest)
      (Function.update held task (lock :: held task)) := by
  have doing := h.executing cpu task here
  rw [code] at doing
  obtain ⟨ordered, saved, rest_ok⟩ := doing
  have fresh (other : Task) : lock ∉ held other := by
    rw [← h.owned, free]
    simp
  unfold setCode
  refine h.goes here rfl rfl (fun c _ => ⟨rfl, rfl⟩) (fun other apart => by simp [apart])
    ?_ ?_ ?_ ?_ ?_ (by simp) fun strictly => h.prompt strictly cpu
  · intro other holder
    have owned := h.owned other holder
    grind
  · exact .cons ordered (h.ordered task)
  · intro other inner member
    by_cases same : other = task
    · subst same
      rw [Function.update_self] at member
      by_cases none : held other = []
      · simp [none] at member
      · rw [List.dropLast_cons_of_ne_nil none] at member
        have kept := h.saved other inner
        grind
    · rw [Function.update_of_ne same] at member
      have apart : inner ≠ lock := by
        rintro rfl
        exact fresh other (List.mem_of_mem_dropLast member)
      simpa [apart] using h.saved other inner member
  · simpa [scheduler] using (doing_of rest_ok).1
  · exact fun _ => h.off task (.inr (by simp [code, blocked]))

/-- The task releases the spinlock that it took last. -/
theorem releases (h : Sound strict s held) (here : s.activity cpu = .executing task)
    {lock : Spinlock} {rest : List Op} (code : s.code task = .release lock :: rest) :
    Sound strict (({ s with owner := Function.update s.owner lock none }.setIrqs task
        (s.enableIrqs lock || s.irqs task)).setCode task rest)
      (Function.update held task (held task).tail) := by
  have doing := h.executing cpu task here
  rw [code] at doing
  obtain ⟨outer, locks, stays, rest_ok⟩ := doing
  have mine : s.owner lock = some task := (h.owned lock task).mpr (by simp [locks])
  have ordered := h.ordered task
  rw [locks, List.pairwise_cons] at ordered
  have released : lock ∉ outer := fun member => Nat.lt_irrefl _ (ordered.1 lock member)
  unfold setCode setIrqs
  rw [locks, List.tail_cons]
  refine h.goes here rfl rfl (fun c _ => ⟨rfl, rfl⟩) (fun other apart => by simp [apart])
    ?_ ordered.2 ?_ ?_ ?_ stays fun strictly => h.prompt strictly cpu
  · intro other holder
    have owned := h.owned other holder
    grind
  · intro other inner member
    by_cases same : other = task
    · subst same
      rw [Function.update_self] at member
      apply h.saved other inner
      rw [locks, List.dropLast_cons_of_ne_nil (by grind)]
      exact .tail _ member
    · rw [Function.update_of_ne same] at member
      exact h.saved other inner member
  · simpa [scheduler] using (doing_of rest_ok).1
  · rintro (has | waits)
    · have off := h.off task (.inl (by simp [locks]))
      have inner : lock ∈ (held task).dropLast := by
        rw [locks, List.dropLast_cons_of_ne_nil has]
        exact .head _
      simp [off, h.saved task lock inner]
    · simp [(doing_of rest_ok).2] at waits

theorem frame (h : Sound strict s held) (alike : Alike s t) : Sound strict t held := by
  obtain ⟨owned, ordered, alone, idle, executing, parked, unlocked, off, saved, bare, prompt⟩ := h
  obtain ⟨cpus, owner, enableIrqs, irqs, code, activity, flags⟩ := alike
  refine ⟨owner ▸ owned, ordered, activity ▸ alone, ?_, fun c other => ?_, ?_, fun c => ?_, ?_,
    enableIrqs ▸ saved, activity ▸ bare, fun strictly c => ?_⟩
  · rwa [cpus, activity]
  · rw [activity, (flags c).1, code]
    exact executing c other
  · rwa [activity, code]
  · rw [activity, (flags c).1]
    exact unlocked c
  · rwa [code, irqs]
  · rw [(flags c).1, (flags c).2]
    exact prompt strictly c

/-- What the other processors do when one of them stops or goes on. -/
theorem idle_elsewhere (h : Sound strict s held) (inside : cpu < s.kernel.cpus)
    (activity : Activity) {c : Nat} (outside : s.kernel.cpus ≤ c) :
    (s.setActivity cpu activity).activity c = .halted := by
  have apart : c ≠ cpu := Nat.ne_of_gt (Nat.lt_of_lt_of_le inside outside)
  simpa [setActivity, apart] using h.idle c outside

theorem unlocked_elsewhere (h : Sound strict s held) (open_ : (s.scheduler cpu).yieldLocked = false)
    (activity : Activity) {c : Nat} (locked : (s.scheduler c).yieldLocked = true) :
    ∃ task, (s.setActivity cpu activity).activity c = .executing task ∧ held task ≠ [] := by
  obtain ⟨other, at_c, has⟩ := h.unlocked c locked
  have apart : c ≠ cpu := by
    rintro rfl
    cases open_.symm.trans locked
  exact ⟨other, by simpa [setActivity, apart] using at_c, has⟩

/-- The processor stops executing the task, which is ready for it. -/
theorem leaves (h : Sound strict s held) {activity : Activity}
    (open_ : (s.scheduler cpu).yieldLocked = false) (inside : cpu < s.kernel.cpus)
    (stops : ∀ other, activity ≠ .executing other)
    (ready : ∀ other, s.activity cpu = .executing other →
      Disciplined strict false (held other) (s.code other) ∧ (strict = true → held other = [])) :
    Sound strict (s.setActivity cpu activity) held := by
  have elsewhere {c : Nat} {other : Task} (at_c : (s.setActivity cpu activity).activity c =
    .executing other) :
      c ≠ cpu ∧ s.activity c = .executing other := by
    unfold setActivity at at_c
    grind
  have left {other : Task} (away : ∀ c, (s.setActivity cpu activity).activity c ≠
    .executing other) :
      (∀ c, s.activity c ≠ .executing other) ∨ s.activity cpu = .executing other := by
    by_cases here : s.activity cpu = .executing other
    · exact .inr here
    · refine .inl fun c at_c => away c ?_
      have apart : c ≠ cpu := fun same => here (same ▸ at_c)
      simpa [setActivity, apart] using at_c
  refine ⟨h.owned, h.ordered, ?_, ?_, ?_, ?_, ?_, h.off, h.saved, ?_, h.prompt⟩
  · intro c d other at_c at_d
    exact h.alone c d other (elsewhere at_c).2 (elsewhere at_d).2
  · exact fun c => h.idle_elsewhere inside activity
  · intro c other at_c
    exact h.executing c other (elsewhere at_c).2
  · intro other away
    cases left away with
    | inl parked => exact h.parked other parked
    | inr here => exact (ready other here).1
  · exact fun c => h.unlocked_elsewhere open_ activity
  · intro strictly other away
    cases left away with
    | inl parked => exact h.bare strictly other parked
    | inr here => exact (ready other here).2 strictly

/-- `yield`, on a processor where nothing has locked the scheduler. -/
theorem yields (h : Sound strict s held) (open_ : (s.scheduler cpu).yieldLocked = false)
    (inside : cpu < s.kernel.cpus)
    (ready : ∀ other, s.activity cpu = .executing other →
      Disciplined strict false (held other) (s.code other) ∧ (strict = true → held other = [])) :
    Sound strict (s.yield cpu) held := by
  have flags := Scheduler.yield_flags s.kernel.blocks open_
  have alike :
      Alike s { s with kernel := s.kernel.on cpu ((s.scheduler cpu).yield s.kernel.blocks) } := by
    refine ⟨rfl, rfl, rfl, rfl, rfl, rfl, fun c => ?_⟩
    by_cases here : c = cpu
    · subst here
      simpa [scheduler, Kernel.on] using flags
    · simp [scheduler, Kernel.on, here]
  have open' := (alike.flags cpu).1.trans open_
  unfold yield
  rw [if_neg (by simp [open_])]
  cases ((s.scheduler cpu).tasks.pop s.kernel.blocks.next).1 with
  | some toTask => exact (h.frame alike).leaves open' inside (by simp) ready
  | none =>
      simp only
      split
      · exact (h.frame alike).leaves open' inside (by simp) ready
      · exact h.frame alike

/-- The task goes on with code that need not wait. -/
theorem continues (h : Sound strict s held) (here : s.activity cpu = .executing task)
    (alike : Alike s t) {code : List Op}
    (ok : Disciplined strict (s.scheduler cpu).yieldLocked (held task) code) :
    Sound strict (t.setCode task code) held := by
  obtain ⟨cpus, owner, enableIrqs, irqs, same, activity, flags⟩ := alike
  unfold setCode
  refine h.proceeds here cpus activity flags owner enableIrqs ?_ (irqs ▸ id) ?_ ?_
  · intro other apart
    simp [apart, same, irqs]
  · simpa using (doing_of ok).1
  · simp [(doing_of ok).2]

theorem yield_locked (locked : (s.scheduler cpu).yieldLocked = true) :
    s.yield cpu =
      { s with
        kernel := s.kernel.on cpu
          ({ s.scheduler cpu with yieldPostponed := true }, s.kernel.blocks) } := by
  unfold yield
  rw [if_pos locked, Scheduler.yield_locked locked]

/-- `yield`, on a processor where the task has locked the scheduler. -/
theorem postpones (h : Sound strict s held) (locked : (s.scheduler cpu).yieldLocked = true)
    (loose : strict = false) : Sound strict (s.yield cpu) held := by
  subst loose
  obtain ⟨owned, ordered, alone, idle, executing, parked, unlocked, off, saved, bare, prompt⟩ := h
  have flags (c : Nat) : ((s.yield cpu).scheduler c).yieldLocked = (s.scheduler c).yieldLocked := by
    rw [yield_locked locked]
    by_cases here : c = cpu
    · subst here
      simp [scheduler, Kernel.on]
    · simp [scheduler, Kernel.on, here]
  rw [yield_locked locked] at flags ⊢
  refine ⟨owned, ordered, alone, idle, fun c other => ?_, parked, fun c => ?_, off, saved,
    by simp, by simp⟩
  · rw [flags]
    exact executing c other
  · rw [flags]
    exact unlocked c

/-- A processor that has locked its scheduler executes a task with a spinlock. -/
theorem locked_holds (h : Sound strict s held) (here : s.activity cpu = .executing task)
    (locked : (s.scheduler cpu).yieldLocked = true) : held task ≠ [] := by
  obtain ⟨other, at_cpu, has⟩ := h.unlocked cpu locked
  rwa [← executing_unique at_cpu here]

/-- The task locks or unlocks the scheduler of its processor. -/
theorem relocks (h : Sound strict s held) (here : s.activity cpu = .executing task)
    (scheduler : Scheduler) {code : List Op}
    (ok : Disciplined strict scheduler.yieldLocked (held task) code)
    (guarded : scheduler.yieldLocked = true → held task ≠ [])
    (prompt : scheduler.yieldLocked = true → scheduler.yieldPostponed = false) :
    Sound strict ((s.setScheduler cpu scheduler).setCode task code) held := by
  unfold setCode setScheduler
  rw [← Function.update_eq_self task held]
  refine h.goes here rfl rfl ?_ ?_ (by simpa using h.owned) (h.ordered task)
    (by simpa using h.saved) ?_ ?_ ?_ ?_
  · intro c apart
    simp [Threads.scheduler, Kernel.on, apart]
  · intro other apart
    simp [apart]
  · simpa [Threads.scheduler, Kernel.on] using (doing_of ok).1
  · simpa [(doing_of ok).2] using fun has => h.off task (.inl has)
  · simpa [Threads.scheduler, Kernel.on] using guarded
  · simpa [Threads.scheduler, Kernel.on] using fun _ => prompt

/-- `scheduler::unlock`. In a strict run nothing was postponed. -/
theorem unlocks (h : Sound strict s held) (here : s.activity cpu = .executing task)
    (locked : (s.scheduler cpu).yieldLocked = true) {rest : List Op}
    (ok : Disciplined strict false (held task) rest) (inside : cpu < s.kernel.cpus) :
    Sound strict ((s.setCode task rest).unlock cpu) held := by
  cases postponed : (s.scheduler cpu).yieldPostponed with
  | false =>
      have opens : (s.setCode task rest).unlock cpu =
          (s.setScheduler cpu { s.scheduler cpu with yieldLocked := false }).setCode task rest :=
        if_neg (Bool.eq_false_iff.mp postponed)
      rw [opens]
      exact h.relocks here _ ok (by simp) (by simp)
  | true =>
      have loose : strict = false := by
        cases strict with
        | false => rfl
        | true => cases postponed.symm.trans (h.prompt rfl cpu locked)
      have opens : (s.setCode task rest).unlock cpu =
          ((s.setScheduler cpu { s.scheduler cpu with
            yieldLocked := false, yieldPostponed := false }).setCode task rest).yield cpu :=
        if_pos postponed
      rw [opens]
      have opened := h.relocks here
        { s.scheduler cpu with yieldLocked := false, yieldPostponed := false } ok
        (by simp) (by simp)
      refine opened.yields (by simp [setCode, setScheduler, scheduler, Kernel.on]) inside
        fun other at_cpu => ?_
      obtain rfl := executing_unique here at_cpu
      exact ⟨by simpa [setCode] using ok, by simp [loose]⟩

/-- A step that has nothing to do with spinlocks, waiting and switching only replaces
    itself with other disciplined code. -/
theorem plain {op : Op} {rest : List Op} (h : Sound strict s held)
    (here : s.activity cpu = .executing task) (code : s.code task = op :: rest)
    (quiet : strict = true → s.preemptsItself cpu = false) (plain : op.plain = true)
    (taken : s.execute cpu task rest op = some t) :
    ∃ u code', t = u.setCode task code' ∧ Alike s u ∧ u.callerCanReturn = s.callerCanReturn ∧
      Disciplined strict (s.scheduler cpu).yieldLocked (held task) code' := by
  have doing := h.executing cpu task here
  rw [code] at doing
  cases op with
  | acquire _ | spin _ _ | release _ | disableIrqs | yield | lock | unlock
  | send _ _ | wait _ => cases plain
  | block object =>
      obtain ⟨locks, rest_ok⟩ := doing
      obtain ⟨blocked, _, rfl⟩ := Option.map_eq_some_iff.mp taken
      refine ⟨_, _, rfl, .objects rfl rfl, rfl, ?_⟩
      cases object with
      | none => exact rest_ok
      | some o =>
          rw [locks o rfl] at rest_ok ⊢
          simp [Disciplined, Spinlock.rank, rest_ok]
  | withdraw _ | clearMutex _ | setCompleted _ | pushWaiter _ _ =>
      obtain rfl := Option.some.inj taken
      exact ⟨_, _, rfl, .objects rfl rfl, rfl, doing⟩
  | pushFront target other | push target other =>
      obtain rfl := Option.some.inj taken
      refine ⟨_, _, rfl, ⟨rfl, rfl, rfl, rfl, rfl, rfl, fun c => ?_⟩, rfl, doing⟩
      by_cases same : c = target
      · subst same
        simp [scheduler, Kernel.on]
      · simp [scheduler, Kernel.on, same]
  | addTask other =>
      obtain ⟨ordered, guarded, rest_ok⟩ := doing
      obtain rfl := Option.some.inj taken
      exact ⟨_, _, rfl, .objects rfl rfl, rfl, ordered, held task, rfl, ordered, guarded, rest_ok⟩
  | insert target other =>
      obtain ⟨outer, locks, ordered, guarded, rest_ok⟩ := doing
      have inner : ∀ lock ∈ Spinlock.addTask target :: outer, (Spinlock.tasks target).rank <
          lock.rank := by
        simpa [Spinlock.rank] using fun lock member => Nat.lt_of_succ_lt (ordered lock member)
      simp only [execute] at taken
      split at taken
      · rename_i preempts
        obtain rfl := Option.some.inj taken
        refine ⟨_, _, rfl, .objects rfl rfl, rfl, ?_⟩
        rw [locks]
        refine ⟨inner, _, rfl, by simp, _, rfl, guarded.mp, ?_⟩
        by_cases own : target = cpu
        · rw [preempt, if_pos own]
          refine ⟨?_, rest_ok⟩
          by_cases locked : (s.scheduler cpu).yieldLocked = true
          · refine .inr ⟨Bool.eq_false_iff.mpr fun strictly => ?_, locked⟩
            have alone := quiet strictly
            simp [preemptsItself, here, code, locked, own ▸ preempts, own] at alone
          · exact .inl (of_not_not (mt guarded.mpr locked))
        · rw [preempt, if_neg own]
          exact ⟨ordered, guarded, rest_ok⟩
      · obtain rfl := Option.some.inj taken
        refine ⟨_, _, rfl, .objects rfl rfl, rfl, ?_⟩
        rw [locks]
        exact ⟨inner, _, rfl, by simp, _, rfl, guarded.mp, rest_ok⟩
  | runOn target callback =>
      obtain ⟨ordered, guarded, rest_ok⟩ := doing
      obtain rfl := Option.some.inj taken
      refine ⟨_, _, rfl, .objects rfl rfl, rfl, ?_⟩
      split
      · exact ⟨ordered, ⟨held task, rfl⟩, held task, rfl, guarded.mp, rest_ok⟩
      · exact rest_ok
  | testMutex o =>
      obtain ⟨locks, open_, rest_ok⟩ := doing
      simp only [execute] at taken
      split at taken
      · obtain rfl := Option.some.inj taken
        exact ⟨_, _, rfl, .objects rfl rfl, rfl, by simp [Disciplined, locks, open_, rest_ok]⟩
      · obtain rfl := Option.some.inj taken
        exact ⟨_, _, rfl, .objects rfl rfl, rfl, by simp [Disciplined, locks, open_, rest_ok]⟩
  | popBlocked o | popWaiting o =>
      obtain ⟨locks, open_, rest_ok⟩ := doing
      obtain rfl := Option.some.inj taken
      refine ⟨_, _, rfl, .objects rfl rfl, rfl, ?_⟩
      cases (s.popWaiter o).1 <;> simp [Disciplined, locks, open_, rest_ok]
  | testCompleted o | testTail o | testHead o | takeHead o =>
      obtain ⟨locks, open_, rest_ok⟩ := doing
      obtain rfl := Option.some.inj taken
      refine ⟨_, _, rfl, .objects rfl rfl, rfl, ?_⟩
      split <;> simp [Disciplined, Spinlock.rank, locks, open_, rest_ok]
  | popFirst o | popNext o | create priority =>
      obtain ⟨locks, flag, rest_ok⟩ := doing
      obtain rfl := Option.some.inj taken
      exact ⟨_, _, rfl, .objects rfl rfl, rfl, by simp [Disciplined, locks, flag, rest_ok]⟩
  | wakeAll o nextTask =>
      obtain ⟨locks, locked, rest_ok⟩ := doing
      obtain rfl := Option.some.inj taken
      refine ⟨_, _, rfl, .objects rfl rfl, rfl, ?_⟩
      cases nextTask <;> simp [Disciplined, Spinlock.rank, locks, locked, rest_ok]
  | shootdown i =>
      obtain ⟨locks, open_, rest_ok⟩ := doing
      obtain rfl := Option.some.inj taken
      refine ⟨_, _, rfl, .objects rfl rfl, rfl, ?_⟩
      split
      · split <;> simp [Disciplined, locks, open_, rest_ok]
      · rwa [locks, open_]
  | kpanic => cases taken

theorem executes {op : Op} {rest : List Op} (h : Sound strict s held)
    (here : s.activity cpu = .executing task) (code : s.code task = op :: rest)
    (inside : cpu < s.kernel.cpus) (quiet : strict = true → s.preemptsItself cpu = false)
    (taken : s.execute cpu task rest op = some t) :
    ∃ held', Sound strict t held' := by
  by_cases plain : op.plain = true
  · obtain ⟨u, code', rfl, alike, _, ok⟩ := h.plain here code quiet plain taken
    exact ⟨held, h.continues here alike ok⟩
  · have doing := h.executing cpu task here
    rw [code] at doing
    cases op with
    | acquire lock =>
        obtain ⟨ordered, rest_ok⟩ := doing
        obtain rfl := Option.some.inj taken
        unfold setIrqs setCode
        refine ⟨held, h.proceeds here rfl rfl (fun _ => ⟨rfl, rfl⟩) rfl rfl ?_ ?_ ?_ ?_⟩
        · intro other apart
          simp [apart]
        · simp
        · simpa using ⟨ordered, fun has => h.off task (.inl has), rest_ok⟩
        · simp
    | spin lock oldIrqState =>
        simp only [execute] at taken
        cases free : s.owner lock with
        | some other => simp [free] at taken
        | none =>
            simp only [free, Option.some.injEq] at taken
            subst taken
            exact ⟨_, h.takes here code free⟩
    | release lock =>
        obtain rfl := Option.some.inj taken
        exact ⟨_, h.releases here code⟩
    | disableIrqs =>
        have rest_ok : Disciplined strict (s.scheduler cpu).yieldLocked (held task) rest := doing
        obtain rfl := Option.some.inj taken
        unfold setIrqs setCode
        refine ⟨held, h.proceeds here rfl rfl (fun _ => ⟨rfl, rfl⟩) rfl rfl ?_ ?_ ?_ ?_⟩
        · intro other apart
          simp [apart]
        · simp
        · simpa using (doing_of rest_ok).1
        · simp
    | yield =>
        obtain ⟨free, rest_ok⟩ := doing
        simp only [execute] at taken
        split at taken
        · obtain rfl := Option.some.inj taken
          have goes_on : Sound strict (s.setCode task rest) held :=
            h.continues here (.objects rfl rfl) rest_ok
          cases locked : (s.scheduler cpu).yieldLocked with
          | true =>
              have has := h.locked_holds here locked
              have loose := (free.resolve_left has).1
              exact ⟨held, goes_on.postpones locked loose⟩
          | false =>
              have none : held task = [] := by simpa [locked] using free
              refine ⟨held, goes_on.yields locked inside fun other at_cpu => ?_⟩
              obtain rfl := executing_unique here at_cpu
              exact ⟨by simpa [setCode, locked] using rest_ok, fun _ => none⟩
        · cases taken
    | lock =>
        obtain ⟨open_, has, rest_ok⟩ := doing
        obtain rfl := Option.some.inj taken
        exact ⟨held, h.relocks here _ rest_ok (fun _ => has) fun _ => rfl⟩
    | unlock =>
        obtain ⟨locked, rest_ok⟩ := doing
        simp only [execute] at taken
        split at taken
        · cases taken
        · obtain rfl := Option.some.inj taken
          exact ⟨held, h.unlocks here locked rest_ok inside⟩
    | send target callback =>
        obtain ⟨mailbox, rest_ok⟩ := doing
        obtain rfl := Option.some.inj taken
        unfold setCode
        refine ⟨held, h.proceeds here rfl rfl (fun _ => ⟨rfl, rfl⟩) rfl rfl ?_ id ?_ ?_⟩
        · intro other apart
          simp [apart]
        · simpa using ⟨mailbox, rest_ok⟩
        · obtain ⟨outer, locks⟩ := mailbox
          exact fun _ => h.off task (.inl (by simp [locks]))
    | wait target =>
        obtain ⟨mailbox, rest_ok⟩ := doing
        simp only [execute] at taken
        split at taken
        · obtain rfl := Option.some.inj taken
          exact ⟨held, h.continues here (.objects rfl rfl) rest_ok⟩
        · cases taken
    | _ => exact absurd rfl plain

/-- A task whose interrupts are on can be left at any time. -/
theorem interruptible (h : Sound strict s held) (on : s.irqsOn cpu = true) {other : Task}
    (here : s.activity cpu = .executing other) :
    held other = [] ∧ Disciplined strict (s.scheduler cpu).yieldLocked (held other)
      (s.code other) := by
  have irqs : s.irqs other = true := by simpa [irqsOn, here] using on
  have off := h.off other
  have doing := h.executing cpu other here
  refine ⟨?_, ?_⟩
  · by_contra has
    cases irqs.symm.trans (off (.inl has))
  · cases code : s.code other with
    | nil =>
        rw [code] at doing
        exact doing
    | cons op rest =>
        rw [code] at doing off
        refine doing_cons doing (Bool.eq_false_iff.mpr fun waits => ?_)
        cases irqs.symm.trans (off (.inr waits))

/-- A processor that takes interrupts has not locked its scheduler. -/
theorem open_of_irqsOn (h : Sound strict s held) (on : s.irqsOn cpu = true) :
    (s.scheduler cpu).yieldLocked = false := by
  refine Bool.eq_false_iff.mpr fun locked => ?_
  obtain ⟨other, here, has⟩ := h.unlocked cpu locked
  exact has (h.interruptible on here).1

/-- The handler of an interrupt yields. -/
theorem preempted (h : Sound strict s held) (on : s.irqsOn cpu = true)
    (inside : cpu < s.kernel.cpus) :
    Sound strict (s.yield cpu) held := by
  have open_ := h.open_of_irqsOn on
  refine h.yields open_ inside fun other here => ?_
  obtain ⟨none, ok⟩ := h.interruptible on here
  exact ⟨open_ ▸ ok, fun _ => none⟩

theorem ticks (h : Sound strict s held) (on : s.irqsOn cpu = true) (inside : cpu < s.kernel.cpus) :
    Sound strict (s.tick cpu) held := by
  unfold tick
  cases (s.scheduler cpu).currentTask with
  | none => exact h
  | some currentTask =>
      simp only
      split
      · have ticked : Sound strict (s.setBlocks (s.kernel.blocks.setTimeSlice currentTask
            ((s.kernel.blocks.timeSlice currentTask + 2 ^ 32 - 1) % 2 ^ 32))) held :=
          h.frame (.objects rfl rfl)
        split
        · exact ticked.preempted on inside
        · exact ticked
      · exact h

theorem receives (h : Sound strict s held) (on : s.irqsOn cpu = true)
    (inside : cpu < s.kernel.cpus) :
    Sound strict (s.receiveCall cpu) held := by
  have answered :
      Sound strict { s with callerCanReturn := Function.update s.callerCanReturn cpu true } held :=
    h.frame (.objects rfl rfl)
  unfold receiveCall
  cases s.callback cpu with
  | none => exact h
  | some callback =>
      cases callback with
      | flush => exact answered
      | yield => exact answered.preempted on inside

theorem nobody_executes (h : Sound strict s held) (free : s.loadable task = true) (c : Nat) :
    s.activity c ≠ .executing task := by
  by_cases running : c < s.kernel.cpus
  · simpa using List.all_eq_true.mp free c (List.mem_range.mpr running)
  · simp [h.idle c (Nat.le_of_not_lt running)]

/-- The processor gets the run lock of the task that it switches to. -/
theorem loads (h : Sound strict s held) (inside : cpu < s.kernel.cpus)
    (loading : s.activity cpu = .loading task) (free : s.loadable task = true) :
    Sound strict (s.setActivity cpu (.executing task)) held := by
  have nobody := h.nobody_executes free
  have open_ : (s.scheduler cpu).yieldLocked = false := by
    refine Bool.eq_false_iff.mpr fun locked => ?_
    obtain ⟨other, here, _⟩ := h.unlocked cpu locked
    cases loading.symm.trans here
  have elsewhere {c : Nat} {other : Task} (at_c : (s.setActivity cpu (.executing task)).activity c =
    .executing other) :
      c = cpu ∧ other = task ∨ c ≠ cpu ∧ other ≠ task ∧ s.activity c = .executing other := by
    unfold setActivity at at_c
    grind
  have left {other : Task} (away : ∀ c, (s.setActivity cpu (.executing task)).activity c ≠
    .executing other) :
      ∀ c, s.activity c ≠ .executing other := by
    intro c at_c
    have apart : c ≠ cpu := by
      rintro rfl
      cases loading.symm.trans at_c
    exact away c (by simpa [setActivity, apart] using at_c)
  refine ⟨h.owned, h.ordered, ?_, ?_, ?_, ?_, ?_, h.off, h.saved, ?_, h.prompt⟩
  · intro c d other at_c at_d
    have alone := h.alone c d other
    grind
  · exact fun c => h.idle_elsewhere inside (.executing task)
  · intro c other at_c
    rcases elsewhere at_c with ⟨rfl, rfl⟩ | ⟨_, _, at_c⟩
    · have parked := h.parked other nobody
      rw [← open_] at parked
      exact (doing_of parked).1
    · exact h.executing c other at_c
  · exact fun other away => h.parked other (left away)
  · exact fun c => h.unlocked_elsewhere open_ (.executing task)
  · exact fun strictly other away => h.bare strictly other (left away)

/-- Every primitive starts with no spinlock. -/
theorem code_ok (primitive : Primitive) : Disciplined strict false [] primitive.code := by
  cases primitive <;> simp [Primitive.code, Disciplined, Spinlock.rank]

theorem step (h : Sound strict s held) {event : Event} (taken : s.Step event t)
    (quiet : strict = true → s.Quiet event) : ∃ held', Sound strict t held' := by
  obtain ⟨inside, taken⟩ := taken.taken
  cases taken with
  | call here done _ =>
      have doing := h.executing _ _ here
      rw [done] at doing
      refine ⟨held, h.continues here (.objects rfl rfl) ?_⟩
      rw [doing.1, doing.2]
      exact code_ok _
  | step here code executed => exact h.executes here code inside quiet executed
  | @interrupt cpu _ on _ =>
      have framed :
          Sound strict { s with ipis := Function.update s.ipis cpu (s.ipis cpu - 1) } held :=
        h.frame (.objects rfl rfl)
      exact ⟨held, framed.receives on inside⟩
  | tick on _ => exact ⟨held, h.ticks on inside⟩
  | load here free => exact ⟨held, h.loads inside here free⟩

end Sound

theorem started_sound (strict : Bool) (cpus : Nat) (priority : Task → Nat) (kind : Nat → Kind) :
    Sound strict (started cpus priority kind) fun _ => [] := by
  have open_ (cpu : Nat) : ((started cpus priority kind).scheduler cpu).yieldLocked = false := by
    unfold scheduler started Kernel.started Scheduler.init
    grind
  refine ⟨by simp [started], fun _ => .nil, ?_, ?_, ?_, fun _ _ => ⟨rfl, rfl⟩, ?_, ?_, by simp,
    fun _ _ _ => rfl, ?_⟩
  · simp only [started]
    grind
  · intro cpu outside
    exact if_neg (Nat.not_lt.mpr outside)
  · intro cpu task _
    rw [open_]
    exact ⟨rfl, rfl⟩
  · simp [open_]
  · simp [started, blocked]
  · simp [open_]

end Threads

end Mykonos.Tasks
