import Mykonos.Lib.Acyclic
import Mykonos.Tasks.Spinlocks

/-! # Processors that wait for each other

A processor waits for another one with interrupts off: in `runOn` for the callback, on
a spinlock for its owner, and in `lockTask` for the task. Two processors that call each
other wait forever. There is no cycle as long as nobody starts to wait for a processor
that waits in `runOn` itself.
-/

namespace Mykonos.Tasks

open Lib Relation

namespace Threads

/-- With interrupts off, the first processor goes on only after the second one has done
    something. -/
inductive WaitsFor (s : Threads) (a : Nat) : Nat → Prop where
  | runLock {b : Nat} {toTask : Task} (here : s.activity a = .loading toTask)
      (there : s.activity b = .executing toTask) : WaitsFor s a b
  | spinlock {b : Nat} {task other : Task} {lock : Spinlock} {oldIrqState : Bool} {rest : List Op}
      (here : s.activity a = .executing task) (off : s.irqs task = false)
      (code : s.code task = .spin lock oldIrqState :: rest) (owner : s.owner lock = some other)
      (there : s.activity b = .executing other) : WaitsFor s a b
  | callback {task : Task} {target : Nat} {rest : List Op} (here : s.activity a = .executing task)
      (off : s.irqs task = false) (code : s.code task = .wait target :: rest)
      (pending : s.callerCanReturn target = false) : WaitsFor s a target

/-- The processor is in a loop that it cannot leave now. -/
def waiting (s : Threads) (cpu : Nat) : Bool :=
  match s.activity cpu with
  | .halted => false
  | .loading toTask => !s.loadable toTask
  | .executing task =>
      match s.code task with
      | .spin lock _ :: _ => (s.owner lock).isSome
      | .wait target :: _ => !s.callerCanReturn target
      | _ => false

/-- The processor waits for a mailbox or for a callback. -/
def inRunOn (s : Threads) (cpu : Nat) : Bool :=
  match s.activity cpu with
  | .executing task =>
      match s.code task with
      | .spin (.mailbox _) _ :: _ | .wait _ :: _ => true
      | _ => false
  | _ => false

/-- If another processor is still in the next task of the run queue, it does not wait. -/
def nextFree (s : Threads) (cpu : Nat) : Bool :=
  (s.scheduler cpu).tasks.head.all fun toTask => (List.range s.kernel.cpus).all fun c =>
    c == cpu || s.activity c != .executing toTask || !s.waiting c

/-- What the processor is about to do does not make it wait for one that waits. -/
def heedful (s : Threads) (cpu : Nat) : List Op → Bool
  | .send target _ :: _ => target != cpu && !s.waiting target
  | .acquire (.mailbox target) :: _ =>
      s.owner (.mailbox target) == none || target != cpu && !s.waiting target
  | .acquire lock :: _ =>
      (s.owner lock).all fun other => (List.range s.kernel.cpus).all fun c =>
        s.activity c != .executing other || !s.inRunOn c
  | .yield :: _ | .unlock :: _ => s.nextFree cpu
  | _ => true

/-- Nobody starts to wait for a processor that waits: a call goes to another processor
    that does not wait, a spinlock is not had by one that waits in `runOn`, and the next
    task is not in the hands of one that waits. -/
def careful (s : Threads) : Event → Bool
  | .call _ _ | .load _ => true
  | .interrupt cpu | .tick cpu => s.nextFree cpu
  | .step cpu =>
      match s.activity cpu with
      | .executing task => s.heedful cpu (s.code task)
      | .loading _ | .halted => true

def CarefulStep (s : Threads) (event : Event) (t : Threads) : Prop :=
  s.careful event = true ∧ s.Step event t

theorem heedful_of_careful {s : Threads} {cpu : Nat} {task : Task}
    (careful : s.careful (.step cpu) = true) (here : s.activity cpu = .executing task) :
    s.heedful cpu (s.code task) = true := by
  simpa [Threads.careful, here] using careful

section Edges

variable {s t : Threads} {held : Task → List Spinlock} {a b cpu : Nat} {task : Task}

theorem Sound.inside (h : Sound false s held) (here : s.activity cpu = .executing task) :
    cpu < s.kernel.cpus := by
  by_contra outside
  cases here.symm.trans (h.idle cpu (Nat.le_of_not_lt outside))

/-- A processor that can go on waits for nobody. -/
theorem Sound.not_waitsFor (h : Sound false s held) (goes_on : s.waiting a = false) :
    ¬s.WaitsFor a b := by
  intro waits
  unfold waiting at goes_on
  cases waits with
  | runLock here there =>
      simp only [here, Bool.not_eq_eq_eq_not, Bool.not_false] at goes_on
      exact h.nobody_executes goes_on b there
  | spinlock here _ code owner => simp [here, code, owner] at goes_on
  | callback here _ code pending => simp [here, code, pending] at goes_on

/-- A processor whose next step need not wait waits for nobody. -/
theorem not_waitsFor_of_free (here : s.activity a = .executing task)
    (free : blocked (s.code task) = false) :
    ¬s.WaitsFor a b := by
  intro waits
  cases waits with
  | runLock loading => cases loading.symm.trans here
  | spinlock executing _ code =>
      obtain rfl := executing_unique executing here
      simp [code, blocked] at free
  | callback executing _ code =>
      obtain rfl := executing_unique executing here
      simp [code, blocked] at free

/-- Whether a processor waits depends on its own task, the owners and the calls. -/
theorem WaitsFor.earlier (waits : t.WaitsFor a b) (h : Sound false s held)
    (activity : t.activity a = s.activity a)
    (code : ∀ task, s.activity a = .executing task → t.code task = s.code task)
    (owner : ∀ lock other, t.owner lock = some other → t.activity b = .executing other →
      s.owner lock = some other)
    (calls : ∀ task target rest, s.activity a = .executing task → s.code task =
      .wait target :: rest → t.callerCanReturn target = false → s.callerCanReturn target = false)
    (there : ∀ other, t.activity b = .executing other → s.activity b = .executing other) :
    s.WaitsFor a b := by
  cases waits with
  | runLock loading executing => exact .runLock (activity ▸ loading) (there _ executing)
  | @spinlock _ task _ _ _ _ here _ spins owned executing =>
      rw [activity] at here
      rw [code _ here] at spins
      have off := h.off task (.inr (by simp [spins, blocked]))
      exact .spinlock here off spins (owner _ _ owned executing) (there _ executing)
  | @callback task _ _ here _ waits pending =>
      rw [activity] at here
      rw [code _ here] at waits
      have off := h.off task (.inr (by simp [waits, blocked]))
      exact .callback here off waits (calls _ _ _ here waits pending)

end Edges

section Steps

variable {s t : Threads} {held held' : Task → List Spinlock} {event : Event}

/-- The start of a spin, which makes its processor wait for the owner. -/
structure Spins (s : Threads) (cpu : Nat) (task : Task) (lock : Spinlock) (rest : List Op)
    (t : Threads) : Prop where
  here : s.activity cpu = .executing task
  code : s.code task = .acquire lock :: rest
  result : t = (s.setIrqs task false).setCode task (.spin lock (s.irqs task) :: rest)

/-- Another processor executes another task. -/
theorem Sound.task_ne (h : Sound false s held) {c d : Nat} {task other : Task}
    (here : s.activity c = .executing task) (there : s.activity d = .executing other)
    (apart : d ≠ c) : other ≠ task := by
  rintro rfl
  exact apart (h.alone d c other there here)

/-- Nothing changes for the others. -/
theorem Spins.old {a b cpu : Nat} {task : Task} {lock : Spinlock} {rest : List Op}
    (spins : Spins s cpu task lock rest t) (h : Sound false s held) (apart : a ≠ cpu)
    (waits : t.WaitsFor a b) :
    s.WaitsFor a b := by
  obtain ⟨here, _, rfl⟩ := spins
  refine waits.earlier h rfl ?_ (fun _ _ owned _ => owned) (fun _ _ _ _ _ => id) fun _ => id
  intro other at_a
  simp [setCode, setIrqs, h.task_ne here at_a apart]

/-- A step after which its processor need not wait: what is new leads there. -/
theorem edges_of_free (h : Sound false s held) (h' : Sound false t held')
    {a b cpu : Nat} {task : Task} (waits : t.WaitsFor a b)
    (at_cpu : t.activity cpu = .executing task) (goes_on : blocked (t.code task) = false)
    (activity : ∀ c, c ≠ cpu → t.activity c = s.activity c)
    (code : ∀ other, other ≠ task → t.code other = s.code other)
    (owner : ∀ lock other, other ≠ task → t.owner lock = some other → s.owner lock = some other)
    (calls : ∀ target, t.callerCanReturn target = false → s.callerCanReturn target = false) :
    s.WaitsFor a b ∨ (a ≠ b ∧ ∀ c, ¬t.WaitsFor b c) := by
  have sink (c : Nat) : ¬t.WaitsFor cpu c := not_waitsFor_of_free at_cpu goes_on
  by_cases own : a = cpu
  · subst own
    exact absurd waits (sink b)
  · by_cases mine : b = cpu
    · subst mine
      exact .inr ⟨own, sink⟩
    · refine .inl (waits.earlier h (activity a own) ?_ ?_ (fun _ target _ _ _ => calls target) ?_)
      · intro other at_a
        rw [← activity a own] at at_a
        exact code other (h'.task_ne at_cpu at_a own)
      · intro lock other owned at_b
        exact owner lock other (h'.task_ne at_cpu at_b mine) owned
      · rw [activity b mine]
        exact fun _ => id

/-- The mailbox belongs to the caller that sends or waits. -/
theorem Sound.has_mailbox (h : Sound false s held) {cpu target : Nat} {task : Task} {rest : List Op}
    (here : s.activity cpu = .executing task)
    (code : s.code task = .wait target :: rest ∨ ∃ callback, s.code task =
      .send target callback :: rest) :
    s.owner (.mailbox target) = some task := by
  have doing := h.executing cpu task here
  rw [h.owned]
  rcases code with code | ⟨callback, code⟩
  · rw [code] at doing
    obtain ⟨⟨outer, locks⟩, _⟩ := doing
    simp [locks]
  · rw [code] at doing
    obtain ⟨⟨outer, locks⟩, _⟩ := doing
    simp [locks]

/-- A call goes to a processor that does not wait. -/
theorem sends_edges (h : Sound false s held) {a b cpu target : Nat} {task : Task}
    {callback : Callback} {rest : List Op} (here : s.activity cpu = .executing task)
    (code : s.code task = .send target callback :: rest) (calm : s.heedful cpu (s.code task) = true)
    (result : t = { s with
      callback := Function.update s.callback target (some callback)
      callerCanReturn := Function.update s.callerCanReturn target false
      ipis :=
        Function.update s.ipis target (s.ipis target + 1) }.setCode task (.wait target :: rest))
    (waits : t.WaitsFor a b) : s.WaitsFor a b ∨ (a ≠ b ∧ ∀ c, ¬t.WaitsFor b c) := by
  rw [code] at calm
  simp only [heedful, Bool.and_eq_true, bne_iff_ne, Bool.not_eq_eq_eq_not, Bool.not_true] at calm
  obtain ⟨apart, responsive⟩ := calm
  have mine := h.has_mailbox here (.inr ⟨callback, code⟩)
  have old {c d : Nat} (elsewhere : c ≠ cpu) (edge : t.WaitsFor c d) : s.WaitsFor c d := by
    subst result
    refine edge.earlier h rfl ?_ (fun _ _ owned _ => owned) ?_ fun _ => id
    · intro other at_c
      simp [setCode, h.task_ne here at_c elsewhere]
    · intro other target' later at_c calls pending
      have theirs := h.has_mailbox at_c (.inl calls)
      have distinct : target' ≠ target := by
        rintro rfl
        exact h.task_ne here at_c elsewhere (Option.some.inj (theirs.symm.trans mine))
      simpa [setCode, distinct] using pending
  by_cases own : a = cpu
  · subst own
    have there : b = target := by
      subst result
      cases waits with
      | runLock loading => cases loading.symm.trans here
      | spinlock executing _ spins =>
          obtain rfl := executing_unique executing here
          simp [setCode] at spins
      | callback executing _ calls =>
          obtain rfl := executing_unique executing here
          simp only [setCode, Function.update_self, List.cons.injEq, Op.wait.injEq] at calls
          exact calls.1.symm
    subst there
    exact .inr ⟨apart.symm, fun c edge => h.not_waitsFor responsive (old apart edge)⟩
  · exact .inl (old own waits)

theorem nextFree_of_careful (careful : s.careful event = true) (cause : event.Yields s) :
    s.nextFree event.cpu = true := by
  cases event with
  | call _ _ | load _ => cases cause
  | interrupt _ | tick _ => exact careful
  | step cpu =>
      obtain ⟨task, rest, here, code | code⟩ := cause
      · have calm := heedful_of_careful careful here
        rwa [code] at calm
      · have calm := heedful_of_careful careful here
        rwa [code] at calm

/-- A processor switches to a task that no other processor executes, or whose processor
    does not wait. -/
theorem switches_edges (h : Sound false s held) {a b cpu : Nat} {next : Activity}
    (free_next : s.nextFree cpu = true)
    (activity : t.activity = Function.update s.activity cpu next)
    (before : ∀ toTask, s.activity cpu ≠ .loading toTask)
    (after : next = s.activity cpu ∨ next = .halted ∨
      ∃ toTask, (s.scheduler cpu).tasks.head = some toTask ∧ next = .loading toTask)
    (owner : t.owner = s.owner)
    (answers : ∀ c, s.callerCanReturn c = true → t.callerCanReturn c = true)
    (others : ∀ other, s.activity cpu ≠ .executing other → t.code other = s.code other)
    (free : ∀ task, s.activity cpu = .executing task → blocked (s.code task) =
      false ∧ blocked (t.code task) = false)
    (waits : t.WaitsFor a b) : s.WaitsFor a b ∨ (a ≠ b ∧ ∀ c, ¬t.WaitsFor b c) := by
  have there (other : Task) (c : Nat) (at_c : t.activity c = .executing other) :
      s.activity c = .executing other := by
    rw [activity] at at_c
    grind
  have old {c d : Nat} (apart : c ≠ cpu) (edge : t.WaitsFor c d) : s.WaitsFor c d := by
    refine edge.earlier h ?_ ?_ (fun _ _ owned _ => owner ▸ owned) ?_ fun other => there other d
    · rw [activity, Function.update_of_ne apart]
    · intro other at_c
      refine others other fun at_cpu => apart (h.alone c cpu other at_c at_cpu)
    · intro _ target _ _ _ pending
      cases can : s.callerCanReturn target with
      | false => rfl
      | true => cases pending.symm.trans (answers target can)
  by_cases own : a = cpu
  · subst own
    cases waits with
    | @runLock _ toTask loading executing =>
        have apart : b ≠ a := by
          rintro rfl
          cases loading.symm.trans executing
        have head : (s.scheduler a).tasks.head = some toTask := by
          rw [activity, Function.update_self] at loading
          grind
        have responsive : s.waiting b = false := by
          have at_b := there toTask b executing
          have free := List.all_eq_true.mp ((Option.all_eq_true _ _).mp free_next toTask head) b
            (List.mem_range.mpr (h.inside at_b))
          simpa [apart, at_b] using free
        exact .inr ⟨apart.symm, fun c edge => h.not_waitsFor responsive (old apart edge)⟩
    | spinlock executing off code owned at_b =>
        have busy := (free _ (there _ _ executing)).2
        exact absurd (.spinlock executing off code owned at_b) (not_waitsFor_of_free executing busy)
    | callback executing off code pending =>
        have busy := (free _ (there _ _ executing)).2
        exact absurd (.callback executing off code pending) (not_waitsFor_of_free executing busy)
  · exact .inl (old own waits)

/-- Every new edge leads to a processor that waits for nobody, unless it is that of the
    start of a spin. -/
theorem Moves.edges (moves : Moves s event t) (h : Sound false s held) (h' : Sound false t held')
    (careful : s.careful event = true) {a b : Nat} (waits : t.WaitsFor a b) :
    s.WaitsFor a b ∨ (a ≠ b ∧ ∀ c, ¬t.WaitsFor b c) ∨
      ∃ task lock rest, event = .step a ∧ Spins s a task lock rest t := by
  cases moves with
  | goes task here activity owner callerCanReturn others free =>
      rw [← or_assoc]
      refine .inl (edges_of_free h h' waits (activity ▸ here) free
        (fun c _ => by rw [activity]) others ?_ ?_)
      · simp [owner]
      · simp [callerCanReturn]
  | acquires cpu task lock rest stepped here code result =>
      by_cases own : a = cpu
      · subst own
        exact .inr (.inr ⟨task, lock, rest, stepped, here, code, result⟩)
      · exact .inl (Spins.old ⟨here, code, result⟩ h own waits)
  | takes task lock oldIrqState rest here code free result =>
      have doing := h.executing event.cpu task here
      rw [code] at doing
      subst result
      rw [← or_assoc]
      refine .inl (edges_of_free h h' waits here ?_ (fun _ _ => rfl) ?_ ?_ fun _ => id)
      · simpa [setCode] using (Sound.doing_of doing.2.2).2
      · intro other apart
        simp [setCode, apart]
      · intro taken other apart owned
        simp only [setCode] at owned
        grind
  | releases task lock rest here code result =>
      have doing := h.executing event.cpu task here
      rw [code] at doing
      obtain ⟨_, _, _, rest_ok⟩ := doing
      subst result
      rw [← or_assoc]
      refine .inl (edges_of_free h h' waits here ?_ (fun _ _ => rfl) ?_ ?_ fun _ => id)
      · simpa [setCode, setIrqs] using (Sound.doing_of rest_ok).2
      · intro other apart
        simp [setCode, setIrqs, apart]
      · intro taken other apart owned
        simp only [setCode, setIrqs] at owned
        grind
  | sends cpu task target callback rest stepped here code result =>
      subst stepped
      exact (sends_edges h here code (heedful_of_careful careful here) result waits).imp_right .inl
  | switches next activity cause before after owner answers others free =>
      have free_next := nextFree_of_careful careful cause
      exact
        (switches_edges h free_next activity before after owner answers others free waits).imp_right
          .inl
  | loads task here nobody result =>
      have parked := Sound.doing_of (h.parked task nobody)
      subst result
      have at_cpu : (s.setActivity event.cpu (.executing task)).activity event.cpu =
          .executing task := by
        simp [setActivity]
      rw [← or_assoc]
      refine .inl (edges_of_free h h' waits at_cpu parked.2 ?_ (fun _ _ => rfl)
        (fun _ _ _ => id) fun _ => id)
      intro c apart
      simp [setActivity, apart]

/-- The spinlock on which a task spins is of lower rank than all that it has. -/
theorem Sound.rank_lt (h : Sound false t held') {cpu : Nat} {task : Task} {lock inner : Spinlock}
    {oldIrqState : Bool} {rest : List Op} (here : t.activity cpu = .executing task)
    (code : t.code task = .spin inner oldIrqState :: rest) (owner : t.owner lock = some task) :
    inner.rank < lock.rank := by
  have doing := h.executing cpu task here
  rw [code] at doing
  exact doing.1 lock ((h.owned lock task).mp owner)

/-- A caller that waits has the mailbox and spinlocks of higher rank. -/
theorem Sound.rank_wait (h : Sound false t held') {cpu target : Nat} {task : Task} {lock : Spinlock}
    {rest : List Op} (here : t.activity cpu = .executing task)
    (code : t.code task = .wait target :: rest) (owner : t.owner lock = some task) :
    lock = .mailbox target ∨ 2 < lock.rank := by
  have doing := h.executing cpu task here
  rw [code] at doing
  obtain ⟨⟨outer, locks⟩, _⟩ := doing
  have ordered := h.ordered task
  have member := (h.owned lock task).mp owner
  rw [locks] at ordered member
  cases member with
  | head => exact .inl rfl
  | tail _ member => exact .inr ((List.pairwise_cons.mp ordered).1 lock member)

/-- The owner of a spinlock of low rank that is not a mailbox is not in `runOn`. -/
theorem Sound.inRunOn_of_low (h : Sound false t held') {cpu : Nat} {task : Task} {lock : Spinlock}
    (here : t.activity cpu = .executing task) (owner : t.owner lock = some task)
    (low : lock.rank ≤ 2) (other : ∀ target, lock ≠ .mailbox target) : t.inRunOn cpu = false := by
  unfold inRunOn
  rw [here]
  simp only
  split
  · rename_i target oldIrqState rest code
    have lower : 2 < lock.rank := h.rank_lt here code owner
    omega
  · rename_i target rest code
    rcases h.rank_wait here code owner with same | high
    · exact absurd same (other target)
    · omega
  · rfl

/-- Nothing is reached from the owner of the spinlock but processors that spin on
    spinlocks of lower rank. -/
theorem Spins.not_back {cpu b : Nat} {task other : Task} {lock : Spinlock} {rest : List Op}
    (spins : Spins s cpu task lock rest t) (h : Sound false t held')
    (owner : t.owner lock = some other) (there : t.activity b = .executing other)
    (outside : t.inRunOn b = false) : ¬ReflTransGen t.WaitsFor b cpu := by
  have here : t.activity cpu = .executing task := by
    rw [spins.result]
    exact spins.here
  have code : t.code task = .spin lock (s.irqs task) :: rest := by simp [spins.result, setCode]
  have invariant (c : Nat) (path : ReflTransGen t.WaitsFor b c) : c ≠ cpu ∧ t.inRunOn c = false ∧
      ∃ last, t.activity c = .executing last ∧
        ∀ inner oldIrqState later, t.code last = .spin inner oldIrqState :: later →
        inner.rank < lock.rank := by
    induction path with
    | refl =>
        refine ⟨?_, outside, other, there, fun inner _ _ spins => h.rank_lt there spins owner⟩
        rintro rfl
        obtain rfl := executing_unique here there
        exact Nat.lt_irrefl _ (h.rank_lt here code owner)
    | @tail c d _ edge ih =>
        obtain ⟨apart, calm, last, at_c, lower⟩ := ih
        cases edge with
        | runLock loading => cases loading.symm.trans at_c
        | callback executing _ calls =>
            simp [inRunOn, executing, calls] at calm
        | @spinlock _ _ holder inner _ _ executing _ spins' owned at_d =>
            obtain rfl := executing_unique executing at_c
            have below := lower inner _ _ spins'
            have low : inner.rank ≤ 2 := Nat.le_of_lt_succ (Nat.lt_of_lt_of_le below lock.rank_le)
            refine ⟨?_, h.inRunOn_of_low at_d owned low ?_, holder, at_d, ?_⟩
            · rintro rfl
              obtain rfl := executing_unique here at_d
              exact Nat.lt_asymm below (h.rank_lt here code owned)
            · rintro target rfl
              simp [inRunOn, executing, spins'] at calm
            · intro innermost _ _ spins''
              exact Nat.lt_trans (h.rank_lt at_d spins'' owned) below
  exact fun path => (invariant cpu path).1 rfl

theorem Spins.edge {a b : Nat} {task : Task} {lock : Spinlock} {rest : List Op}
    (spins : Spins s a task lock rest t) (waits : t.WaitsFor a b) :
    ∃ other, s.owner lock = some other ∧ s.activity b = .executing other := by
  obtain ⟨here, _, rfl⟩ := spins
  cases waits with
  | runLock loading => cases loading.symm.trans here
  | spinlock executing _ code owner there =>
      obtain rfl := executing_unique executing here
      simp only [setCode, Function.update_self, List.cons.injEq, Op.spin.injEq] at code
      obtain ⟨⟨rfl, _⟩, _⟩ := code
      exact ⟨_, owner, there⟩
  | callback executing _ code =>
      obtain rfl := executing_unique executing here
      simp [setCode] at code

/-- The owner of a mailbox that waits in `runOn` waits for the processor of the mailbox. -/
theorem Sound.callee (h : Sound false t held') {b c target : Nat} {other : Task}
    (owner : t.owner (.mailbox target) = some other) (there : t.activity b = .executing other)
    (calls : t.inRunOn b = true) (waits : t.WaitsFor b c) : c = target := by
  unfold inRunOn at calls
  cases waits with
  | runLock loading => cases loading.symm.trans there
  | spinlock executing _ code =>
      obtain rfl := executing_unique executing there
      have lower := h.rank_lt there code owner
      simp only [there, code] at calls
      split at calls
      · rename_i same
        obtain ⟨⟨rfl, rfl⟩, rfl⟩ := by simpa using same
        exact absurd lower (Nat.lt_irrefl 2)
      · rename_i same
        simp at same
      · cases calls
  | callback executing _ code =>
      obtain rfl := executing_unique executing there
      rcases h.rank_wait there code owner with same | high
      · exact (Spinlock.mailbox.inj same).symm
      · exact absurd high (Nat.lt_irrefl 2)

/-- The processor does not wait for itself when it starts to spin. -/
theorem Spins.not_closed {a b : Nat} {task : Task} {lock : Spinlock} {rest : List Op}
    (spins : Spins s a task lock rest t) (h : Sound false s held) (h' : Sound false t held')
    (calm : s.heedful a (s.code task) = true) (waits : t.WaitsFor a b) :
    ¬ReflTransGen t.WaitsFor b a := by
  obtain ⟨other, owner, there⟩ := spins.edge waits
  have owner' : t.owner lock = some other := by
    rw [spins.result]
    exact owner
  have there' : t.activity b = .executing other := by
    rw [spins.result]
    exact there
  have apart : other ≠ task := by
    rintro rfl
    have here' : t.activity a = .executing other := by
      rw [spins.result]
      exact spins.here
    have code' : t.code other = .spin lock (s.irqs other) :: rest := by simp [spins.result, setCode]
    exact Nat.lt_irrefl _ (h'.rank_lt here' code' owner')
  have elsewhere : b ≠ a := by
    rintro rfl
    exact apart (executing_unique there spins.here)
  cases calls : t.inRunOn b with
  | false => exact spins.not_back h' owner' there' calls
  | true =>
      rw [spins.code] at calm
      cases lock with
      | mailbox target =>
          simp only [heedful, owner, reduceCtorEq, beq_iff_eq, Bool.or_eq_true, false_or,
            Bool.and_eq_true, bne_iff_ne, Bool.not_eq_eq_eq_not, Bool.not_true] at calm
          intro path
          rcases path.cases_head with same | ⟨c, edge, path⟩
          · exact elsewhere same
          · obtain rfl := h'.callee owner' there' calls edge
            exact not_reach_of_sink (fun d edge => h.not_waitsFor calm.2 (spins.old h calm.1 edge))
              calm.1 path
      | object _ | waiters _ | addTask _ | tasks _ =>
          have same : t.code other = s.code other := by simp [spins.result, setCode, setIrqs, apart]
          have outside : s.inRunOn b = false := by
            have free := List.all_eq_true.mp ((Option.all_eq_true _ _).mp calm other owner) b
              (List.mem_range.mpr (h.inside there))
            simpa [there] using free
          simp only [inRunOn, there', same] at calls
          simp only [inRunOn, there] at outside
          cases calls.symm.trans outside

theorem acyclic_step (acyclic : Acyclic s.WaitsFor) (h : Sound false s held)
    (h' : Sound false t held') (step : CarefulStep s event t) : Acyclic t.WaitsFor := by
  refine acyclic.grow fun a b waits => ?_
  rcases (h.moves step.2 (by simp)).edges h h' step.1 waits with old | ⟨apart, sink⟩ |
    ⟨task, lock, rest, rfl, spins⟩
  · exact .inl old
  · exact .inr (not_reach_of_sink sink apart.symm)
  · exact .inr (spins.not_closed h h' (heedful_of_careful step.1 spins.here) waits)

end Steps

theorem started_acyclic (cpus : Nat) (priority : Task → Nat) (kind : Nat → Kind) :
    Acyclic (started cpus priority kind).WaitsFor := by
  have nobody (a b : Nat) : ¬(started cpus priority kind).WaitsFor a b := by
    intro waits
    cases waits with
    | runLock loading =>
        simp only [started] at loading
        grind
    | spinlock _ _ code => simp [started] at code
    | callback _ _ code => simp [started] at code
  intro a cycle
  cases TransGen.head'_iff.mp cycle with
  | intro b path => exact nobody a b path.1

/-- In a careful run no processors wait for each other in a cycle. The owner of a run
    queue, for which `yield` may have to wait for a moment, waits for nobody. -/
theorem no_deadlock {cpus : Nat} {priority : Task → Nat} {kind : Nat → Kind}
    {events : List Event} {s : Threads}
    (run : Run CarefulStep (started cpus priority kind) events s) :
    (∀ cpu, ¬TransGen s.WaitsFor cpu cpu) ∧
      ∀ cpu task c d, s.owner (.tasks cpu) = some task → s.activity c = .executing task →
      ¬s.WaitsFor c d := by
  obtain ⟨acyclic, held, h⟩ :=
    run.invariant (P := fun s => Acyclic s.WaitsFor ∧ ∃ held, Sound false s held)
    ⟨started_acyclic cpus priority kind, _, started_sound false cpus priority kind⟩
        fun _ _ _ ⟨acyclic, _, h⟩ step => by
      obtain ⟨held', h'⟩ := h.step step.2 (by simp)
      exact ⟨acyclic_step acyclic h h' step, held', h'⟩
  refine ⟨acyclic, fun cpu task c d owner here waits => ?_⟩
  cases waits with
  | runLock loading => cases loading.symm.trans here
  | @spinlock _ _ _ lock _ _ executing _ code =>
      obtain rfl := executing_unique executing here
      have lower : lock.rank < 1 := h.rank_lt here code owner
      cases lock <;> simp [Spinlock.rank] at lower
  | callback executing _ code =>
      obtain rfl := executing_unique executing here
      rcases h.rank_wait here code owner with same | high
      · cases same
      · simp [Spinlock.rank] at high

/-- The second processor calls the first one, and the third one waits for its mailbox. -/
def queued : List Event :=
  .call 1 .unmapMemory :: List.replicate 5 (.step 1) ++ .call 2 .unmapMemory ::
    List.replicate 3 (.step 2)

theorem no_deadlock_queued :
    ∃ s, Run CarefulStep (started 3 (fun _ => 0) fun _ => .mutex) queued s ∧ s.WaitsFor 2 1 ∧
      s.WaitsFor 1 0 ∧ ∀ cpu, ¬TransGen s.WaitsFor cpu cpu := by
  have computed :
      (queued.foldlM
        (fun (s : Threads) event => if s.careful event = true then s.after? event else none)
        (started 3 (fun _ => 0) fun _ => .mutex)).any (fun s =>
        s.activity 1 == .executing 1 && s.activity 2 == .executing 2 && !s.irqs 1 && !s.irqs 2 &&
          s.owner (.mailbox 0) == some 1 && !s.callerCanReturn 0 &&
          s.code 1 == [.wait 0, .withdraw 0, .release (.mailbox 0), .shootdown 1] &&
          s.code 2 == [.spin (.mailbox 0) true, .send 0 .flush, .withdraw 0, .release (.mailbox 0),
            .shootdown 1]) =
      true := by
    decide +kernel
  obtain ⟨s, replayed, checked⟩ := (Option.any_eq_true _ _).mp computed
  simp only [Bool.and_eq_true, beq_iff_eq, Bool.not_eq_eq_eq_not, Bool.not_true] at checked
  obtain ⟨⟨⟨⟨⟨⟨⟨first, second⟩, off⟩, off'⟩, owner⟩, pending⟩, calls⟩, spins⟩ := checked
  have run : Run CarefulStep _ _ s := Run.of_foldlM_guarded replayed
  exact ⟨s, run, .spinlock second off' spins owner first, .callback first off calls pending,
    (no_deadlock run).1⟩

/-- Two processors unmap memory at the same time. -/
def crossed : List Event :=
  .call 0 .unmapMemory :: List.replicate 6 (.step 0) ++ .call 1 .unmapMemory ::
    List.replicate 5 (.step 1)

/-- Each of them waits for the other one to take its call, with interrupts off. -/
theorem deadlock_crossed :
    ∃ s, Run Step (started 2 (fun _ => 0) fun _ => .mutex) crossed s ∧ s.WaitsFor 0 1 ∧
      s.WaitsFor 1 0 ∧ TransGen s.WaitsFor 0 0 := by
  have computed : (crossed.foldlM after? (started 2 (fun _ => 0) fun _ => .mutex)).any (fun s =>
      s.activity 0 == .executing 0 && s.activity 1 == .executing 1 && !s.irqs 0 && !s.irqs 1 &&
        !s.callerCanReturn 0 && !s.callerCanReturn 1 &&
        s.code 0 == [.wait 1, .withdraw 1, .release (.mailbox 1), .shootdown 2] &&
        s.code 1 == [.wait 0, .withdraw 0, .release (.mailbox 0), .shootdown 1]) = true := by
    decide +kernel
  obtain ⟨s, replayed, checked⟩ := (Option.any_eq_true _ _).mp computed
  simp only [Bool.and_eq_true, beq_iff_eq, Bool.not_eq_eq_eq_not, Bool.not_true] at checked
  obtain ⟨⟨⟨⟨⟨⟨⟨first, second⟩, off⟩, off'⟩, pending⟩, pending'⟩, calls⟩, calls'⟩ := checked
  have there : s.WaitsFor 0 1 := .callback first off calls pending'
  have back : s.WaitsFor 1 0 := .callback second off' calls' pending
  exact ⟨s, Run.of_foldlM replayed, there, back, .tail (.single there) back⟩

end Threads

end Mykonos.Tasks
