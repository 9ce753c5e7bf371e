import Mykonos.Tasks.Single

/-! # Time slices

A task that is dispatched gets five ticks. The slice is a counter that a tick
decrements and only a dispatch refills: it is zero for the task `init` is given,
and a slice that ends with an empty queue stays at zero and then wraps.
-/

namespace Mykonos.Tasks

open Lib

namespace Deque

variable {d : Deque} {priority : Task → Nat}

/-- The running task has between one and five ticks left. -/
def Bounded (d : Deque) : Prop :=
  d.current ≠ none → 1 ≤ d.slice ∧ d.slice ≤ initialTimeSlice

/-- A tick ends the slice and no task takes over. -/
def Starved (d : Deque) : Prop :=
  d.locked = false ∧ d.current ≠ none ∧ d.slice = 1 ∧ d.ready = []

/-- A full slice is within its bounds. -/
theorem Bounded.full (current : Option Task) (ready : List Task) (locked postponed : Bool) :
    Bounded ⟨current, ready, locked, postponed, initialTimeSlice⟩ :=
  fun _ => ⟨(by decide : 1 ≤ initialTimeSlice), le_refl _⟩

theorem Bounded.yield (h : d.Bounded) : d.yield.Bounded := by
  unfold Deque.yield
  split
  · exact h
  · split
    · exact h
    · exact .full _ _ _ _

theorem tick_inactive (inactive : d.locked = true ∨ d.current = none) : d.tick = d := by
  unfold Deque.tick
  rw [if_pos (by simpa using inactive)]

theorem tick_last (unlocked : d.locked = false) (running : d.current ≠ none) (last : d.slice = 1) :
    d.tick = yield { d with slice := 0 } := by
  unfold Deque.tick
  rw [if_neg (by simp [unlocked, running])]
  simp only [last]
  rfl

theorem tick_more (unlocked : d.locked = false) (running : d.current ≠ none) (more : 1 < d.slice)
    (small : d.slice ≤ initialTimeSlice) : d.tick = { d with slice := d.slice - 1 } := by
  have most : d.slice ≤ 5 := small
  have less : (d.slice + 2 ^ 32 - 1) % 2 ^ 32 = d.slice - 1 := by omega
  unfold Deque.tick
  rw [if_neg (by simp [unlocked, running])]
  simp only [less]
  rw [if_neg (by omega)]

theorem Bounded.tick (h : d.Bounded) (fed : ¬d.Starved) : d.tick.Bounded := by
  by_cases inactive : d.locked = true ∨ d.current = none
  · rw [tick_inactive inactive]
    exact h
  · obtain ⟨locked, running⟩ := not_or.mp inactive
    have unlocked := Bool.eq_false_iff.mpr locked
    obtain ⟨least, most⟩ := h running
    rcases Nat.eq_or_lt_of_le least with last | more
    · rw [tick_last unlocked running last.symm]
      unfold Deque.yield
      cases ready : d.ready with
      | nil => exact absurd ⟨unlocked, running, last.symm, ready⟩ fed
      | cons first rest =>
          simp only [unlocked, Bool.false_eq_true, if_false]
          exact .full _ _ _ _
    · rw [tick_more unlocked running more most]
      exact fun _ => ⟨Nat.le_sub_one_of_lt more, (Nat.sub_le _ _).trans most⟩

theorem Starved.tick (h : d.Starved) : ¬d.tick.Bounded := by
  obtain ⟨unlocked, running, last, empty⟩ := h
  intro bounded
  rw [tick_last unlocked running last] at bounded
  simp only [Deque.yield, unlocked, empty, Bool.false_eq_true, if_false] at bounded
  exact absurd (bounded running).1 (by simp)

theorem Bounded.apply (h : d.Bounded) (call : Call) (fed : call = .tick → ¬d.Starved) :
    (d.apply priority call).Bounded := by
  cases call with
  | addTask task =>
      simp only [Deque.apply, Deque.addTask]
      split
      · apply Bounded.yield
        exact h
      · exact h
  | yield => exact h.yield
  | tick => exact h.tick (fed rfl)
  | blockThenYield =>
      apply Bounded.yield
      intro busy
      exact absurd rfl busy
  | lock => exact h
  | unlock =>
      simp only [Deque.apply, Deque.unlock]
      split
      · apply Bounded.yield
        exact h
      · exact h

/-- A task that is still there after a yield was not dispatched by it. -/
theorem yield_kept {t : Task} (absent : t ∉ d.ready) (kept : d.yield.current = some t) :
    d.current = some t ∧ d.yield.slice = d.slice := by
  unfold Deque.yield at kept ⊢
  split at kept
  · rename_i locked
    rw [if_pos locked]
    exact ⟨kept, rfl⟩
  · rename_i unlocked
    rw [if_neg unlocked]
    split at kept
    · exact ⟨kept, rfl⟩
    · rename_i first rest ready
      cases kept
      exact absurd (by simp [ready]) absent

/-- What a call takes from the slice. -/
def spent (d : Deque) (call : Call) : Nat :=
  if call = .tick ∧ d.locked = false then 1 else 0

/-- A task that stays pays for each tick out of its slice. -/
theorem apply_kept {t : Task} {call : Call} (h : d.Bounded) (running : d.current = some t)
    (absent : t ∉ d.ready) (may : d.allows call = true)
    (kept : (d.apply priority call).current = some t) :
    (d.apply priority call).slice + d.spent call = d.slice := by
  cases call with
  | addTask task =>
      have other : t ∉ task :: d.ready := by
        simp only [allows, running, decide_eq_true_iff] at may
        simp only [List.mem_cons, not_or]
        exact ⟨fun same => may.1 (by rw [same]), absent⟩
      simp only [apply, addTask, spent] at kept ⊢
      split at kept
      · rename_i front
        rw [if_pos front]
        simpa using (yield_kept other kept).2
      · rename_i back
        rw [if_neg back]
        simp
  | yield => simpa [spent, apply] using (yield_kept absent kept).2
  | tick =>
      have busy : d.current ≠ none := by simp [running]
      obtain ⟨least, most⟩ := h busy
      simp only [apply, spent, true_and] at kept ⊢
      by_cases locked : d.locked = true
      · rw [tick_inactive (.inl locked), if_neg (by simp [locked])]
        rfl
      · have unlocked := Bool.eq_false_iff.mpr locked
        rw [if_pos unlocked]
        rcases Nat.eq_or_lt_of_le least with last | more
        · rw [tick_last unlocked busy last.symm] at kept ⊢
          rw [(yield_kept (d := { d with slice := 0 }) absent kept).2]
          exact last
        · rw [tick_more unlocked busy more most]
          exact Nat.sub_add_cancel least
  | blockThenYield =>
      obtain ⟨gone, _⟩ := yield_kept (d := { d with current := none }) absent kept
      cases gone
  | lock => simp [spent, apply]
  | unlock =>
      simp only [apply, unlock, spent] at kept ⊢
      split at kept
      · rename_i postponed
        rw [if_pos postponed]
        simpa using (yield_kept (d := { d with locked := false, postponed := false }) absent kept).2
      · rename_i calm
        rw [if_neg calm]
        simp

end Deque

namespace Processor

variable {s : Processor} {d : Deque} {priority : Task → Nat} {known : Set Task}

/-- A running current task has between one and five ticks left. -/
def Bounded (s : Processor) : Prop :=
  ∀ t, s.1.currentTask = some t → s.2.state t = .running → 1 ≤ s.2.timeSlice t ∧ s.2.timeSlice t ≤ 5

/-- The slice of the running task ends at the next tick, and the queue is empty. -/
def Starved (s : Processor) : Prop :=
  s.1.yieldLocked = false ∧ s.1.tasks.head = none ∧
    ∃ t, s.1.currentTask = some t ∧ s.2.state t = .running ∧ s.2.timeSlice t = 1

/-- The task is current before and after each of the calls, and the queue is not
    empty. -/
def Kept (t : Task) (s : Processor) : List Call → Prop
  | [] => s.1.currentTask = some t ∧ s.1.tasks.head ≠ none
  | call :: rest => s.1.currentTask = some t ∧ s.1.tasks.head ≠ none ∧ Kept t (s.apply call) rest

/-- The ticks among the calls that find the scheduler unlocked. -/
def unlockedTicks (s : Processor) : List Call → Nat
  | [] => 0
  | call :: rest =>
      (if call = .tick ∧ s.1.yieldLocked = false then 1 else 0) +
        unlockedTicks (s.apply call) rest

theorem Settled.bounded_iff (h : Settled priority known s d) : s.Bounded ↔ d.Bounded := by
  unfold Bounded Deque.Bounded
  rw [← h.settled]
  cases current : s.1.currentTask with
  | none => simp
  | some t => simp [h.running current, initialTimeSlice]

theorem Settled.starved_iff (h : Settled priority known s d) : s.Starved ↔ d.Starved := by
  unfold Starved Deque.Starved
  rw [h.follows.locked, h.follows.ready.head, ← h.settled]
  cases current : s.1.currentTask with
  | none => simp
  | some t => simp [h.running current, and_comm]

/-- The slice pays for the ticks of a task that stays. -/
theorem Settled.unlockedTicks_lt {t : Task} {calls : List Call} {u : Processor}
    (h : Settled priority known s d) (bounded : d.Bounded) (run : Run Step s calls u)
    (fed : ∀ pre post, calls = pre ++ .tick :: post → ¬(pre.foldl Processor.apply s).Starved)
    (kept : s.Kept t calls) :
    s.unlockedTicks calls < d.slice := by
  induction calls generalizing known s d with
  | nil =>
      have busy : d.current ≠ none := by simp [← h.settled, kept.1]
      exact (bounded busy).1
  | cons call rest ih =>
      obtain ⟨mid, ⟨allowed, rfl⟩, later⟩ := run.uncons
      obtain ⟨current, _, stays⟩ := kept
      have next : Settled priority ∅ (s.apply call) (d.apply priority call) :=
        h.apply allowed (by simp)
      have still : (d.apply priority call).current = some t := by
        rw [← next.settled]
        cases rest with
        | nil => exact stays.1
        | cons _ _ => exact stays.1
      have absent : t ∉ d.ready := by
        intro member
        have waiting := h.follows.runnable t member
        rw [(h.running current).1] at waiting
        cases waiting
      have paid :=
        Deque.apply_kept bounded (h.settled ▸ current) absent
          ((h.allowed_iff call).mp allowed) still
      have less := ih next (bounded.apply call ?_) later ?_ stays
      · simp only [unlockedTicks, h.follows.locked, Deque.spent] at paid ⊢
        omega
      · rintro rfl
        exact fun starved => fed [] rest rfl (h.starved_iff.mpr starved)
      · intro pre post parts
        exact fed (call :: pre) post (by rw [parts, List.cons_append])

/-- The slices are within their bounds in every state the calls lead through, and
    no task keeps the processor for more than five ticks while another waits. -/
def SlicesHold (s : Processor) (calls : List Call) : Prop :=
  (∀ pre post, calls = pre ++ post → (pre.foldl apply s).Bounded) ∧
    ∀ pre mid post t, calls = pre ++ mid ++ post → (pre.foldl apply s).Kept t mid →
      (pre.foldl apply s).unlockedTicks mid ≤ 5

variable {task : Task} {slice : Nat} {calls : List Call}

/-- The states on the way, each with its deque. -/
theorem settled_split {pre post : List Call} (run : Run Step (started task slice priority) calls s)
    (parts : calls = pre ++ post) :
    Settled priority {t | t = task ∨ .addTask t ∈ pre}
      (pre.foldl apply (started task slice priority))
        (pre.foldl (Deque.apply priority) (Deque.started task slice)) ∧
      Run Step (pre.foldl apply (started task slice priority)) post s := by
  obtain ⟨mid, before, after⟩ := run.split parts
  obtain rfl := run_foldl before
  exact ⟨Settled.run before, after⟩

theorem bounded_of_fed (run : Run Step (started task slice priority) calls s)
    (initial : 1 ≤ slice ∧ slice ≤ 5)
    (fed : ∀ pre post, calls = pre ++ .tick :: post →
      ¬(pre.foldl apply (started task slice priority)).Starved) :
    (calls.foldl (Deque.apply priority) (Deque.started task slice)).Bounded := by
  induction run with
  | start => exact fun _ => initial
  | @next _ _ calls call before last ih =>
      rw [List.foldl_append]
      apply Deque.Bounded.apply
      · apply ih
        intro pre post parts
        exact fed pre (post ++ [call]) (by simp [parts])
      · rintro rfl
        have settled := Settled.run before
        rw [← settled.starved_iff, run_foldl before]
        exact fed _ [] rfl

theorem slices_hold_iff (run : Run Step (started task slice priority) calls s) :
    SlicesHold (started task slice priority) calls ↔
      (1 ≤ slice ∧ slice ≤ 5) ∧
        ∀ pre post, calls = pre ++ .tick :: post →
        ¬(pre.foldl apply (started task slice priority)).Starved := by
  constructor
  · intro ⟨bounded, _⟩
    refine ⟨bounded [] calls rfl task rfl rfl, ?_⟩
    intro pre post parts starved
    obtain ⟨before, _⟩ := settled_split run parts
    have cut : calls = (pre ++ [.tick]) ++ post := by simp [parts]
    obtain ⟨after, _⟩ := settled_split run cut
    have held := after.bounded_iff.mp (bounded _ post cut)
    rw [List.foldl_append] at held
    exact (before.starved_iff.mp starved).tick held
  · intro ⟨initial, fed⟩
    have bounded : ∀ pre post, calls = pre ++ post →
        (pre.foldl (Deque.apply priority) (Deque.started task slice)).Bounded := by
      intro pre post parts
      obtain ⟨mid, before, _⟩ := run.split parts
      apply bounded_of_fed before initial
      intro first last cut
      exact fed first (last ++ post) (by simp [parts, cut])
    constructor
    · intro pre post parts
      exact (settled_split run parts).1.bounded_iff.mpr (bounded pre post parts)
    · intro pre mid post t parts kept
      rw [List.append_assoc] at parts
      obtain ⟨settled, rest⟩ := settled_split run parts
      obtain ⟨_, during, _⟩ := rest.split rfl
      have less := settled.unlockedTicks_lt (bounded pre _ parts) during ?_ kept
      · have busy :
            (pre.foldl (Deque.apply priority) (Deque.started task slice)).current ≠ none := by
          rw [← settled.settled]
          cases mid with
          | nil => simp [kept.1]
          | cons _ _ => simp [kept.1]
        have most := (bounded pre _ parts busy).2
        have five : (pre.foldl (Deque.apply priority) (Deque.started task slice)).slice ≤ 5 := most
        omega
      · intro first last cut
        rw [← List.foldl_append]
        exact fed (pre ++ first) (last ++ post) (by simp [parts, cut])

/-- Five ticks with another task in the queue, from a full slice. -/
theorem slices_hold_iff_five_ticks :
    ∃ s, Run Step (started 0 5 fun _ => 0) (.addTask 1 :: List.replicate 5 .tick) s ∧
      s.1.currentTask = some 1 ∧
      SlicesHold (started 0 5 fun _ => 0) (.addTask 1 :: List.replicate 5 .tick) := by
  have replayed : (Call.addTask 1 :: List.replicate 5 .tick).foldlM (Deque.attempt fun _ => 0)
      (Deque.started 0 5) = some ⟨some 1, [0], false, false, 5⟩ := by decide +kernel
  obtain ⟨s, run⟩ := (Settled.started 0 5 fun _ => 0).replay replayed
  have current : s.1.currentTask = some 1 := (Settled.run run).settled.trans (by decide +kernel)
  refine ⟨s, run, current, (slices_hold_iff run).mpr ⟨by decide, ?_⟩⟩
  intro pre post parts starved
  have filled : ∀ n < 6, n ≠ 0 → (((Call.addTask 1 :: List.replicate 5 .tick).take n).foldl apply
      (started 0 5 fun _ => 0)).1.tasks.head ≠ none := by decide +kernel
  have short : pre.length < 6 := by
    have := congrArg List.length parts
    simp at this
    omega
  have cut : pre = (Call.addTask 1 :: List.replicate 5 .tick).take pre.length := by
    rw [parts, List.take_left]
  apply filled pre.length short
  · intro empty
    rw [List.length_eq_zero_iff.mp empty] at parts
    cases parts
  · rw [← cut]
    exact starved.2.1

/-- The task that `kstart` gives to `init` has no slice. A first tick wraps it, and
    the task keeps the processor although another one waits. -/
theorem kstart_slice_unbounded :
    ∃ s, Run Step (started 0 0 fun _ => 2) (.addTask 1 :: List.replicate 6 .tick) s ∧
      ¬(started 0 0 fun _ => 2).Bounded ∧ s.2.timeSlice 0 = 2 ^ 32 - 6 ∧
      Kept 0 ((started 0 0 fun _ => 2).apply (.addTask 1)) (List.replicate 6 .tick) ∧
      ((started 0 0 fun _ => 2).apply (.addTask 1)).unlockedTicks (List.replicate 6 .tick) = 6 := by
  have replayed : (Call.addTask 1 :: List.replicate 6 .tick).foldlM (Deque.attempt fun _ => 2)
      (Deque.started 0 0) = some ⟨some 0, [1], false, false, 2 ^ 32 - 6⟩ := by decide +kernel
  obtain ⟨s, run⟩ := (Settled.started 0 0 fun _ => 2).replay replayed
  refine ⟨s, run, ?_, ?_, ?_, ?_⟩
  · intro bounded
    exact absurd (bounded 0 rfl rfl).1 (by decide)
  · rw [run_foldl run]
    decide +kernel
  · simp only [Kept, List.replicate]
    decide +kernel
  · decide +kernel

end Processor

end Mykonos.Tasks
