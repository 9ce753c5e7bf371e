import Mathlib.Algebra.Group.Nat.Defs
import Mathlib.Tactic.Common
import Mykonos.Lib.Threaded

/-! # The queue of tasks

`task::Queue` keeps its tasks in a singly linked list that runs through the
`next` fields of the control blocks. Its operations are those of a list as long
as the task that goes in is in no queue yet.
-/

namespace Mykonos.Tasks

open Lib

/-- A pointer to a control block that is not null. -/
abbrev Task := Nat

/-- The `next` fields of all control blocks. -/
abbrev Links := Task → Option Task

/-- `size` is an unsigned of 32 bits. -/
structure Queue where
  head : Option Task := none
  tail : Option Task := none
  size : Nat := 0
  deriving Repr, DecidableEq

namespace Queue

def push (q : Queue) (next : Links) (value : Task) : Queue × Links :=
  let size := (q.size + 1) % 2 ^ 32
  match q.head with
  | none => (⟨some value, some value, size⟩, next)
  | some head =>
      match q.tail with
      | none => (⟨some head, some value, size⟩, next)
      | some tail => (⟨some head, some value, size⟩, Function.update next tail (some value))

def pushFront (q : Queue) (next : Links) (value : Task) : Queue × Links :=
  let size := (q.size + 1) % 2 ^ 32
  match q.head with
  | none => (⟨some value, some value, size⟩, next)
  | some head => (⟨some value, q.tail, size⟩, Function.update next value (some head))

def pop (q : Queue) (next : Links) : Option Task × Queue :=
  match q.head with
  | none => (none, q)
  | some head =>
      let size := (q.size + 2 ^ 32 - 1) % 2 ^ 32
      if q.tail = some head then (some head, ⟨none, none, size⟩)
      else (some head, ⟨next head, q.tail, size⟩)

def getSize (q : Queue) : Nat :=
  q.size

/-- The queue stands for the list of tasks that popping it would return. -/
structure Shows (q : Queue) (next : Links) (tasks : List Task) : Prop where
  threaded : Threaded next q.head q.tail tasks
  size : q.size = tasks.length % 2 ^ 32

variable {q : Queue} {next next' : Links} {tasks : List Task} {x : Task}

theorem pop_fst : (q.pop next).1 = q.head := by
  unfold pop
  grind

theorem Shows.empty (next : Links) : Shows {} next [] :=
  ⟨.empty next, rfl⟩

theorem Shows.frame (h : q.Shows next tasks) (same : ∀ a ∈ tasks, next' a = next a) :
    q.Shows next' tasks :=
  ⟨h.threaded.frame same, h.size⟩

theorem Shows.head (h : q.Shows next tasks) : q.head = tasks.head? :=
  h.threaded.first

theorem Shows.push (h : q.Shows next tasks) (absent : x ∉ tasks) :
    (q.push next x).1.Shows (q.push next x).2 (tasks ++ [x]) := by
  obtain ⟨head, tail, size⟩ := q
  obtain ⟨threaded, counted⟩ := h
  simp only at threaded counted
  have grown : (size + 1) % 2 ^ 32 = (tasks ++ [x]).length % 2 ^ 32 := by
    rw [counted, List.length_append, List.length_singleton, Nat.mod_add_mod]
  unfold Queue.push
  cases head with
  | none =>
      obtain rfl := threaded.eq_nil
      exact ⟨.single next x, grown⟩
  | some first =>
      obtain ⟨rest, rfl⟩ := threaded.eq_cons
      cases tail with
      | none => cases List.getLast?_eq_none_iff.mp threaded.last.symm
      | some last => exact ⟨threaded.append absent, grown⟩

/-- A push writes no link but that of the last task in the queue. -/
theorem Shows.push_frame (h : q.Shows next tasks) {y : Task} (outside : y ∉ tasks) :
    (q.push next x).2 y = next y := by
  obtain ⟨head, tail, size⟩ := q
  unfold Queue.push
  cases head with
  | none => rfl
  | some first =>
      cases tail with
      | none => rfl
      | some last =>
          apply Function.update_of_ne
          rintro rfl
          exact outside (List.mem_of_getLast? h.threaded.last.symm)

theorem Shows.pushFront (h : q.Shows next tasks) (absent : x ∉ tasks) :
    (q.pushFront next x).1.Shows (q.pushFront next x).2 (x :: tasks) := by
  obtain ⟨head, tail, size⟩ := q
  obtain ⟨threaded, counted⟩ := h
  simp only at threaded counted
  have grown : (size + 1) % 2 ^ 32 = (x :: tasks).length % 2 ^ 32 := by
    rw [counted, List.length_cons, Nat.mod_add_mod]
  unfold Queue.pushFront
  cases head with
  | none =>
      obtain rfl := threaded.eq_nil
      exact ⟨.single next x, grown⟩
  | some first => exact ⟨threaded.prepend absent, grown⟩

/-- A push at the front writes no link but that of the new task. -/
theorem pushFront_frame {y : Task} (other : y ≠ x) : (q.pushFront next x).2 y = next y := by
  unfold Queue.pushFront
  cases q.head with
  | none => rfl
  | some first => exact Function.update_of_ne other _ _

theorem Shows.pop (h : q.Shows next tasks) :
    (q.pop next).1 = tasks.head? ∧ (q.pop next).2.Shows next tasks.tail := by
  obtain ⟨head, tail, size⟩ := q
  have threaded := h.threaded
  have counted := h.size
  simp only at threaded counted
  unfold Queue.pop
  cases head with
  | none =>
      obtain rfl := threaded.eq_nil
      exact ⟨rfl, h⟩
  | some first =>
      obtain ⟨rest, rfl⟩ := threaded.eq_cons
      have shrunk : (size + 2 ^ 32 - 1) % 2 ^ 32 = rest.length % 2 ^ 32 := by
        rw [List.length_cons] at counted
        omega
      generalize (size + 2 ^ 32 - 1) % 2 ^ 32 = less at shrunk ⊢
      have dropped := threaded.tail_cons
      split at dropped
      · rename_i alone
        subst dropped
        simp only [alone, if_true]
        exact ⟨rfl, .empty next, shrunk⟩
      · rename_i more
        simp only [more, if_false]
        exact ⟨rfl, dropped, shrunk⟩

/-- Several queues over the same control blocks, no task in two of them. -/
structure Apart {ι : Type*} (queues : ι → Queue) (next : Links) (tasks : ι → List Task) : Prop where
  shows : ∀ i, (queues i).Shows next (tasks i)
  apart : ∀ i j x, x ∈ tasks i → x ∈ tasks j → i = j

namespace Apart

variable {ι : Type*} [DecidableEq ι] {queues : ι → Queue} {tasks : ι → List Task}

theorem push (h : Apart queues next tasks) (i : ι) (absent : ∀ j, x ∉ tasks j) :
    Apart (Function.update queues i ((queues i).push next x).1) ((queues i).push next x).2
      (Function.update tasks i (tasks i ++ [x])) := by
  constructor
  · intro j
    by_cases same : j = i
    · subst same
      simpa using (h.shows j).push (absent j)
    · simp only [Function.update_of_ne same]
      apply (h.shows j).frame
      intro a member
      exact (h.shows i).push_frame fun other => same (h.apart j i a member other)
  · intro j k y
    grind [h.apart]

theorem pushFront (h : Apart queues next tasks) (i : ι) (absent : ∀ j, x ∉ tasks j) :
    Apart (Function.update queues i ((queues i).pushFront next x).1) ((queues i).pushFront next x).2
      (Function.update tasks i (x :: tasks i)) := by
  constructor
  · intro j
    by_cases same : j = i
    · subst same
      simpa using (h.shows j).pushFront (absent j)
    · simp only [Function.update_of_ne same]
      apply (h.shows j).frame
      intro a member
      exact pushFront_frame fun other => absent j (other ▸ member)
  · intro j k y
    grind [h.apart]

theorem pop (h : Apart queues next tasks) (i : ι) :
    Apart (Function.update queues i ((queues i).pop next).2) next
      (Function.update tasks i (tasks i).tail) := by
  constructor
  · intro j
    by_cases same : j = i
    · subst same
      simpa using (h.shows j).pop.2
    · simpa only [Function.update_of_ne same] using h.shows j
  · intro j k y
    have smaller : ∀ m, y ∈ Function.update tasks i (tasks i).tail m → y ∈ tasks m := by
      intro m member
      by_cases same : m = i
      · subst same
        exact List.mem_of_mem_tail (by simpa using member)
      · simpa only [Function.update_of_ne same] using member
    exact fun inj ink => h.apart j k y (smaller j inj) (smaller k ink)

end Apart

end Queue

end Mykonos.Tasks
