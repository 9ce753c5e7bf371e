import Mykonos.Lib.Run
import Mykonos.Tasks.Queue

/-! # The blocking queue

`util::Queue` keeps its values in a linked list of elements and its consumers, while
there is no value, in a queue of tasks. A push that finds the list empty wakes one
consumer, which does not look again whether there is a value when it goes on.
-/

namespace Mykonos.Tasks

open Lib

/-- A pointer to a `QueueElement` that is not null. -/
abbrev Element := Nat

namespace BlockingQueue

/-- Where a consumer is with respect to the queue. -/
inductive Place where
  | outside
  /-- Blocked, in `waitingTasks`. -/
  | waiting
  /-- Popped from `waitingTasks`, not yet passed to `addTask`. -/
  | popped
  /-- Passed to `addTask`, still in `yield`. -/
  | woken
  /-- In `pop` after the lock, with its `headElement` and the number of values taken before. -/
  | taking (headElement : Option Element) (turn : Nat)
  deriving Repr, DecidableEq

end BlockingQueue

/-- The fields of `util::Queue` with those of all elements and the links of all tasks. An
    element that is not allocated has no value. `coming` has the consumers that were
    taken out of `waitingTasks` and did not take the lock again yet; the histories are
    those of the values pushed and returned, the latter with their turns. -/
structure BlockingQueue (α : Type*) where
  waitingTasks : Queue := {}
  head : Option Element := none
  tail : Option Element := none
  value : Element → Option α := fun _ => none
  next : Element → Option Element := fun _ => none
  links : Links
  place : Task → BlockingQueue.Place := fun _ => .outside
  coming : List Task := []
  pushed : List α := []
  turns : Nat := 0
  returned : List (Nat × α) := []

namespace BlockingQueue

inductive Event (α : Type*) where
  /-- `push`, with the element that `new` returns, up to the end of the locked section. -/
  | push (newElement : Element) (value : α)
  /-- The end of the `push` that popped the task. -/
  | addTask (wokenUpTask : Task)
  /-- `pop` up to the end of the first locked section. -/
  | pop (task : Task)
  /-- The task goes on after `yield`, up to the end of the second locked section. -/
  | resume (task : Task)
  /-- The end of `pop`. -/
  | finish (task : Task)
  /-- Another queue writes the link of a task that does not wait here. -/
  | relink (task : Task) (next : Option Task)
  deriving Repr, DecidableEq

section Operations

variable {α : Type*}

def push (s : BlockingQueue α) (newElement : Element) (value : α) : BlockingQueue α :=
  let next := Function.update s.next newElement none
  let stored :=
    { s with
      value := Function.update s.value newElement (some value)
      pushed := s.pushed ++ [value] }
  match s.tail with
  | some tail =>
      { stored with
        next := Function.update next tail (some newElement)
        tail := some newElement }
  | none =>
      let popped := s.waitingTasks.pop s.links
      { stored with
        next
        head := some newElement
        tail := some newElement
        waitingTasks := popped.2
        place :=
          popped.1.elim s.place fun wokenUpTask => Function.update s.place wokenUpTask .popped
        coming := s.coming ++ popped.1.toList }

/-- The part of `pop` that takes the head, whether there is one or not. -/
def take (s : BlockingQueue α) (task : Task) : BlockingQueue α :=
  let taken :=
    { s with
      place := Function.update s.place task (.taking s.head s.turns)
      turns := s.turns + s.head.toList.length }
  if s.head = s.tail then { taken with head := none, tail := none }
  else { taken with head := s.head.bind s.next }

/-- `waitingTasks.push(scheduler::block())`. -/
def block (s : BlockingQueue α) (task : Task) : BlockingQueue α :=
  let pushed := s.waitingTasks.push s.links task
  { s with
    waitingTasks := pushed.1
    links := pushed.2
    place := Function.update s.place task .waiting }

def pop (s : BlockingQueue α) (task : Task) : BlockingQueue α :=
  if s.head = none then s.block task else s.take task

/-- The next state; `pop` does not come to its end when it has no element. -/
def after? (s : BlockingQueue α) : Event α → Option (BlockingQueue α)
  | .push newElement value =>
      if (s.value newElement).isNone then some (s.push newElement value) else none
  | .addTask wokenUpTask =>
      if s.place wokenUpTask = .popped then
        some { s with place := Function.update s.place wokenUpTask .woken }
      else none
  | .pop task => if s.place task = .outside then some (s.pop task) else none
  | .resume task =>
      if s.place task = .woken then some ({ s with coming := s.coming.erase task }.take task)
      else none
  | .finish task =>
      match s.place task with
      | .taking (some headElement) turn =>
          (s.value headElement).map fun result =>
            { s with
              value := Function.update s.value headElement none
              place := Function.update s.place task .outside
              returned := s.returned ++ [(turn, result)] }
      | _ => none
  | .relink task next =>
      if s.place task = .waiting then none
      else some { s with links := Function.update s.links task next }

def Step (s : BlockingQueue α) (event : Event α) (t : BlockingQueue α) : Prop :=
  s.after? event = some t

def started (α : Type*) (links : Links) : BlockingQueue α where
  links := links

/-- The values that are pushed and not yet taken. -/
def stored (s : BlockingQueue α) : List α :=
  s.pushed.drop s.turns

/-- What a blocking queue is for: whoever takes the lock as the `n`-th returns the `n`-th
    value, never without one, and for every value there is a consumer on its way while
    others wait. -/
structure Serves (s : BlockingQueue α) : Prop where
  inOrder : ∀ turn value, (turn, value) ∈ s.returned → s.pushed[turn]? = some value
  once : (s.returned.map Prod.fst).Nodup
  nonempty : ∀ task turn, s.place task ≠ .taking none turn
  noneLeft : s.waitingTasks.head ≠ none → s.stored.length ≤ s.coming.length

/-- A push that does not wake anybody finds nobody waiting, and a new consumer does not
    take the value of one that is on its way. -/
def Undisturbed (s : BlockingQueue α) : Event α → Prop
  | .push _ _ => s.tail ≠ none → s.waitingTasks.head = none
  | .pop _ => s.head ≠ none → s.coming.length < s.stored.length
  | .addTask _ | .resume _ | .finish _ | .relink _ _ => True

instance (s : BlockingQueue α) : (event : Event α) → Decidable (s.Undisturbed event)
  | .push _ _ => inferInstanceAs (Decidable (s.tail ≠ none → s.waitingTasks.head = none))
  | .pop _ => inferInstanceAs (Decidable (s.head ≠ none → s.coming.length < s.stored.length))
  | .addTask _ | .resume _ | .finish _ | .relink _ _ => inferInstanceAs (Decidable True)

end Operations

variable {α : Type*} {s t : BlockingQueue α}

/-- What a step can be, `pop` by whether it finds an element. -/
inductive Taken (s : BlockingQueue α) : Event α → BlockingQueue α → Prop where
  | push {newElement : Element} {value : α} (fresh : s.value newElement = none) :
      Taken s (.push newElement value) (s.push newElement value)
  | addTask {wokenUpTask : Task} (popped : s.place wokenUpTask = .popped) :
      Taken s (.addTask wokenUpTask) { s with place := Function.update s.place wokenUpTask .woken }
  | block {task : Task} (outside : s.place task = .outside) (empty : s.head = none) :
      Taken s (.pop task) (s.block task)
  | take {task : Task} (outside : s.place task = .outside) (filled : s.head ≠ none) :
      Taken s (.pop task) (s.take task)
  | resume {task : Task} (woken : s.place task = .woken) :
      Taken s (.resume task) ({ s with coming := s.coming.erase task }.take task)
  | finish {task : Task} {headElement : Element} {turn : Nat} {result : α}
      (at_task : s.place task = .taking (some headElement) turn)
      (read : s.value headElement = some result) :
      Taken s (.finish task)
        { s with
          value := Function.update s.value headElement none
          place := Function.update s.place task .outside
          returned := s.returned ++ [(turn, result)] }
  | relink {task : Task} {next : Option Task} (away : s.place task ≠ .waiting) :
      Taken s (.relink task next) { s with links := Function.update s.links task next }

theorem Step.taken {event : Event α} (taken : s.Step event t) : Taken s event t := by
  unfold Step after? at taken
  cases event with
  | push newElement value =>
      obtain ⟨fresh, result⟩ := Option.ite_none_right_eq_some.mp taken
      obtain rfl := Option.some.inj result
      exact .push (Option.isNone_iff_eq_none.mp fresh)
  | addTask wokenUpTask =>
      obtain ⟨popped, result⟩ := Option.ite_none_right_eq_some.mp taken
      obtain rfl := Option.some.inj result
      exact .addTask popped
  | pop task =>
      obtain ⟨outside, result⟩ := Option.ite_none_right_eq_some.mp taken
      obtain rfl := Option.some.inj result
      unfold pop
      split
      · rename_i empty
        exact .block outside empty
      · rename_i filled
        exact .take outside filled
  | resume task =>
      obtain ⟨woken, result⟩ := Option.ite_none_right_eq_some.mp taken
      obtain rfl := Option.some.inj result
      exact .resume woken
  | finish task =>
      simp only at taken
      split at taken
      · rename_i headElement turn at_task
        obtain ⟨result, read, rfl⟩ := Option.map_eq_some_iff.mp taken
        exact .finish at_task read
      · cases taken
  | relink task next =>
      simp only at taken
      split at taken
      · cases taken
      · rename_i away
        obtain rfl := Option.some.inj taken
        exact .relink away

section Take

variable (s : BlockingQueue α) (task : Task)

@[simp] theorem take_turns : (s.take task).turns = s.turns + s.head.toList.length := by
  unfold take
  split <;> rfl

@[simp] theorem take_pushed : (s.take task).pushed = s.pushed := by
  unfold take
  split <;> rfl

@[simp] theorem take_returned : (s.take task).returned = s.returned := by
  unfold take
  split <;> rfl

@[simp] theorem take_value : (s.take task).value = s.value := by
  unfold take
  split <;> rfl

@[simp] theorem take_place :
    (s.take task).place = Function.update s.place task (.taking s.head s.turns) := by
  unfold take
  split <;> rfl

@[simp] theorem take_waitingTasks : (s.take task).waitingTasks = s.waitingTasks := by
  unfold take
  split <;> rfl

@[simp] theorem take_links : (s.take task).links = s.links := by
  unfold take
  split <;> rfl

@[simp] theorem take_coming : (s.take task).coming = s.coming := by
  unfold take
  split <;> rfl

end Take

section Push

variable (s : BlockingQueue α) (newElement : Element) (value : α)

@[simp] theorem push_turns : (s.push newElement value).turns = s.turns := by
  unfold push
  split <;> rfl

@[simp] theorem push_pushed : (s.push newElement value).pushed = s.pushed ++ [value] := by
  unfold push
  split <;> rfl

@[simp] theorem push_returned : (s.push newElement value).returned = s.returned := by
  unfold push
  split <;> rfl

@[simp] theorem push_value :
    (s.push newElement value).value = Function.update s.value newElement (some value) := by
  unfold push
  split <;> rfl

end Push

theorem push_place (s : BlockingQueue α) (newElement : Element) (value : α) (task : Task) :
    (s.push newElement value).place task = s.place task ∨
    (s.push newElement value).place task = .popped := by
  cases tail : s.tail with
  | some tail => simp [push, tail]
  | none =>
      simp only [push, tail]
      cases (s.waitingTasks.pop s.links).1 with
      | none => exact .inl rfl
      | some wokenUpTask =>
          rw [Option.elim_some, Function.update_apply]
          exact (ite_eq_or_eq _ _ _).symm

/-- The list has the elements of the values that are stored, and every value that was
    taken has one consumer, which returns it. -/
structure Linked (s : BlockingQueue α) (elements : List Element) : Prop where
  threaded : Threaded s.next s.head s.tail elements
  values : elements.map s.value = s.stored.map some
  bound : s.turns ≤ s.pushed.length
  taken : ∀ task e turn, s.place task = .taking (some e) turn →
    e ∉ elements ∧ turn < s.turns ∧ s.value e ≠ none ∧ s.value e = s.pushed[turn]?
  apart : ∀ task other e e' turn turn', s.place task = .taking (some e) turn →
    s.place other = .taking (some e') turn' → task ≠ other → e ≠ e' ∧ turn ≠ turn'
  returned : ∀ turn value, (turn, value) ∈ s.returned →
    turn < s.turns ∧ s.pushed[turn]? = some value
  left : ∀ task e turn, s.place task = .taking (some e) turn → turn ∉ s.returned.map Prod.fst
  once : (s.returned.map Prod.fst).Nodup

namespace Linked

variable {elements : List Element}

theorem length (h : Linked s elements) : elements.length = s.stored.length := by
  simpa using congrArg List.length h.values

theorem head_none_iff (h : Linked s elements) : s.head = none ↔ s.stored = [] := by
  rw [h.threaded.first, List.head?_eq_none_iff, ← List.length_eq_zero_iff, h.length,
    List.length_eq_zero_iff]

theorem tail_none_iff (h : Linked s elements) : s.tail = none ↔ s.stored = [] := by
  rw [h.threaded.last, List.getLast?_eq_none_iff, ← List.length_eq_zero_iff, h.length,
    List.length_eq_zero_iff]

theorem allocated (h : Linked s elements) {e : Element} (member : e ∈ elements) :
    s.value e ≠ none := by
  have value : s.value e ∈ s.stored.map some := h.values ▸ List.mem_map_of_mem member
  obtain ⟨v, _, is⟩ := List.mem_map.mp value
  simp [← is]

/-- What the consumers do that wait or come says nothing about the elements. -/
theorem frame (h : Linked s elements)
    (same : (t.next, t.head, t.tail, t.value, t.pushed, t.turns, t.returned) =
      (s.next, s.head, s.tail, s.value, s.pushed, s.turns, s.returned))
    (places : ∀ task e turn, t.place task = .taking (some e) turn → s.place task =
      .taking (some e) turn) :
    Linked t elements := by
  simp only [Prod.mk.injEq] at same
  obtain ⟨next, head, tail, value, pushed, turns, returned⟩ := same
  have stored : t.stored = s.stored := by rw [stored, pushed, turns, ← stored]
  refine ⟨?_, ?_, ?_, ?_, ?_, ?_, ?_, ?_⟩
  · rw [next, head, tail]
    exact h.threaded
  · rw [value, stored]
    exact h.values
  · rw [pushed, turns]
    exact h.bound
  · rw [turns, value, pushed]
    exact fun task e turn at_task => h.taken task e turn (places task e turn at_task)
  · intro task other e e' turn turn' at_task at_other
    exact h.apart task other e e' turn turn' (places _ _ _ at_task) (places _ _ _ at_other)
  · rw [returned, turns, pushed]
    exact h.returned
  · rw [returned]
    exact fun task e turn at_task => h.left task e turn (places task e turn at_task)
  · rw [returned]
    exact h.once

theorem push (h : Linked s elements) {newElement : Element} {value : α}
    (fresh : s.value newElement = none) :
    Linked (s.push newElement value) (elements ++ [newElement]) := by
  have absent : newElement ∉ elements := fun member => h.allocated member fresh
  have stored : (s.pushed ++ [value]).drop s.turns = s.stored ++ [value] :=
    List.drop_append_of_le_length h.bound
  have values : (elements ++ [newElement]).map (Function.update s.value newElement (some value)) =
      (s.stored ++ [value]).map some := by
    rw [List.map_append, List.map_append, ← h.values]
    simp only [List.map_cons, List.map_nil, Function.update_self]
    congr 1
    apply List.map_congr_left
    intro e member
    apply Function.update_of_ne
    rintro rfl
    exact absent member
  have earlier {turn : Nat} (below : turn < s.turns) :
      (s.pushed ++ [value])[turn]? = s.pushed[turn]? :=
    List.getElem?_append_left (Nat.lt_of_lt_of_le below h.bound)
  have places (task : Task) (e : Element) (turn : Nat)
      (at_task : (s.push newElement value).place task = .taking (some e) turn) :
      s.place task = .taking (some e) turn := by
    rcases s.push_place newElement value task with kept | popped
    · rw [← kept, at_task]
    · cases popped.symm.trans at_task
  refine ⟨?_, ?_, ?_, ?_, ?_, ?_, ?_, ?_⟩
  · have threaded : Threaded (Function.update s.next newElement none) s.head s.tail elements :=
      h.threaded.frame fun e member => Function.update_of_ne (by grind) _ _
    unfold BlockingQueue.push
    cases tail : s.tail with
    | none =>
        rw [tail] at threaded
        obtain rfl : elements = [] := List.getLast?_eq_none_iff.mp threaded.last.symm
        exact .single _ newElement
    | some last =>
        rw [tail] at threaded
        exact threaded.append absent
  · rw [push_value, BlockingQueue.stored, push_pushed, push_turns, stored]
    exact values
  · rw [push_pushed, push_turns, List.length_append]
    exact Nat.le_add_right_of_le h.bound
  · intro task e turn at_task
    obtain ⟨outside, below, there, is⟩ := h.taken task e turn (places task e turn at_task)
    have other : e ≠ newElement := fun same => there (same ▸ fresh)
    rw [push_value, push_turns, push_pushed, Function.update_of_ne other, earlier below]
    exact ⟨by simp [outside, other], below, there, is⟩
  · intro task other e e' turn turn' at_task at_other
    exact h.apart task other e e' turn turn' (places _ _ _ at_task) (places _ _ _ at_other)
  · rw [push_returned, push_turns, push_pushed]
    intro turn v member
    obtain ⟨below, is⟩ := h.returned turn v member
    exact ⟨below, (earlier below).trans is⟩
  · rw [push_returned]
    exact fun task e turn at_task => h.left task e turn (places task e turn at_task)
  · rw [push_returned]
    exact h.once

theorem stored_take (h : Linked s elements) (task : Task) :
    (s.take task).stored = s.stored.tail := by
  have dropped : (s.take task).stored = s.stored.drop s.head.toList.length := by
    rw [stored, take_turns, take_pushed, ← List.drop_drop, ← stored]
  rw [dropped]
  cases head : s.head with
  | none => rw [h.head_none_iff.mp head, List.tail_nil, List.drop_nil]
  | some first => exact List.drop_one

theorem take (h : Linked s elements) {task : Task} : Linked (s.take task) elements.tail := by
  have others {other : Task} {e : Element} {turn : Nat}
      (at_other : (s.take task).place other = .taking (some e) turn) (elsewhere : other ≠ task) :
      s.place other = .taking (some e) turn := by
    rwa [take_place, Function.update_of_ne elsewhere] at at_other
  have mine {e : Element} {turn : Nat} (at_task : (s.take task).place task =
    .taking (some e) turn) :
      s.head = some e ∧ s.turns = turn := by
    rw [take_place, Function.update_self] at at_task
    exact Place.taking.inj at_task
  have more : s.turns ≤ (s.take task).turns := take_turns s task ▸ Nat.le_add_right _ _
  refine ⟨?_, ?_, ?_, ?_, ?_, ?_, ?_, ?_⟩
  · have threaded := h.threaded
    unfold BlockingQueue.take
    cases head : s.head with
    | none =>
        rw [head] at threaded
        obtain rfl := threaded.eq_nil
        obtain tail : s.tail = none := threaded.last
        simp only [tail, if_true]
        exact .empty _
    | some first =>
        rw [head] at threaded
        obtain ⟨rest, rfl⟩ := threaded.eq_cons
        have dropped := threaded.tail_cons
        by_cases alone : s.tail = some first
        · rw [if_pos alone] at dropped
          subst dropped
          simp only [alone, if_true]
          exact .empty _
        · rw [if_neg alone] at dropped
          simp only [Ne.symm alone, if_false]
          exact dropped
  · rw [take_value, h.stored_take, List.map_tail, List.map_tail, h.values]
  · have bound : s.turns + s.head.toList.length ≤ s.pushed.length := by
      cases head : s.head with
      | none => exact h.bound
      | some first =>
          have some_left : s.stored ≠ [] := by simp [← h.head_none_iff, head]
          exact List.length_lt_of_drop_ne_nil some_left
    rwa [take_turns, take_pushed]
  · intro other e turn at_other
    rw [take_value, take_pushed]
    by_cases own : other = task
    · subst own
      obtain ⟨head, rfl⟩ := mine at_other
      have threaded := h.threaded
      rw [head] at threaded
      obtain ⟨rest, rfl⟩ := threaded.eq_cons
      have first := congrArg List.head? h.values
      simp only [List.map_cons, List.head?_cons, List.head?_map, BlockingQueue.stored,
        List.head?_drop] at first
      refine ⟨(List.nodup_cons.mp threaded.nodup).1, by simp [take_turns, head],
        h.allocated List.mem_cons_self, ?_⟩
      cases is : s.pushed[s.turns]? with
      | none => simp [is] at first
      | some v => simpa [is] using first
    · obtain ⟨outside, below, there, is⟩ := h.taken other e turn (others at_other own)
      exact ⟨fun member => outside (List.mem_of_mem_tail member),
        Nat.lt_of_lt_of_le below more, there, is⟩
  · have fresh {other : Task} {e e' : Element} {turn turn' : Nat} (head : s.head = some e)
      (turn_eq : s.turns = turn)
        (at_other : s.place other = .taking (some e') turn') : e ≠ e' ∧ turn ≠ turn' := by
      obtain ⟨outside, below, _⟩ := h.taken other e' turn' at_other
      have member : e ∈ elements := List.mem_of_head? (h.threaded.first ▸ head)
      exact ⟨fun same => outside (same ▸ member), by omega⟩
    intro a b e e' turn turn' at_a at_b differ
    by_cases own : a = task
    · subst own
      obtain ⟨head, now⟩ := mine at_a
      exact fresh head now (others at_b differ.symm)
    · by_cases own' : b = task
      · subst own'
        obtain ⟨head, now⟩ := mine at_b
        obtain ⟨left, right⟩ := fresh head now (others at_a differ)
        exact ⟨left.symm, right.symm⟩
      · exact h.apart a b e e' turn turn' (others at_a own) (others at_b own') differ
  · intro turn v member
    rw [take_returned] at member
    obtain ⟨below, is⟩ := h.returned turn v member
    rw [take_pushed]
    exact ⟨Nat.lt_of_lt_of_le below more, is⟩
  · intro other e turn at_other
    rw [take_returned]
    by_cases own : other = task
    · subst own
      obtain ⟨_, rfl⟩ := mine at_other
      intro member
      obtain ⟨⟨turn, v⟩, member, same⟩ := List.mem_map.mp member
      exact Nat.lt_irrefl _ (same ▸ (h.returned turn v member).1)
    · exact h.left other e turn (others at_other own)
  · rw [take_returned]
    exact h.once

theorem finish (h : Linked s elements) {task : Task} {e : Element} {turn : Nat} {result : α}
    (at_task : s.place task = .taking (some e) turn) (read : s.value e = some result) :
    Linked
      { s with
        value := Function.update s.value e none
        place := Function.update s.place task .outside
        returned := s.returned ++ [(turn, result)] } elements := by
  obtain ⟨outside, below, _, is⟩ := h.taken task e turn at_task
  have others {other : Task} {e' : Element} {turn' : Nat}
      (at_other : Function.update s.place task .outside other = .taking (some e') turn') :
      other ≠ task ∧ s.place other = .taking (some e') turn' := by
    grind
  refine ⟨h.threaded, ?_, h.bound, ?_, ?_, ?_, ?_, ?_⟩
  · refine Eq.trans ?_ h.values
    apply List.map_congr_left
    intro e' member
    apply Function.update_of_ne
    rintro rfl
    exact outside member
  · intro other e' turn' at_other
    obtain ⟨elsewhere, was⟩ := others at_other
    have differ := (h.apart other task e' e turn' turn was at_task elsewhere).1
    simp only [Function.update_of_ne differ]
    exact h.taken other e' turn' was
  · intro a b e' e'' turn' turn'' at_a at_b
    exact h.apart a b e' e'' turn' turn'' (others at_a).2 (others at_b).2
  · intro turn' v member
    rcases List.mem_append.mp member with before | last
    · exact h.returned turn' v before
    · obtain ⟨rfl, rfl⟩ := Prod.mk.inj (List.mem_singleton.mp last)
      exact ⟨below, is ▸ read⟩
  · intro other e' turn' at_other
    obtain ⟨elsewhere, was⟩ := others at_other
    have differ := (h.apart other task e' e turn' turn was at_task elsewhere).2
    simpa [differ] using h.left other e' turn' was
  · have left := h.left task e turn at_task
    rw [List.map_append, List.map_singleton]
    exact List.nodup_append_comm.mp (List.nodup_cons.mpr ⟨left, h.once⟩)

theorem step (h : Linked s elements) {event : Event α} (taken : s.Step event t) :
    ∃ elements', Linked t elements' := by
  cases taken.taken with
  | push fresh => exact ⟨_, h.push fresh⟩
  | addTask popped => exact ⟨elements, h.frame rfl (by grind)⟩
  | block outside empty =>
      refine ⟨elements, h.frame rfl ?_⟩
      unfold block
      grind
  | take outside filled => exact ⟨_, h.take⟩
  | @resume task woken =>
      have framed : Linked { s with coming := s.coming.erase task } elements :=
        h.frame rfl fun _ _ _ => id
      exact ⟨_, framed.take⟩
  | finish at_task read => exact ⟨elements, h.finish at_task read⟩
  | relink away => exact ⟨elements, h.frame rfl fun _ _ _ => id⟩

end Linked

/-- The consumers that wait and those that come. -/
structure Queued (s : BlockingQueue α) (waiting : List Task) : Prop where
  shows : s.waitingTasks.Shows s.links waiting
  members : ∀ task, task ∈ waiting ↔ s.place task = .waiting
  coming : ∀ task, task ∈ s.coming ↔ s.place task = .popped ∨ s.place task = .woken
  nodup : s.coming.Nodup

namespace Queued

variable {waiting : List Task}

theorem frame (h : Queued s waiting)
    (same : (t.waitingTasks, t.links, t.coming) = (s.waitingTasks, s.links, s.coming))
    (waits : ∀ task, t.place task = .waiting ↔ s.place task = .waiting)
    (comes : ∀ task, t.place task = .popped ∨ t.place task = .woken ↔
      s.place task = .popped ∨ s.place task = .woken) :
    Queued t waiting := by
  simp only [Prod.mk.injEq] at same
  obtain ⟨waitingTasks, links, coming⟩ := same
  refine ⟨?_, ?_, ?_, ?_⟩
  · rw [waitingTasks, links]
    exact h.shows
  · exact fun task => (h.members task).trans (waits task).symm
  · rw [coming]
    exact fun task => (h.coming task).trans (comes task).symm
  · rw [coming]
    exact h.nodup

theorem push (h : Queued s waiting) (newElement : Element) (value : α) :
    Queued (s.push newElement value) (if s.tail = none then waiting.tail else waiting) := by
  obtain ⟨first, rest⟩ := h.shows.pop
  cases tail : s.tail with
  | some last =>
      rw [if_neg (Option.some_ne_none last)]
      simp only [BlockingQueue.push, tail]
      exact h.frame rfl (fun _ => Iff.rfl) fun _ => Iff.rfl
  | none =>
      rw [if_pos rfl]
      simp only [BlockingQueue.push, tail]
      obtain ⟨shows, members, coming, nodup⟩ := h
      cases waiting with
      | nil =>
          rw [List.head?_nil] at first
          simp only [first, Option.elim_none, Option.toList_none, List.append_nil]
          exact ⟨rest, members, coming, nodup⟩
      | cons wokenUpTask others =>
          rw [List.head?_cons] at first
          have distinct := shows.threaded.nodup
          have waits := (members wokenUpTask).mp List.mem_cons_self
          have absent : wokenUpTask ∉ s.coming := by simp [coming, waits]
          simp only [first, Option.elim_some, Option.toList_some]
          refine ⟨rest, ?_, ?_, ?_⟩
          · grind
          · grind
          · exact List.nodup_append_comm.mp (List.nodup_cons.mpr ⟨absent, nodup⟩)

theorem step (h : Queued s waiting) {event : Event α} (taken : s.Step event t) :
    ∃ waiting', Queued t waiting' := by
  cases taken.taken with
  | @push newElement value fresh => exact ⟨_, h.push newElement value⟩
  | addTask popped => exact ⟨waiting, h.frame rfl (by grind) (by grind)⟩
  | @block task outside empty =>
      obtain ⟨shows, members, coming, nodup⟩ := h
      have absent : task ∉ waiting := by simp [members, outside]
      unfold block
      exact ⟨_, shows.push absent, by grind, by grind, nodup⟩
  | take outside filled =>
      refine ⟨waiting, h.frame (by simp) ?_ ?_⟩
      · rw [take_place]
        grind
      · rw [take_place]
        grind
  | @resume task woken =>
      obtain ⟨shows, members, coming, nodup⟩ := h
      refine ⟨waiting, ?_, ?_, ?_, ?_⟩
      · rw [take_waitingTasks, take_links]
        exact shows
      · rw [take_place]
        grind
      · intro other
        rw [take_place, take_coming, nodup.mem_erase_iff, coming]
        grind
      · rw [take_coming]
        exact nodup.erase task
  | finish at_task read => exact ⟨waiting, h.frame rfl (by grind) (by grind)⟩
  | relink away =>
      refine ⟨waiting, ?_, h.members, h.coming, h.nodup⟩
      apply h.shows.frame
      intro a member
      apply Function.update_of_ne
      rintro rfl
      exact away ((h.members a).mp member)

/-- A push takes only consumers out of the queue that wait. -/
theorem push_place (h : Queued s waiting) (newElement : Element) (value : α) (task : Task) :
    (s.push newElement value).place task = s.place task ∨
      s.place task = .waiting ∧ (s.push newElement value).place task = .popped := by
  have first := h.shows.pop.1
  have members := h.members task
  cases tail : s.tail with
  | some last => simp [BlockingQueue.push, tail]
  | none =>
      simp only [BlockingQueue.push, tail, first]
      cases waiting with
      | nil => exact .inl rfl
      | cons wokenUpTask others =>
          rw [List.head?_cons, Option.elim_some]
          grind

/-- Who is not in `pop` does not get there by what others do. -/
theorem stays_outside (h : Queued s waiting) {event : Event α}
    (taken : s.Step event t) {task : Task} (outside : s.place task = .outside)
    (other : event ≠ .pop task) : t.place task = .outside := by
  cases taken.taken with
  | @push newElement value fresh =>
      rcases h.push_place newElement value task with kept | ⟨waits, _⟩
      · exact kept.trans outside
      · cases outside.symm.trans waits
  | addTask popped => grind
  | @block popping _ empty =>
      have elsewhere : task ≠ popping := fun same => other (congrArg Event.pop same.symm)
      exact (Function.update_of_ne elsewhere _ _).trans outside
  | @take popping _ filled =>
      have elsewhere : task ≠ popping := fun same => other (congrArg Event.pop same.symm)
      rw [take_place, Function.update_of_ne elsewhere, outside]
  | @resume resuming woken =>
      have elsewhere : task ≠ resuming := by
        rintro rfl
        cases outside.symm.trans woken
      rw [take_place, Function.update_of_ne elsewhere]
      exact outside
  | finish at_task read => grind
  | relink away => exact outside

end Queued

/-- There is a value for every consumer that comes, and one that comes for every value
    while others wait. -/
structure Matched (s : BlockingQueue α) : Prop where
  enough : s.coming.length ≤ s.stored.length
  noneLeft : s.waitingTasks.head ≠ none → s.stored.length ≤ s.coming.length
  nonempty : ∀ task turn, s.place task ≠ .taking none turn

namespace Matched

variable {elements : List Element} {waiting : List Task}

theorem frame (h : Matched s)
    (same : (t.waitingTasks, t.stored, t.coming) = (s.waitingTasks, s.stored, s.coming))
    (places : ∀ task turn, t.place task = .taking none turn → s.place task = .taking none turn) :
    Matched t := by
  simp only [Prod.mk.injEq] at same
  obtain ⟨waitingTasks, stored, coming⟩ := same
  refine ⟨?_, ?_, fun task turn at_task => h.nonempty task turn (places task turn at_task)⟩
  · rw [coming, stored]
    exact h.enough
  · rw [waitingTasks, coming, stored]
    exact h.noneLeft

theorem push (h : Matched s) (linked : Linked s elements) (queued : Queued s waiting)
    (unwatched : s.tail ≠ none → s.waitingTasks.head = none) (newElement : Element) (value : α) :
    Matched (s.push newElement value) := by
  have stored : (s.pushed ++ [value]).drop s.turns = s.stored ++ [value] :=
    List.drop_append_of_le_length linked.bound
  have places (task : Task) (turn : Nat) :
      (s.push newElement value).place task ≠ .taking none turn := by
    rcases s.push_place newElement value task with kept | popped
    · exact kept ▸ h.nonempty task turn
    · simp [popped]
  cases tail : s.tail with
  | some last =>
      have nobody := unwatched (by simp [tail])
      have enough := h.enough
      refine ⟨?_, ?_, places⟩
      · simp only [BlockingQueue.push, tail, BlockingQueue.stored, stored]
        exact enough.trans (List.length_append ▸ Nat.le_add_right _ _)
      · simp [BlockingQueue.push, tail, nobody]
  | none =>
      have empty := linked.tail_none_iff.mp tail
      have nobody : s.coming = [] := by
        have enough := h.enough
        rw [empty] at enough
        exact List.eq_nil_of_length_eq_zero (Nat.le_zero.mp enough)
      obtain ⟨first, rest⟩ := queued.shows.pop
      rw [empty] at stored
      refine ⟨?_, ?_, places⟩
      · simp only [BlockingQueue.push, tail, BlockingQueue.stored, stored, nobody, first]
        cases waiting <;> simp
      · simp only [BlockingQueue.push, tail, BlockingQueue.stored, stored, nobody, first, rest.head]
        cases waiting <;> simp

theorem take (h : Linked s elements) (filled : s.head ≠ none)
    (enough : s.coming.length < s.stored.length)
    (noneLeft : s.waitingTasks.head ≠ none → s.stored.length ≤ s.coming.length + 1)
    (nonempty : ∀ task turn, s.place task ≠ .taking none turn) (task : Task) :
    Matched (s.take task) := by
  refine ⟨?_, ?_, ?_⟩
  · rw [take_coming, h.stored_take, List.length_tail]
    omega
  · rw [take_waitingTasks, take_coming, h.stored_take, List.length_tail]
    intro some_waits
    have left := noneLeft some_waits
    omega
  · intro other turn
    rw [take_place]
    grind

theorem step (h : Matched s) (linked : Linked s elements) (queued : Queued s waiting)
    {event : Event α} (undisturbed : s.Undisturbed event) (taken : s.Step event t) : Matched t := by
  cases taken.taken with
  | @push newElement value fresh => exact h.push linked queued undisturbed newElement value
  | addTask popped => exact h.frame rfl (by grind)
  | block outside empty =>
      have none_stored := linked.head_none_iff.mp empty
      refine ⟨h.enough, ?_, ?_⟩
      · intro _
        exact (congrArg List.length none_stored).trans_le (Nat.zero_le _)
      · intro other turn
        have nonempty := h.nonempty other turn
        unfold block
        grind
  | @take task outside filled =>
      have more := undisturbed filled
      exact take linked filled more (fun some_waits => Nat.le_succ_of_le (h.noneLeft some_waits))
        h.nonempty task
  | @resume task woken =>
      have member : task ∈ s.coming := (queued.coming task).mpr (.inr woken)
      have fewer := List.length_erase_of_mem member
      have some_come := List.length_pos_of_mem member
      have enough := h.enough
      have filled : s.head ≠ none := by
        intro empty
        rw [linked.head_none_iff.mp empty, List.length_nil] at enough
        omega
      have framed : Linked { s with coming := s.coming.erase task } elements :=
        linked.frame rfl fun _ _ _ => id
      refine take framed filled ?_ ?_ h.nonempty task
      · simp only [fewer]
        exact Nat.lt_of_lt_of_le (Nat.sub_one_lt_of_lt some_come) enough
      · intro some_waits
        simp only [fewer]
        rw [Nat.sub_add_cancel some_come]
        exact h.noneLeft some_waits
  | finish at_task read => exact h.frame rfl (by grind)
  | relink away => exact h.frame rfl fun _ _ => id

end Matched

theorem started_linked (links : Links) : Linked (started α links) [] := by
  refine ⟨.empty _, rfl, Nat.le_refl 0, ?_, ?_, ?_, ?_, .nil⟩
  all_goals simp [started]

theorem started_queued (links : Links) : Queued (started α links) [] := by
  refine ⟨.empty links, ?_, ?_, .nil⟩
  all_goals simp [started]

theorem started_matched (links : Links) : Matched (started α links) := by
  refine ⟨Nat.le_refl 0, ?_, ?_⟩
  all_goals simp [started]

/-- No element is lost and no task, whoever overtakes whom. -/
theorem runs_linked {links : Links} {events : List (Event α)}
    (run : Run Step (started α links) events s) :
    (∃ elements, Linked s elements) ∧ ∃ waiting, Queued s waiting :=
  ⟨run.invariant (P := fun s => ∃ elements, Linked s elements) ⟨[], started_linked links⟩
      fun _ _ _ ⟨_, linked⟩ taken => linked.step taken,
    run.invariant (P := fun s => ∃ waiting, Queued s waiting) ⟨[], started_queued links⟩
      fun _ _ _ ⟨_, queued⟩ taken => queued.step taken⟩

def UndisturbedStep (s : BlockingQueue α) (event : Event α) (t : BlockingQueue α) : Prop :=
  s.Undisturbed event ∧ s.Step event t

theorem runs_matched {links : Links} {events : List (Event α)}
    (run : Run UndisturbedStep (started α links) events s) : Matched s := by
  induction run with
  | start => exact started_matched links
  | next before last ih =>
      obtain ⟨⟨_, linked⟩, _, queued⟩ := runs_linked (before.mono fun _ _ _ taken => taken.2)
      exact ih.step linked queued last.1 last.2

theorem undisturbed_serves (links : Links) (events : List (Event α)) (s : BlockingQueue α)
    (run : Run UndisturbedStep (started α links) events s) : s.Serves := by
  obtain ⟨⟨elements, linked⟩, _⟩ := runs_linked (run.mono fun _ _ _ taken => taken.2)
  have matched := runs_matched run
  exact ⟨fun turn value member => (linked.returned turn value member).2, linked.once,
    matched.nonempty, matched.noneLeft⟩

/-- One consumer is woken, the other one finds a value. -/
theorem undisturbed_serves_both :
    ∃ s, Run UndisturbedStep (started Nat fun _ => none)
        [.pop 1, .push 10 5, .addTask 1, .resume 1, .push 11 6, .pop 2, .finish 2, .finish 1] s ∧
      s.returned = [(1, 6), (0, 5)] ∧ s.Serves := by
  have computed :
      ∃ s, [Event.pop 1, .push 10 5, .addTask 1, .resume 1, .push 11 6, .pop 2, .finish 2,
      .finish 1].foldlM (fun s event => if s.Undisturbed event then s.after? event else none)
        (started Nat fun _ => none) = some s ∧ s.returned = [(1, 6), (0, 5)] :=
    ⟨_, rfl, by decide +kernel⟩
  obtain ⟨s, replayed, returned⟩ := computed
  have run : Run UndisturbedStep _ _ s := Run.of_foldlM_guarded replayed
  exact ⟨s, run, returned, undisturbed_serves _ _ s run⟩

/-- A new consumer takes the value of the one that was woken, which then has a null head;
    and of two that wait only one is woken for two values. -/
theorem serves_not_all :
    (∃ s, Run Step (started Nat fun _ => none) [.pop 1, .push 10 5, .pop 2, .addTask 1,
      .resume 1] s ∧
      s.place 1 = .taking none 1 ∧ ¬s.Serves) ∧
    ∃ s, Run Step (started Nat fun _ => none)
        [.pop 1, .pop 2, .push 10 5, .push 11 6, .addTask 1, .resume 1, .finish 1] s ∧
      s.stored = [6] ∧ s.waitingTasks.head = some 2 ∧ s.coming = [] ∧ ¬s.Serves := by
  have overtaken : ∃ s, [Event.pop 1, .push 10 5, .pop 2, .addTask 1, .resume 1].foldlM after?
      (started Nat fun _ => none) = some s ∧ s.place 1 = .taking none 1 :=
    ⟨_, rfl, by decide +kernel⟩
  have left : ∃ s, [Event.pop 1, .pop 2, .push 10 5, .push 11 6, .addTask 1, .resume 1,
    .finish 1].foldlM after?
      (started Nat fun _ => none) = some s ∧ s.stored = [6] ∧ s.waitingTasks.head = some 2 ∧
      s.coming = [] :=
    ⟨_, rfl, by decide +kernel⟩
  obtain ⟨s, replayed, at_null⟩ := overtaken
  obtain ⟨t, replayed', stored, waits, nobody⟩ := left
  refine ⟨⟨s, Run.of_foldlM replayed, at_null, ?_⟩, t, Run.of_foldlM replayed', stored,
    waits, nobody, ?_⟩
  · intro serves
    exact serves.nonempty 1 1 at_null
  · intro serves
    have enough := serves.noneLeft (by simp [waits])
    simp [stored, nobody] at enough

end BlockingQueue

end Mykonos.Tasks
