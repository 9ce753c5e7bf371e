import Mykonos.Tasks.BlockingQueue

/-! # The cleaner

One thread takes the objects from the queue and calls their handlers. Being the only
consumer, it is never overtaken, and nobody else waits when it is woken.
-/

namespace Mykonos.Tasks

open Lib

/-- The object and its handler are addresses. -/
structure CleanerObject where
  object : Nat
  handler : Nat
  deriving Repr, DecidableEq

/-- The queue, the `object` of the loop of `cleanerThread` while it has one, and the
    objects whose handlers were called. -/
structure Cleaner where
  queue : BlockingQueue CleanerObject
  object : Option CleanerObject := none
  handled : List CleanerObject := []

namespace Cleaner

inductive Event where
  /-- `addObject` up to the end of the locked section of its push. -/
  | addObject (newElement : Element) (object handler : Nat)
  /-- The end of the push that popped the task. -/
  | addTask (wokenUpTask : Task)
  /-- Another queue writes the link of a task that does not wait here. -/
  | relink (task : Task) (next : Option Task)
  /-- The next step of `cleanerThread`. -/
  | clean
  deriving Repr, DecidableEq

def onQueue (s : Cleaner) (event : BlockingQueue.Event CleanerObject) : Option Cleaner :=
  (s.queue.after? event).map fun queue => { s with queue }

/-- The loop of the thread: it calls the handler of its object, or goes on with `pop`. -/
def cleanerThread (cleaner : Task) (s : Cleaner) : Option Cleaner :=
  match s.object with
  | some object => some { s with object := none, handled := s.handled ++ [object] }
  | none =>
      match s.queue.place cleaner with
      | .outside => s.onQueue (.pop cleaner)
      | .waiting | .popped => none
      | .woken => s.onQueue (.resume cleaner)
      | .taking headElement _ =>
          { s with object := headElement.bind s.queue.value }.onQueue (.finish cleaner)

def after? (cleaner : Task) (s : Cleaner) : Event → Option Cleaner
  | .addObject newElement object handler => s.onQueue (.push newElement ⟨object, handler⟩)
  | .addTask wokenUpTask => s.onQueue (.addTask wokenUpTask)
  | .relink task next => s.onQueue (.relink task next)
  | .clean => s.cleanerThread cleaner

def Step (cleaner : Task) (s : Cleaner) (event : Event) (t : Cleaner) : Prop :=
  s.after? cleaner event = some t

def started (links : Links) : Cleaner where
  queue := .started _ links

end Cleaner

namespace BlockingQueue

variable {α : Type*} {q r : BlockingQueue α} {cleaner : Task}

/-- One task is the only consumer. -/
structure Sole (cleaner : Task) (q : BlockingQueue α) : Prop where
  linked : ∃ elements, Linked q elements
  queued : ∃ waiting, Queued q waiting
  matched : Matched q
  others : ∀ task, task ≠ cleaner → q.place task = .outside

namespace Sole

theorem nobody_comes (h : Sole cleaner q) (here : q.place cleaner ≠ .popped)
    (away : q.place cleaner ≠ .woken) :
    q.coming = [] := by
  obtain ⟨_, queued⟩ := h.queued
  apply List.eq_nil_iff_forall_not_mem.mpr
  intro task member
  have comes := (queued.coming task).mp member
  by_cases own : task = cleaner
  · subst own
    exact comes.elim here away
  · simp [h.others task own] at comes

/-- The consumer waits only for an empty queue. -/
theorem waits_empty (h : Sole cleaner q) (waits : q.place cleaner = .waiting) : q.stored = [] := by
  obtain ⟨waiting, queued⟩ := h.queued
  have nobody := h.nobody_comes (by simp [waits]) (by simp [waits])
  have filled : q.waitingTasks.head ≠ none := by
    rw [queued.shows.head]
    intro empty
    have member := (queued.members cleaner).mpr waits
    rw [List.head?_eq_none_iff.mp empty] at member
    cases member
  have few := h.matched.noneLeft filled
  rw [nobody] at few
  exact List.eq_nil_of_length_eq_zero (Nat.le_zero.mp few)

theorem undisturbed (h : Sole cleaner q) {event : Event α}
    (own : ∀ task, event = .pop task → task = cleaner) (taken : q.Step event r) :
    q.Undisturbed event := by
  cases event with
  | push newElement value =>
      intro filled
      obtain ⟨waiting, queued⟩ := h.queued
      obtain ⟨elements, linked⟩ := h.linked
      rw [queued.shows.head, List.head?_eq_none_iff]
      apply List.eq_nil_iff_forall_not_mem.mpr
      intro task member
      have waits := (queued.members task).mp member
      by_cases same : task = cleaner
      · subst same
        exact filled (linked.tail_none_iff.mpr (h.waits_empty waits))
      · simp [h.others task same] at waits
  | pop task =>
      intro filled
      obtain rfl := own task rfl
      obtain ⟨outside, _⟩ := Option.ite_none_right_eq_some.mp taken
      obtain ⟨elements, linked⟩ := h.linked
      rw [h.nobody_comes (by simp [outside]) (by simp [outside])]
      exact List.length_pos_iff.mpr fun empty => filled (linked.head_none_iff.mpr empty)
  | addTask _ | resume _ | finish _ | relink _ _ => trivial

theorem step (h : Sole cleaner q) {event : Event α}
    (own : ∀ task, event = .pop task → task = cleaner) (taken : q.Step event r) :
    Sole cleaner r := by
  obtain ⟨elements, linked⟩ := h.linked
  obtain ⟨waiting, queued⟩ := h.queued
  refine ⟨linked.step taken, queued.step taken,
    h.matched.step linked queued (h.undisturbed own taken) taken, ?_⟩
  intro task other
  exact queued.stays_outside taken (h.others task other) fun popped => other (own task popped)

end Sole

/-- How many values the consumer has taken and not yet returned. -/
def Place.held : Place → Nat
  | .taking _ _ => 1
  | .outside | .waiting | .popped | .woken => 0

end BlockingQueue

namespace Cleaner

variable {cleaner : Task} {s t : Cleaner}

/-- The objects that `pop` has returned. -/
def returned (s : Cleaner) : List CleanerObject :=
  s.handled ++ s.object.toList

/-- The objects come back from the queue as they were pushed, the first ones first. -/
structure Kept (cleaner : Task) (s : Cleaner) : Prop where
  sole : s.queue.Sole cleaner
  busy : s.object ≠ none → s.queue.place cleaner = .outside
  order : s.returned = s.queue.pushed.take s.returned.length
  turns : s.queue.turns = s.returned.length + (s.queue.place cleaner).held
  turn : ∀ headElement turn, s.queue.place cleaner = .taking headElement turn →
    turn = s.returned.length

namespace Kept

/-- What others do to the queue. -/
theorem frame (h : Kept cleaner s) {r : BlockingQueue CleanerObject} (sole : r.Sole cleaner)
    (pushed : s.queue.pushed <+: r.pushed) (turns : r.turns = s.queue.turns)
    (place : r.place cleaner = s.queue.place cleaner ∨
      s.queue.place cleaner ≠ .outside ∧ (s.queue.place cleaner).held = 0 ∧
      (r.place cleaner).held = 0) :
    Kept cleaner { s with queue := r } := by
  have held : (r.place cleaner).held = (s.queue.place cleaner).held := by grind
  refine ⟨sole, ?_, ?_, ?_, ?_⟩
  · intro busy
    have outside := h.busy busy
    rcases place with same | ⟨inside, _⟩
    · exact same.trans outside
    · exact absurd outside inside
  · obtain ⟨more, pushed⟩ := pushed
    have bound : s.returned.length ≤ s.queue.pushed.length := by
      have shorter := congrArg List.length h.order
      rw [List.length_take] at shorter
      omega
    refine h.order.trans ?_
    simp only [← pushed]
    exact (List.take_append_of_le_length bound).symm
  · simp only [turns, held]
    exact h.turns
  · intro headElement turn taking
    rcases place with same | ⟨_, _, free⟩
    · exact h.turn headElement turn (same ▸ taking)
    · simp only at taking
      simp [taking, BlockingQueue.Place.held] at free

/-- The thread waits for the next object. -/
theorem block (h : Kept cleaner s) (idle : s.object = none)
    (outside : s.queue.place cleaner = .outside) (sole : (s.queue.block cleaner).Sole cleaner) :
    Kept cleaner { s with queue := s.queue.block cleaner } := by
  have place : (s.queue.block cleaner).place cleaner = .waiting := Function.update_self _ _ _
  have total := h.turns
  rw [outside, BlockingQueue.Place.held] at total
  refine ⟨sole, fun busy => absurd idle busy, h.order, ?_, ?_⟩
  · simp only [place, BlockingQueue.Place.held]
    exact total
  · intro headElement turn taking
    cases place.symm.trans taking

/-- The thread takes the head, which is there. -/
theorem take (h : Kept cleaner s) {q : BlockingQueue CleanerObject}
    (sole : (q.take cleaner).Sole cleaner) (turns : q.turns = s.queue.turns)
    (pushed : q.pushed = s.queue.pushed) (free : (s.queue.place cleaner).held = 0)
    (idle : s.object = none) : Kept cleaner { s with queue := q.take cleaner } := by
  have all : q.turns = s.returned.length := by rw [turns, h.turns, free, Nat.add_zero]
  have place : (q.take cleaner).place cleaner = .taking q.head q.turns := by
    rw [BlockingQueue.take_place, Function.update_self]
  have filled : q.head.toList.length = 1 := by
    cases head : q.head with
    | none => exact absurd (head ▸ place) (sole.matched.nonempty cleaner q.turns)
    | some first => rfl
  refine ⟨sole, ?_, ?_, ?_, ?_⟩
  · exact fun busy => absurd idle busy
  · simp only [BlockingQueue.take_pushed, pushed]
    exact h.order
  · simp only [BlockingQueue.take_turns, filled, all, place, BlockingQueue.Place.held]
    rfl
  · intro headElement turn taking
    obtain ⟨_, rfl⟩ := BlockingQueue.Place.taking.inj (place.symm.trans taking)
    exact all

/-- `pop` comes to its end with the object that was pushed next. -/
theorem finish (h : Kept cleaner s) (idle : s.object = none) {e : Element} {turn : Nat}
    {result : CleanerObject} (taking : s.queue.place cleaner = .taking (some e) turn)
    (read : s.queue.value e = some result) {r : BlockingQueue CleanerObject} (sole : r.Sole cleaner)
    (pushed : r.pushed = s.queue.pushed) (turns : r.turns = s.queue.turns)
    (outside : r.place cleaner = .outside) :
    Kept cleaner { s with queue := r, object := some result } := by
  obtain rfl := h.turn _ _ taking
  obtain ⟨_, linked⟩ := h.sole.linked
  obtain ⟨_, _, _, is⟩ := linked.taken cleaner e _ taking
  have grown : { s with queue := r, object := some result }.returned = s.returned ++ [result] := by
    simp [returned, idle]
  have before := h.order
  have total := h.turns
  rw [taking, BlockingQueue.Place.held] at total
  refine ⟨sole, fun _ => outside, ?_, ?_, ?_⟩
  · rw [grown, pushed, List.length_append, List.length_singleton,
      List.take_add_one, ← before, ← is, read]
    rfl
  · rw [grown, turns, total, outside, List.length_append, List.length_singleton]
    rfl
  · intro headElement turn taken
    cases outside.symm.trans taken

theorem handle (h : Kept cleaner s) {object : CleanerObject} (busy : s.object = some object) :
    Kept cleaner { s with object := none, handled := s.handled ++ [object] } := by
  have same : { s with object := none, handled := s.handled ++ [object] }.returned =
      s.returned := by
    simp [returned, busy]
  refine ⟨h.sole, fun idle => absurd rfl idle, ?_, ?_, ?_⟩
  · rw [same]
    exact h.order
  · rw [same]
    exact h.turns
  · rw [same]
    exact h.turn

theorem clean (h : Kept cleaner s) (taken : s.cleanerThread cleaner = some t) : Kept cleaner t := by
  unfold cleanerThread at taken
  cases busy : s.object with
  | some object =>
      simp only [busy] at taken
      exact Option.some.inj taken ▸ h.handle busy
  | none =>
      simp only [busy] at taken
      cases place : s.queue.place cleaner with
      | waiting | popped => simp [place] at taken
      | outside =>
          simp only [place] at taken
          obtain ⟨q, step, rfl⟩ := Option.map_eq_some_iff.mp taken
          have sole := h.sole.step (fun task own => (BlockingQueue.Event.pop.inj own).symm) step
          obtain ⟨_, result⟩ := Option.ite_none_right_eq_some.mp step
          obtain rfl := Option.some.inj result
          unfold BlockingQueue.pop at sole ⊢
          split at sole
          · rename_i empty
            rw [if_pos empty]
            exact h.block busy place sole
          · rename_i filled
            rw [if_neg filled]
            exact h.take sole rfl rfl (by rw [place]; rfl) busy
      | woken =>
          simp only [place] at taken
          obtain ⟨q, step, rfl⟩ := Option.map_eq_some_iff.mp taken
          have sole := h.sole.step (by simp) step
          obtain ⟨_, result⟩ := Option.ite_none_right_eq_some.mp step
          obtain rfl := Option.some.inj result
          exact h.take sole rfl rfl (by rw [place]; rfl) busy
      | taking headElement turn =>
          simp only [place] at taken
          obtain ⟨q, step, rfl⟩ := Option.map_eq_some_iff.mp taken
          have sole := h.sole.step (by simp) step
          cases headElement with
          | none => exact absurd place (h.sole.matched.nonempty cleaner turn)
          | some e =>
              simp only [BlockingQueue.after?, place] at step
              obtain ⟨result, read, rfl⟩ := Option.map_eq_some_iff.mp step
              rw [Option.bind_some, read]
              exact h.finish busy place read sole rfl rfl (Function.update_self _ _ _)

theorem step (h : Kept cleaner s) {event : Event} (taken : Step cleaner s event t) :
    Kept cleaner t := by
  cases event with
  | clean => exact h.clean taken
  | addObject newElement object handler =>
      obtain ⟨q, step, rfl⟩ := Option.map_eq_some_iff.mp taken
      have sole := h.sole.step (by simp) step
      obtain ⟨_, queued⟩ := h.sole.queued
      obtain ⟨_, result⟩ := Option.ite_none_right_eq_some.mp step
      obtain rfl := Option.some.inj result
      refine h.frame sole (by simp) (by simp) ?_
      rcases queued.push_place newElement ⟨object, handler⟩ cleaner with kept | ⟨waits, popped⟩
      · exact .inl kept
      · rw [waits, popped]
        exact .inr ⟨nofun, rfl, rfl⟩
  | addTask wokenUpTask =>
      obtain ⟨q, step, rfl⟩ := Option.map_eq_some_iff.mp taken
      have sole := h.sole.step (by simp) step
      obtain ⟨popped, result⟩ := Option.ite_none_right_eq_some.mp step
      obtain rfl := Option.some.inj result
      refine h.frame sole (List.prefix_refl _) rfl ?_
      by_cases own : wokenUpTask = cleaner
      · subst own
        rw [popped]
        exact .inr ⟨nofun, rfl, by simp [BlockingQueue.Place.held]⟩
      · exact .inl (Function.update_of_ne (Ne.symm own) _ _)
  | relink task next =>
      obtain ⟨q, step, rfl⟩ := Option.map_eq_some_iff.mp taken
      have sole := h.sole.step (by simp) step
      simp only [BlockingQueue.after?] at step
      split at step
      · cases step
      · obtain rfl := Option.some.inj step
        exact h.frame sole (List.prefix_refl _) rfl (.inl rfl)

/-- What is taken and not handled yet is one object at most. -/
theorem inHand (h : Kept cleaner s) :
    ∃ inHand, inHand.length ≤ 1 ∧ s.handled ++ inHand = s.queue.pushed.take s.queue.turns := by
  refine ⟨s.object.toList ++ (s.queue.pushed.drop s.returned.length).take
    (s.queue.place cleaner).held, ?_, ?_⟩
  · have held : (s.queue.place cleaner).held ≤ 1 := by
      cases s.queue.place cleaner <;> simp [BlockingQueue.Place.held]
    have taken :=
      List.length_take_le (s.queue.place cleaner).held (s.queue.pushed.drop s.returned.length)
    rw [List.length_append]
    cases busy : s.object with
    | none =>
        rw [Option.toList_none, List.length_nil, Nat.zero_add]
        exact taken.trans held
    | some object =>
        rw [h.busy (by simp [busy]), BlockingQueue.Place.held]
        simp
  · rw [h.turns, List.take_add, ← h.order, ← List.append_assoc, returned]

end Kept

theorem started_kept (cleaner : Task) (links : Links) : Kept cleaner (started links) :=
  ⟨⟨⟨[], BlockingQueue.started_linked links⟩, ⟨[], BlockingQueue.started_queued links⟩,
    BlockingQueue.started_matched links, fun _ _ => rfl⟩, fun busy => absurd rfl busy,
    rfl, rfl, nofun⟩

/-- Handlers are called for the objects as they were pushed: apart from at most one
    that the thread has in hand, those not handled are still in the queue. The thread
    has no null head, and if it does not go on although there is an object, then the
    push that woke it has only to pass it to `addTask`. -/
theorem handles_in_order (cleaner : Task) (links : Links) (events : List Event) (s : Cleaner)
    (run : Run (Step cleaner) (started links) events s) :
    s.handled <+: s.queue.pushed ∧
      (∃ inHand, inHand.length ≤ 1 ∧ s.handled ++ inHand ++ s.queue.stored = s.queue.pushed) ∧
      (∀ turn, s.queue.place cleaner ≠ .taking none turn) ∧
      (s.queue.stored ≠ [] → s.queue.place cleaner ≠ .waiting) ∧
      (s.queue.place cleaner = .popped →
        ∃ t, Step cleaner s (.addTask cleaner) t ∧ t.queue.place cleaner = .woken) := by
  have h : Kept cleaner s :=
    run.invariant (started_kept cleaner links) fun _ _ _ h taken => h.step taken
  obtain ⟨inHand, few, taken⟩ := h.inHand
  have all : s.handled ++ inHand ++ s.queue.stored = s.queue.pushed := by
    rw [taken, BlockingQueue.stored, List.take_append_drop]
  refine ⟨⟨inHand ++ s.queue.stored, ?_⟩, ⟨inHand, few, all⟩,
    h.sole.matched.nonempty cleaner, ?_, ?_⟩
  · rw [← List.append_assoc, all]
  · exact fun filled waits => filled (h.sole.waits_empty waits)
  · intro popped
    refine ⟨{ s with
      queue := { s.queue with place := Function.update s.queue.place cleaner .woken } }, ?_, ?_⟩
    · simp [Step, after?, onQueue, BlockingQueue.after?, popped]
    · exact Function.update_self _ _ _

/-- Two objects are added, one while the cleaner is on its way and one while it cleans. -/
def twoObjects : List Event :=
  [.clean, .addObject 10 7 1, .addTask 3, .clean, .addObject 11 8 2, .clean, .clean, .clean,
    .clean, .clean]

theorem handles_in_order_two :
    ∃ s, Run (Step 3) (started fun _ => none) twoObjects s ∧ s.handled = [⟨7, 1⟩, ⟨8, 2⟩] ∧
      s.handled <+: s.queue.pushed := by
  have computed : ∃ s, twoObjects.foldlM (after? 3) (started fun _ => none) = some s ∧
      s.handled = [⟨7, 1⟩, ⟨8, 2⟩] :=
    ⟨_, rfl, by decide +kernel⟩
  obtain ⟨s, replayed, handled⟩ := computed
  have run : Run (Step 3) _ _ s := Run.of_foldlM replayed
  exact ⟨s, run, handled, (handles_in_order 3 _ _ s run).1⟩

/-- Between the end of the locked section of a push and its `addTask` the cleaner is
    blocked, not yet passed on, and the queue is not empty. -/
theorem blocked_before_addTask :
    ∃ s, Run (Step 3) (started fun _ => none) [.clean, .addObject 10 7 1] s ∧ s.queue.stored ≠ [] ∧
      s.queue.place 3 = .popped := by
  have computed :
      ∃ s, [Event.clean, .addObject 10 7 1].foldlM (after? 3) (started fun _ => none) = some s ∧
      s.queue.stored ≠ [] ∧ s.queue.place 3 = .popped :=
    ⟨_, rfl, by decide +kernel⟩
  obtain ⟨s, replayed, facts⟩ := computed
  exact ⟨s, Run.of_foldlM replayed, facts⟩

end Cleaner

end Mykonos.Tasks
