import Mykonos.Lib.Machine
import Mykonos.Tasks.Queue

/-! # Queues that share their control blocks

Any number of queues over one pool of control blocks, with the links that blocks keep from
the queues they were in. As long as a block goes into a queue only when it is in none, each
queue is a list of its own, and a link is followed only from a block to the one behind it.
-/

namespace Mykonos.Tasks

open Lib

inductive QueueOp (ι : Type*) where
  | push (queue : ι) (value : Task)
  | pushFront (queue : ι) (value : Task)
  | pop (queue : ι)
  deriving Repr, DecidableEq

/-- The queues, and the `next` fields of the blocks. -/
structure QueuePool (ι : Type*) where
  queues : ι → Queue
  next : Links

/-- The block whose `next` field `pop` reads. -/
def Queue.followed (q : Queue) : Option Task :=
  if q.head = q.tail then none else q.head

section Pools

variable {ι : Type*}

/-- The call returns a block only when it is a `pop`. -/
def QueuePool.step [DecidableEq ι] (s : QueuePool ι) : QueueOp ι → QueuePool ι × Option Task
  | .push i value =>
      let (q, next) := (s.queues i).push s.next value
      (⟨Function.update s.queues i q, next⟩, none)
  | .pushFront i value =>
      let (q, next) := (s.queues i).pushFront s.next value
      (⟨Function.update s.queues i q, next⟩, none)
  | .pop i =>
      let (result, q) := (s.queues i).pop s.next
      (⟨Function.update s.queues i q, s.next⟩, result)

/-- Queues without a block in them, over blocks with any links. -/
def QueuePool.empty (ι : Type*) (next : Links) : QueuePool ι :=
  ⟨fun _ => {}, next⟩

/-- What the operations are for: one list for each queue. -/
def listStep [DecidableEq ι] (lists : ι → List Task) : QueueOp ι → (ι → List Task) × Option Task
  | .push i value => (Function.update lists i (lists i ++ [value]), none)
  | .pushFront i value => (Function.update lists i (value :: lists i), none)
  | .pop i => (Function.update lists i (lists i).tail, (lists i).head?)

/-- Only a block that is in no queue is pushed. -/
def MayPush (lists : ι → List Task) : QueueOp ι → Prop
  | .push _ value | .pushFront _ value => ∀ j, value ∉ lists j
  | .pop _ => True

/-- The links that the queues are made of are the same. -/
def SameLinks (lists : ι → List Task) (next next' : Links) : Prop :=
  ∀ i, ∀ a ∈ (lists i).dropLast, next' a = next a

theorem QueuePool.empty_apart (next : Links) :
    Queue.Apart (QueuePool.empty ι next).queues (QueuePool.empty ι next).next (fun _ => []) :=
  ⟨fun _ => Queue.Shows.empty next, fun _ _ _ => nofun⟩

/-- A link that is followed leads from the first block of the queue to its second. -/
theorem Queue.Shows.followed {q : Queue} {next : Links} {tasks : List Task} {a : Task}
    (h : q.Shows next tasks) (reads : q.followed = some a) :
    ∃ b rest, tasks = a :: b :: rest ∧ next a = some b := by
  have threaded := h.threaded
  rw [Queue.followed, Option.ite_none_left_eq_some] at reads
  obtain ⟨several, first⟩ := reads
  rw [first] at threaded several
  obtain ⟨rest, rfl⟩ := threaded.eq_cons
  cases rest with
  | nil => exact absurd threaded.last.symm several
  | cons b rest =>
      cases threaded.linked with
      | cons_cons link _ => exact ⟨b, rest, rfl, link⟩

/-- The link of the last block says nothing. -/
theorem Queue.Shows.sameLinks {q : Queue} {next next' : Links} {tasks : List Task}
    (h : q.Shows next tasks) (same : ∀ a ∈ tasks.dropLast, next' a = next a) :
    q.Shows next' tasks := by
  obtain ⟨⟨first, last, linked, nodup⟩, size⟩ := h
  refine ⟨⟨first, last, ?_, nodup⟩, size⟩
  rw [List.isChain_iff_getElem] at linked ⊢
  intro i below
  have member : tasks[i] ∈ tasks.dropLast := by
    rw [← List.getElem_dropLast (by rw [List.length_dropLast]; omega)]
    exact List.getElem_mem _
  rw [same _ member]
  exact linked i below

theorem Queue.Apart.sameLinks {queues : ι → Queue} {next next' : Links} {lists : ι → List Task}
    (h : Queue.Apart queues next lists) (same : SameLinks lists next next') :
    Queue.Apart queues next' lists :=
  ⟨fun i => (h.shows i).sameLinks (same i), h.apart⟩

variable [DecidableEq ι]

/-- One operation does to the queues what it does to the lists. -/
theorem QueuePool.step_refines {s : QueuePool ι} {lists : ι → List Task} {op : QueueOp ι}
    (h : Queue.Apart s.queues s.next lists) (may : MayPush lists op) :
    (s.step op).2 = (listStep lists op).2 ∧
      Queue.Apart (s.step op).1.queues (s.step op).1.next (listStep lists op).1 := by
  cases op with
  | push i value => exact ⟨rfl, h.push i may⟩
  | pushFront i value => exact ⟨rfl, h.pushFront i may⟩
  | pop i => exact ⟨(h.shows i).pop.1, h.pop i⟩

/-- Over blocks with any links to start with, every sequence of calls answers what the lists
    answer and leaves the queues with their lengths. A link is followed only from the first
    block of a queue to the second, and what links other than those within the queues say
    makes no difference to the calls that follow. -/
theorem queues_refine_lists (links : Links) (ops : List (QueueOp ι))
    (allowed : Allowed listStep MayPush (fun _ => []) ops) :
    let s := (answers QueuePool.step (.empty ι links) ops).1
    let lists := (answers listStep (fun _ : ι => []) ops).1
    (answers QueuePool.step (.empty ι links) ops).2 = (answers listStep (fun _ => []) ops).2 ∧
      (∀ i, (s.queues i).getSize = (lists i).length % 2 ^ 32 ∧
        ((lists i).length < 2 ^ 32 → (s.queues i).getSize = (lists i).length)) ∧
      (∀ i a, (s.queues i).followed = some a → ∃ b rest, lists i = a :: b :: rest ∧
        s.next a = some b) ∧
      ∀ next' more, SameLinks lists s.next next' → Allowed listStep MayPush lists more →
        (answers QueuePool.step ⟨s.queues, next'⟩ more).2 = (answers listStep lists more).2 := by
  intro s lists
  have kept : ∀ (s : QueuePool ι) (lists : ι → List Task) (op : QueueOp ι),
      Queue.Apart s.queues s.next lists → MayPush lists op → _ :=
    fun s lists op h may => QueuePool.step_refines h may
  obtain ⟨same, apart⟩ := answers_simulate kept (QueuePool.empty_apart links) allowed
  refine ⟨same, fun i => ⟨(apart.shows i).size, fun small => ?_⟩,
    fun i a reads => (apart.shows i).followed reads, ?_⟩
  · rw [Queue.getSize, (apart.shows i).size, Nat.mod_eq_of_lt small]
  · intro next' more agree allowed'
    have changed : Queue.Apart (QueuePool.mk s.queues next').queues next' lists :=
      apart.sameLinks agree
    exact (answers_simulate kept changed allowed').1

/-- A block moves from one queue to another, and back, with the link from the first. -/
theorem queues_refine_lists_moving :
    (answers QueuePool.step (.empty Bool (fun _ => some 7))
      [.push true 1, .push true 2, .pop true, .push false 1, .pop true, .pushFront false 2,
        .pop false, .pop false, .pop false]).2 = [none, none, some 1, none, some 2, none, some 2,
        some 1, none] :=
  (queues_refine_lists (fun _ => some 7) _ (by simp [Allowed, listStep, MayPush])).1.trans
    (by decide)

end Pools

end Mykonos.Tasks
