import Mykonos.Lib.Histories
import Mykonos.Tasks.Queues

/-! # The queue's calls, one access to memory after the other

Every call on a `task::Queue` but `getSize` is a section of the spinlock of the queue. Here
any number of callers are in calls at once, each somewhere in the code, and they take turns
in any order, one load or store at a time. `getSize` loads the size without the lock, while
another caller may be between two stores of a `push`.
-/

namespace Mykonos.Tasks

open Lib

variable {κ ι : Type*}

def QueueOp.queue : QueueOp ι → ι
  | .push i _ | .pushFront i _ | .pop i => i

/-- The block that a call puts into a queue. -/
def QueueOp.value? : QueueOp ι → Option Task
  | .push _ value | .pushFront _ value => some value
  | .pop _ => none

namespace Sections

/-- A call on one of the queues. -/
inductive Request (ι : Type*) where
  | locked (op : QueueOp ι)
  | getSize (queue : ι)
  deriving Repr, DecidableEq

inductive Reply where
  | done
  | block (value : Option Task)
  | size (value : Nat)
  deriving Repr, DecidableEq

def Request.value? : Request ι → Option Task
  | .locked op => op.value?
  | .getSize _ => none

/-- The block that comes out of a queue with a reply. -/
def Reply.value? : Reply → Option Task
  | .block value => value
  | .done | .size _ => none

inductive PushPlace where
  | tests
  | fillsTail
  | fillsHead
  | readsTail
  | links (last : Option Task)
  | setsTail
  | counts
  deriving Repr, DecidableEq

inductive FrontPlace where
  | tests
  | fillsTail
  | fillsHead
  | readsHead
  | links (first : Option Task)
  | setsHead
  | counts
  deriving Repr, DecidableEq

inductive PopPlace where
  | reads
  | compares (result : Task)
  | clearsTail (result : Task)
  | clearsHead (result : Task)
  | follows (result : Task)
  | advances (result : Task) (behind : Option Task)
  | uncounts (result : Task)
  deriving Repr, DecidableEq

/-- Where a caller is, with what it has in registers there. -/
inductive Place (ι : Type*) where
  | idle
  /-- In `Spinlock::acquire`, about to look whether the spinlock is locked. -/
  | waits (op : QueueOp ι)
  /-- In `Spinlock::acquire`, about to compare and swap. -/
  | tries (op : QueueOp ι)
  | push (queue : ι) (value : Task) (place : PushPlace)
  | pushFront (queue : ι) (value : Task) (place : FrontPlace)
  | pop (queue : ι) (place : PopPlace)
  | releases (queue : ι) (reply : Reply)
  | loads (queue : ι)
  | leaves (reply : Reply)
  deriving Repr, DecidableEq

/-- What a call begins with. -/
def Request.start : Request ι → Place ι
  | .locked op => .waits op
  | .getSize i => .loads i

/-- What a call does once it has the lock. -/
def enter : QueueOp ι → Place ι
  | .push i value => .push i value .tests
  | .pushFront i value => .pushFront i value .tests
  | .pop i => .pop i .reads

/-- The next access of `push`, none when it goes through a null pointer. -/
def push (i : ι) (value : Task) (q : Queue) (next : Links) :
    PushPlace → Option (Queue × Links × Place ι)
  | .tests => some (q, next, .push i value (if q.head = none then .fillsTail else .readsTail))
  | .fillsTail => some ({ q with tail := some value }, next, .push i value .fillsHead)
  | .fillsHead => some ({ q with head := some value }, next, .push i value .counts)
  | .readsTail => some (q, next, .push i value (.links q.tail))
  | .links none => none
  | .links (some last) => some (q, Function.update next last (some value), .push i value .setsTail)
  | .setsTail => some ({ q with tail := some value }, next, .push i value .counts)
  | .counts => some ({ q with size := (q.size + 1) % 2 ^ 32 }, next, .releases i .done)

/-- The next access of `push_front`. -/
def pushFront (i : ι) (value : Task) (q : Queue) (next : Links) :
    FrontPlace → Queue × Links × Place ι
  | .tests => (q, next, .pushFront i value (if q.head = none then .fillsTail else .readsHead))
  | .fillsTail => ({ q with tail := some value }, next, .pushFront i value .fillsHead)
  | .fillsHead => ({ q with head := some value }, next, .pushFront i value .counts)
  | .readsHead => (q, next, .pushFront i value (.links q.head))
  | .links first => (q, Function.update next value first, .pushFront i value .setsHead)
  | .setsHead => ({ q with head := some value }, next, .pushFront i value .counts)
  | .counts => ({ q with size := (q.size + 1) % 2 ^ 32 }, next, .releases i .done)

/-- The next access of `pop`. `result` stays in a register from the first one on. -/
def pop (i : ι) (q : Queue) (next : Links) : PopPlace → Queue × Links × Place ι
  | .reads =>
      (q, next, match q.head with
        | none => .releases i (.block none)
        | some result => .pop i (.compares result))
  | .compares result =>
      (q, next, .pop i (if some result = q.tail then .clearsTail result else .follows result))
  | .clearsTail result => ({ q with tail := none }, next, .pop i (.clearsHead result))
  | .clearsHead result => ({ q with head := none }, next, .pop i (.uncounts result))
  | .follows result => (q, next, .pop i (.advances result (next result)))
  | .advances result behind => ({ q with head := behind }, next, .pop i (.uncounts result))
  | .uncounts result => ({ q with size := (q.size + 2 ^ 32 - 1) % 2 ^ 32 }, next,
      .releases i (.block (some result)))

/-- The memory that the callers share, and where each of them is. -/
structure Callers (κ ι : Type*) where
  lock : ι → Bool
  queues : ι → Queue
  next : Links
  place : κ → Place ι

section Machine

variable [DecidableEq κ] [DecidableEq ι]

def Callers.goes (s : Callers κ ι) (caller : κ) (place : Place ι) : Callers κ ι :=
  { s with place := Function.update s.place caller place }

/-- An access to a queue by a caller that has its lock. -/
def Callers.access (s : Callers κ ι) (caller : κ) (i : ι) (result : Queue × Links × Place ι) :
    Callers κ ι :=
  ⟨s.lock, Function.update s.queues i result.1, result.2.1,
    Function.update s.place caller result.2.2⟩

/-- The next instruction of a caller in a call. -/
def Callers.execute (s : Callers κ ι) (caller : κ) : Option (Callers κ ι) :=
  match s.place caller with
  | .idle | .leaves _ => none
  | .waits op => some (s.goes caller (if s.lock op.queue then .waits op else .tries op))
  | .tries op =>
      if s.lock op.queue then some (s.goes caller (.waits op))
      else some { s.goes caller (enter op) with lock := Function.update s.lock op.queue true }
  | .push i value place => (push i value (s.queues i) s.next place).map (s.access caller i)
  | .pushFront i value place =>
      some (s.access caller i (pushFront i value (s.queues i) s.next place))
  | .pop i place => some (s.access caller i (pop i (s.queues i) s.next place))
  | .releases i reply =>
      some { s.goes caller (.leaves reply) with lock := Function.update s.lock i false }
  | .loads i => some (s.goes caller (.leaves (.size (s.queues i).getSize)))

inductive Label (κ ι : Type*) where
  | calls (caller : κ) (request : Request ι)
  | executes (caller : κ)
  | returns (caller : κ) (reply : Reply)
  deriving Repr, DecidableEq

/-- What is seen of a step. -/
def Label.event : Label κ ι → Option (Event κ (Request ι) Reply)
  | .calls caller request => some (.calls caller request)
  | .executes _ => none
  | .returns caller reply => some (.returns caller reply)

/-- A caller begins a call, goes on with it or returns from it. -/
def Callers.after? (s : Callers κ ι) : Label κ ι → Option (Callers κ ι)
  | .calls caller request =>
      if s.place caller = .idle then some (s.goes caller request.start) else none
  | .executes caller => s.execute caller
  | .returns caller reply =>
      if s.place caller = .leaves reply then some (s.goes caller .idle) else none

abbrev Callers.Step (s : Callers κ ι) (label : Label κ ι) (t : Callers κ ι) : Prop :=
  s.after? label = some t

/-- Empty queues over blocks with any links, and no call made yet. -/
def Callers.fresh (κ ι : Type*) (next : Links) : Callers κ ι :=
  ⟨fun _ => false, fun _ => {}, next, fun _ => .idle⟩

/-- What each call is for. -/
def Request.serve (lists : ι → List Task) : Request ι → (ι → List Task) × Reply
  | .locked (.pop i) => ((listStep lists (.pop i)).1, .block (listStep lists (.pop i)).2)
  | .locked op => ((listStep lists op).1, .done)
  | .getSize i => (lists, .size ((lists i).length % 2 ^ 32))

end Machine

/-- How often a block was passed to a call that puts it into a queue. -/
def pushed (seen : List (Event κ (Request ι) Reply)) (value : Task) : Nat :=
  seen.countP fun
    | .calls _ request => request.value? = some value
    | .returns _ _ => false

/-- How often a block was returned by a call that took it out. -/
def popped (seen : List (Event κ (Request ι) Reply)) (value : Task) : Nat :=
  seen.countP fun
    | .calls _ _ => false
    | .returns _ reply => reply.value? = some value

/-- A block is put into a queue only when it came back from every queue it was put into. -/
def Follows (seen : List (Event κ (Request ι) Reply)) : Event κ (Request ι) Reply → Prop
  | .calls _ request => ∀ value, request.value? = some value → pushed seen value = popped seen value
  | .returns _ _ => True

/-- The lists that the queues stand for, with the callers of an object that serves each call
    at once. -/
abbrev Lists (κ ι : Type*) := Atomic κ (ι → List Task) (Request ι) Reply

/-- The block that a caller has to do with. -/
def value? : Pending (Request ι) Reply → Option Task
  | .idle => none
  | .called request => request.value?
  | .answered reply => reply.value?

inductive Keeper (κ ι : Type*) where
  | queue (i : ι)
  | caller (c : κ)

def Has (t : Lists κ ι) : Keeper κ ι → Task → Prop
  | .queue i, value => value ∈ t.object i
  | .caller c, value => value? (t.pending c) = some value

/-- A block that is out is in one queue, or passed to one call, or on its way out of one. -/
structure Kept (seen : List (Event κ (Request ι) Reply)) (t : Lists κ ι) : Prop where
  nodup : ∀ i, (t.object i).Nodup
  alone : ∀ a b value, Has t a value → Has t b value → a = b
  out : ∀ a value, Has t a value → pushed seen value = popped seen value + 1

section Custody

variable {seen : List (Event κ (Request ι) Reply)} {t t' : Lists κ ι} {c : κ}

theorem Kept.fresh : Kept [] (.fresh κ (Request ι) Reply fun _ : ι => []) := by
  refine ⟨fun i => List.nodup_nil, fun a b value has => ?_, fun a value has => ?_⟩ <;>
    cases a <;> simp [Has, Atomic.fresh, value?] at has

/-- Nothing moves. -/
theorem Kept.fewer (h : Kept seen t) (nodup : ∀ i, (t'.object i).Nodup)
    (rest : ∀ a value, Has t' a value → Has t a value) : Kept seen t' :=
  ⟨nodup, fun a b value first second => h.alone a b value (rest a value first)
    (rest b value second), fun a value has => h.out a value (rest a value has)⟩

/-- A block moves from one keeper to another. -/
theorem Kept.moves (h : Kept seen t) (nodup : ∀ i, (t'.object i).Nodup) (giver taker : Keeper κ ι)
    {moved : Task} (held : Has t giver moved) (gone : ¬Has t' giver moved)
    (rest : ∀ a value, Has t' a value → Has t a value ∨ value = moved ∧ a = taker) :
    Kept seen t' := by
  have stays : ∀ a, Has t' a moved → a = taker := by
    intro a has
    rcases rest a moved has with old | ⟨-, same⟩
    · obtain rfl := h.alone a giver moved old held
      exact absurd has gone
    · exact same
  refine ⟨nodup, fun a b value first second => ?_, fun a value has => ?_⟩
  · rcases rest a value first with old | ⟨rfl, rfl⟩
    · rcases rest b value second with old' | ⟨rfl, rfl⟩
      · exact h.alone a b value old old'
      · exact stays a first
    · exact (stays b second).symm
  · rcases rest a value has with old | ⟨rfl, -⟩
    · exact h.out a value old
    · exact h.out giver value held

theorem pushed_calls (request : Request ι) (value : Task) :
    pushed (seen ++ [.calls c request]) value = pushed seen value + if request.value? =
      some value then 1 else 0 := by
  simp [pushed, List.countP_append, List.countP_cons]

theorem popped_calls (request : Request ι) (value : Task) :
    popped (seen ++ [.calls c request]) value = popped seen value := by
  simp [popped, List.countP_append]

theorem pushed_returns (reply : Reply) (value : Task) :
    pushed (seen ++ [.returns c reply]) value = pushed seen value := by
  simp [pushed, List.countP_append]

theorem popped_returns (reply : Reply) (value : Task) :
    popped (seen ++ [.returns c reply]) value = popped seen value + if reply.value? =
      some value then 1 else 0 := by
  simp [popped, List.countP_append, List.countP_cons]

variable [DecidableEq κ]

/-- Who has what when a caller gets to another place. -/
theorem has_update {object : ι → List Task} {pending : κ → Pending (Request ι) Reply}
    {p : Pending (Request ι) Reply} {a : Keeper κ ι} {value : Task}
    (has : Has ⟨object, Function.update pending c p⟩ a value) :
    a = .caller c ∧ value? p = some value ∨ Has ⟨object, pending⟩ a value := by
  cases a with
  | queue i => exact .inr has
  | caller d =>
      by_cases same : d = c
      · subst same
        exact .inl ⟨rfl, by simpa [Has] using has⟩
      · exact .inr (by simpa [Has, Function.update_of_ne same] using has)

theorem Kept.calls (h : Kept seen t) (request : Request ι)
    (follows : Follows seen (.calls c request)) :
    Kept (seen ++ [.calls c request]) ⟨t.object,
      Function.update t.pending c (.called request)⟩ := by
  have home : ∀ a value, request.value? = some value → ¬Has t a value := by
    intro a value mine has
    have level := follows value mine
    have out := h.out a value has
    omega
  refine ⟨h.nodup, fun a b value first second => ?_, fun a value has => ?_⟩
  · rcases has_update first with ⟨rfl, mine⟩ | old <;>
      rcases has_update second with ⟨rfl, mine'⟩ | old'
    · rfl
    · exact absurd old' (home b value mine)
    · exact absurd old (home a value mine')
    · exact h.alone a b value old old'
  · rw [pushed_calls, popped_calls]
    rcases has_update has with ⟨rfl, mine⟩ | old
    · have passed : request.value? = some value := mine
      rw [if_pos passed, follows value passed]
    · rw [if_neg fun mine => home a value mine old, Nat.add_zero]
      exact h.out a value old

theorem Kept.returns (h : Kept seen t) {reply : Reply} (ready : t.pending c = .answered reply) :
    Kept (seen ++ [.returns c reply]) ⟨t.object, Function.update t.pending c .idle⟩ := by
  have less : ∀ a value, Has ⟨t.object, Function.update t.pending c .idle⟩ a value →
      Has t a value ∧ a ≠ .caller c := by
    intro a value has
    cases a with
    | queue i => exact ⟨has, nofun⟩
    | caller d =>
        have other : d ≠ c := by
          rintro rfl
          simp [Has, value?] at has
        exact ⟨by simpa [Has, Function.update_of_ne other] using has,
          fun same => other (Keeper.caller.inj same)⟩
  refine ⟨h.nodup, fun a b value first second => h.alone a b value (less a value first).1
    (less b value second).1, fun a value has => ?_⟩
  obtain ⟨old, other⟩ := less a value has
  rw [pushed_returns, popped_returns, if_neg, Nat.add_zero]
  · exact h.out a value old
  · intro mine
    refine other (h.alone a (.caller c) value old ?_)
    simp only [Has, ready, value?, mine]

/-- A reply without a block. -/
theorem Kept.answers (h : Kept seen t) {reply : Reply} (nothing : reply.value? = none) :
    Kept seen ⟨t.object, Function.update t.pending c (.answered reply)⟩ := by
  refine h.fewer h.nodup fun a x has => ?_
  rcases has_update has with ⟨-, mine⟩ | old
  · simp [value?, nothing] at mine
  · exact old

variable [DecidableEq ι]

theorem nodup_update {lists : ι → List Task} (nodup : ∀ i, (lists i).Nodup) {i : ι}
    {list : List Task} (new : list.Nodup) (j : ι) : (Function.update lists i list j).Nodup := by
  by_cases same : j = i
  · subst same
    rwa [Function.update_self]
  · rw [Function.update_of_ne same]
    exact nodup j

/-- A list gets the block that its caller had. -/
theorem Kept.gets (h : Kept seen t) {request : Request ι} {value : Task}
    (waiting : t.pending c = .called request) (mine : request.value? = some value) (i : ι)
    {list : List Task} (parts : List.Perm list (value :: t.object i)) :
    Kept seen ⟨Function.update t.object i list, Function.update t.pending c (.answered .done)⟩ := by
  have held : Has t (.caller c) value := by
    simp only [Has, waiting, value?, mine]
  have absent : value ∉ t.object i := by
    intro inside
    cases h.alone _ (.queue i) value held inside
  have nodup : list.Nodup := parts.nodup_iff.mpr (List.nodup_cons.mpr ⟨absent, h.nodup i⟩)
  refine h.moves (nodup_update h.nodup nodup) (.caller c) (.queue i) held ?_ ?_
  · simp [Has, value?, Reply.value?]
  · intro a x has
    rcases has_update has with ⟨-, mine'⟩ | old
    · simp [value?, Reply.value?] at mine'
    · cases a with
      | caller d => exact .inl old
      | queue j =>
          by_cases same : j = i
          · subst same
            simp only [Has, Function.update_self, parts.mem_iff, List.mem_cons] at old
            rcases old with rfl | old
            · exact .inr ⟨rfl, rfl⟩
            · exact .inl old
          · exact .inl (by simpa [Has, Function.update_of_ne same] using old)

/-- A caller gets the first block of a list. -/
theorem Kept.gives (h : Kept seen t) (i : ι) {first : Task} {rest : List Task}
    (list : t.object i = first :: rest) :
    Kept seen ⟨Function.update t.object i rest,
      Function.update t.pending c (.answered (.block (some first)))⟩ := by
  have whole := h.nodup i
  rw [list, List.nodup_cons] at whole
  have held : Has t (.queue i) first := by
    simp [Has, list]
  refine h.moves (nodup_update h.nodup whole.2) (.queue i) (.caller c) held ?_ ?_
  · simpa [Has] using whole.1
  · intro a x has
    rcases has_update has with ⟨rfl, mine⟩ | old
    · exact .inr ⟨(Option.some.inj mine).symm, rfl⟩
    · cases a with
      | caller d => exact .inl old
      | queue j =>
          by_cases same : j = i
          · subst same
            simp only [Has, Function.update_self] at old ⊢
            exact .inl (list ▸ List.mem_cons_of_mem _ old)
          · exact .inl (by simpa [Has, Function.update_of_ne same] using old)

theorem Kept.serves (h : Kept seen t) {request : Request ι}
    (waiting : t.pending c = .called request) :
    Kept seen ⟨(request.serve t.object).1,
      Function.update t.pending c (.answered (request.serve t.object).2)⟩ := by
  cases request with
  | getSize i => exact h.answers rfl
  | locked op =>
      cases op with
      | push i value => exact h.gets waiting rfl i (List.perm_append_singleton value _)
      | pushFront i value => exact h.gets waiting rfl i (.refl _)
      | pop i =>
          simp only [Request.serve, listStep]
          cases list : t.object i with
          | nil =>
              have same : Function.update t.object i [].tail = t.object := by
                rw [List.tail_nil, ← list, Function.update_eq_self]
              rw [same]
              exact h.answers rfl
          | cons first rest => exact h.gives i list

end Custody

def Place.pending : Place ι → Pending (Request ι) Reply
  | .idle => .idle
  | .waits op | .tries op => .called (.locked op)
  | .push i value _ => .called (.locked (.push i value))
  | .pushFront i value _ => .called (.locked (.pushFront i value))
  | .pop i _ => .called (.locked (.pop i))
  | .loads i => .called (.getSize i)
  | .releases _ reply | .leaves reply => .answered reply

/-- The queue whose lock a caller has. -/
def Place.holds : Place ι → Option ι
  | .push i _ _ | .pushFront i _ _ | .pop i _ | .releases i _ => some i
  | .idle | .waits _ | .tries _ | .loads _ | .leaves _ => none

section Within

variable (q : Queue) (next : Links) (tasks : List Task)

/-- What is true of a queue where a `push` is at a place, by the list from before it. -/
def PushPlace.Within (value : Task) : PushPlace → Prop
  | .tests => q.Shows next tasks
  | .fillsTail => q.Shows next tasks ∧ tasks = []
  | .fillsHead => q.tail = some value ∧ tasks = []
  | .readsTail => q.Shows next tasks ∧ tasks ≠ []
  | .links last => q.Shows next tasks ∧ q.tail = last ∧ tasks ≠ []
  | .setsTail => q.Shows next tasks ∧ ∃ last, q.tail = some last ∧ next last = some value
  | .counts => Threaded next q.head q.tail (tasks ++ [value])

def FrontPlace.Within (value : Task) : FrontPlace → Prop
  | .tests => q.Shows next tasks
  | .fillsTail => q.Shows next tasks ∧ tasks = []
  | .fillsHead => q.tail = some value ∧ tasks = []
  | .readsHead => q.Shows next tasks ∧ tasks ≠ []
  | .links first => q.Shows next tasks ∧ q.head = first ∧ tasks ≠ []
  | .setsHead => q.Shows next tasks ∧ next value = q.head ∧ tasks ≠ []
  | .counts => Threaded next q.head q.tail (value :: tasks)

def PopPlace.Within : PopPlace → Prop
  | .reads => q.Shows next tasks
  | .compares result => q.Shows next tasks ∧ q.head = some result
  | .clearsTail result => q.Shows next tasks ∧ tasks = [result]
  | .clearsHead result => q.tail = none ∧ tasks = [result]
  | .follows result => q.Shows next tasks ∧ q.head = some result ∧ q.tail ≠ some result
  | .advances result behind =>
      q.Shows next tasks ∧ q.head = some result ∧ q.tail ≠ some result ∧ next result = behind
  | .uncounts result => tasks.head? = some result ∧ Threaded next q.head q.tail tasks.tail

/-- What is true of a queue whose lock a caller at the place has. -/
def Place.Within : Place ι → Prop
  | .push _ value place => place.Within q next tasks value
  | .pushFront _ value place => place.Within q next tasks value
  | .pop _ place => place.Within q next tasks
  | .releases _ _ => q.Shows next tasks
  | .idle | .waits _ | .tries _ | .loads _ | .leaves _ => True

variable {q next tasks} {next' : Links}

/-- Only the links of the blocks in the queue and of the one that is put into it matter. -/
theorem Place.Within.frame {place : Place ι} (h : place.Within q next tasks)
    (same : ∀ a ∈ tasks, next' a = next a)
    (own : ∀ value, value? place.pending = some value → next' value = next value) :
    place.Within q next' tasks := by
  cases place with
  | push i value place =>
      cases place with
      | tests => exact Queue.Shows.frame h same
      | fillsTail | readsTail | links => exact ⟨h.1.frame same, h.2⟩
      | fillsHead => exact h
      | setsTail =>
          obtain ⟨shows, last, tail, link⟩ := h
          have member : last ∈ tasks := List.mem_of_getLast? (shows.threaded.last.symm.trans tail)
          exact ⟨shows.frame same, last, tail, (same last member).trans link⟩
      | counts =>
          refine Threaded.frame h fun a member => ?_
          rcases List.mem_append.mp member with old | new
          · exact same a old
          · obtain rfl := List.mem_singleton.mp new
            exact own a rfl
  | pushFront i value place =>
      cases place with
      | tests => exact Queue.Shows.frame h same
      | fillsTail | readsHead | links => exact ⟨h.1.frame same, h.2⟩
      | fillsHead => exact h
      | setsHead => exact ⟨h.1.frame same, (own value rfl).trans h.2.1, h.2.2⟩
      | counts =>
          refine Threaded.frame h fun a member => ?_
          rcases List.mem_cons.mp member with rfl | old
          · exact own a rfl
          · exact same a old
  | pop i place =>
      cases place with
      | reads => exact Queue.Shows.frame h same
      | compares | clearsTail | follows => exact ⟨h.1.frame same, h.2⟩
      | clearsHead => exact h
      | advances result behind =>
          obtain ⟨shows, head, tail, link⟩ := h
          have member : result ∈ tasks := List.mem_of_head? (shows.head.symm.trans head)
          exact ⟨shows.frame same, head, tail, (same result member).trans link⟩
      | uncounts => exact ⟨h.1, h.2.frame fun a member => same a (List.mem_of_mem_tail member)⟩
  | releases i reply => exact Queue.Shows.frame h same
  | idle | waits | tries | loads | leaves => trivial

end Within

/-- The memory and the places of the callers stand for lists and calls that are served at
    once. -/
structure Stands (seen : List (Event κ (Request ι) Reply)) (s : Callers κ ι)
    (t : Lists κ ι) : Prop where
  kept : Kept seen t
  pending : ∀ c, t.pending c = (s.place c).pending
  size : ∀ i, (s.queues i).size = (t.object i).length % 2 ^ 32
  sole : ∀ c d i, (s.place c).holds = some i → (s.place d).holds = some i → c = d
  held : ∀ c i, (s.place c).holds = some i →
    s.lock i = true ∧ (s.place c).Within (s.queues i) s.next (t.object i)
  free : ∀ i, (∀ c, (s.place c).holds ≠ some i) →
    s.lock i = false ∧ (s.queues i).Shows s.next (t.object i)

namespace Stands

variable {seen seen' : List (Event κ (Request ι) Reply)} {s : Callers κ ι} {t t' : Lists κ ι}
  {c : κ} {i : ι}

/-- Links that the caller in a section may write are no other queue's, and no other caller's. -/
theorem apart (h : Stands seen s t) {a b : Keeper κ ι} {next' : Links}
    (writes : ∀ x, next' x ≠ s.next x → Has t a x) (other : a ≠ b) {x : Task} (has : Has t b x) :
    next' x = s.next x := by
  by_contra different
  exact other (h.kept.alone a b x (writes x different) has)

theorem start (next : Links) :
    Stands [] (.fresh κ ι next) (.fresh κ (Request ι) Reply fun _ => []) where
  kept := .fresh
  pending _ := rfl
  size _ := rfl
  sole _ _ _ holds := nomatch holds
  held _ _ holds := nomatch holds
  free _ _ := ⟨rfl, .empty next⟩

theorem absent (h : Stands seen s t) {place : Place ι} (here : s.place c = place) {value : Task}
    (mine : value? place.pending = some value) : value ∉ t.object i := by
  subst here
  intro inside
  have has : Has t (.caller c) value := by
    simpa only [Has, h.pending] using mine
  cases h.kept.alone _ (.queue i) value has inside

theorem within (h : Stands seen s t) {place : Place ι} (here : s.place c = place)
    (holds : place.holds = some i) :
    place.Within (s.queues i) s.next (t.object i) := by
  subst here
  exact (h.held c i holds).2

variable [DecidableEq κ]

/-- A caller goes from one place without a lock to another. -/
theorem goes (h : Stands seen s t) {place : Place ι} (before : (s.place c).holds = none)
    (after : place.holds = none) {pending : Pending (Request ι) Reply}
    (same : place.pending = pending)
    (kept : Kept seen' ⟨t.object, Function.update t.pending c pending⟩) :
    Stands seen' (s.goes c place) ⟨t.object, Function.update t.pending c pending⟩ := by
  have holds : ∀ d, (Function.update s.place c place d).holds = (s.place d).holds := by
    intro d
    by_cases here : d = c
    · subst here
      rw [Function.update_self, before, after]
    · rw [Function.update_of_ne here]
  refine ⟨kept, fun d => ?_, h.size, fun d e j => ?_, fun d j held => ?_, fun j nobody => ?_⟩
  · by_cases here : d = c
    · subst here
      simp only [Callers.goes, Function.update_self, same]
    · simp only [Callers.goes, Function.update_of_ne here, h.pending]
  · simp only [Callers.goes, holds]
    exact h.sole d e j
  · simp only [Callers.goes, holds] at held
    have other : d ≠ c := by
      rintro rfl
      rw [before] at held
      cases held
    simp only [Callers.goes, Function.update_of_ne other]
    exact h.held d j held
  · simp only [Callers.goes, holds] at nobody
    exact h.free j nobody

/-- The same within one call. -/
theorem proceeds (h : Stands seen s t) {place : Place ι} (before : (s.place c).holds = none)
    (after : place.holds = none) (same : place.pending = (s.place c).pending) :
    Stands seen (s.goes c place) t := by
  have unchanged : t = ⟨t.object, Function.update t.pending c (s.place c).pending⟩ := by
    rw [← h.pending c, Function.update_eq_self]
  rw [unchanged]
  exact h.goes before after same (unchanged ▸ h.kept)

variable [DecidableEq ι]

/-- A caller with the lock of a queue makes an access, and its call may be served with it. -/
theorem access (h : Stands seen s t) (holds : (s.place c).holds = some i)
    {result : Queue × Links × Place ι} (stays : result.2.2.holds = some i) (kept : Kept seen t')
    (others : ∀ j, j ≠ i → t'.object j = t.object j)
    (pending : t'.pending = Function.update t.pending c result.2.2.pending)
    (within : result.2.2.Within result.1 result.2.1 (t'.object i))
    (size : result.1.size = (t'.object i).length % 2 ^ 32) {a : Keeper κ ι}
    (mine : a = .queue i ∨ a = .caller c) (writes : ∀ x, result.2.1 x ≠ s.next x → Has t a x) :
    Stands seen (s.access c i result) t' := by
  have same : ∀ d, (Function.update s.place c result.2.2 d).holds = (s.place d).holds := by
    intro d
    by_cases here : d = c
    · subst here
      rw [Function.update_self, stays, holds]
    · rw [Function.update_of_ne here]
  have links : ∀ j, j ≠ i → ∀ x ∈ t.object j, result.2.1 x = s.next x := by
    intro j other x member
    refine h.apart (b := .queue j) writes ?_ member
    rcases mine with rfl | rfl
    · exact fun equal => other (Keeper.queue.inj equal).symm
    · exact nofun
  refine ⟨kept, fun d => ?_, fun j => ?_, fun d e j => ?_, fun d j held => ?_, fun j nobody => ?_⟩
  · rw [pending]
    by_cases here : d = c
    · subst here
      simp only [Callers.access, Function.update_self]
    · simp only [Callers.access, Function.update_of_ne here, h.pending]
  · by_cases here : j = i
    · subst here
      simp only [Callers.access, Function.update_self, size]
    · simp only [Callers.access, Function.update_of_ne here, others j here, h.size]
  · simp only [Callers.access, same]
    exact h.sole d e j
  · simp only [Callers.access, same] at held
    obtain ⟨locked, inside⟩ := h.held d j held
    refine ⟨locked, ?_⟩
    by_cases here : d = c
    · subst here
      obtain rfl : i = j := Option.some.inj (holds.symm.trans held)
      simpa only [Callers.access, Function.update_self] using within
    · have other : j ≠ i := by
        rintro rfl
        exact here (h.sole d c j held holds)
      simp only [Callers.access, Function.update_of_ne here, Function.update_of_ne other,
        others j other]
      refine inside.frame (links j other) fun value has => ?_
      refine h.apart (b := .caller d) writes ?_ (by simpa only [Has, h.pending] using has)
      rcases mine with rfl | rfl
      · exact nofun
      · exact fun equal => here (Keeper.caller.inj equal).symm
  · simp only [Callers.access, same] at nobody
    obtain ⟨unlocked, shows⟩ := h.free j nobody
    have other : j ≠ i := by
      rintro rfl
      exact nobody c holds
    simp only [Callers.access, Function.update_of_ne other, others j other]
    exact ⟨unlocked, shows.frame (links j other)⟩

/-- An access with which no call is served. -/
theorem accesses (h : Stands seen s t) {place : Place ι} (here : s.place c = place)
    (holds : place.holds = some i) {result : Queue × Links × Place ι}
    (stays : result.2.2.holds = some i) (pending : result.2.2.pending = place.pending)
    (within : result.2.2.Within result.1 result.2.1 (t.object i))
    (size : result.1.size = (s.queues i).size) {a : Keeper κ ι}
    (mine : a = .queue i ∨ a = .caller c) (writes : ∀ x, result.2.1 x ≠ s.next x → Has t a x) :
    Stands seen (s.access c i result) t := by
  subst here
  refine h.access holds stays h.kept (fun _ _ => rfl) ?_ within (size.trans (h.size i)) mine writes
  rw [pending, ← h.pending c, Function.update_eq_self]

/-- An access that reads, or writes a field of the queue. -/
theorem fields (h : Stands seen s t) {place : Place ι} (here : s.place c = place)
    (holds : place.holds = some i) {q : Queue} {place' : Place ι} (stays : place'.holds = some i)
    (pending : place'.pending = place.pending) (within : place'.Within q s.next (t.object i))
    (size : q.size = (s.queues i).size) :
    Stands seen (s.access c i (q, s.next, place')) t :=
  h.accesses here holds stays pending within size (.inl rfl) fun _ different => absurd rfl different

/-- The access with which a call is served. -/
theorem serves (h : Stands seen s t) {place : Place ι} (here : s.place c = place)
    (holds : place.holds = some i) (request : Request ι)
    (pending : place.pending = .called request) {q : Queue}
    (others : ∀ j, j ≠ i → (request.serve t.object).1 j = t.object j)
    (shows : q.Shows s.next ((request.serve t.object).1 i)) :
    Stands seen (s.access c i (q, s.next, .releases i (request.serve t.object).2))
      ⟨(request.serve t.object).1,
        Function.update t.pending c (.answered (request.serve t.object).2)⟩ := by
  subst here
  have waiting : t.pending c = .called request := (h.pending c).trans pending
  exact h.access holds rfl (h.kept.serves waiting) others rfl shows shows.size (a :=
    .queue i) (.inl rfl)
    fun _ different => absurd rfl different

end Stands

end Sections

end Mykonos.Tasks
