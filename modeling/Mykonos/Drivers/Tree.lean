import Mykonos.Lib.Run
import Mykonos.Tasks.Completion

/-! # Loading the device tree

Every device is loaded by a thread of its own. `load` appends the children of the
device, each with a new thread, and `loadAndWait` then waits for the completion of each
child before it signals its own.
-/

namespace Mykonos.Drivers

open Lib Tasks

/-- A `DeviceTree` object, named by its place: the way from the root, one index for each
    `appendAndLoad`. -/
abbrev Path := List Nat

/-- What is there to be found: a device has those that its `load` appends. -/
inductive Device where
  | mk (children : List Device)

namespace Device

def children : Device → List Device
  | mk children => children

def at? (device : Device) : Path → Option Device
  | [] => some device
  | i :: rest => device.children[i]?.bind fun child => child.at? rest

/-- How many children the `load` of the device at a path appends. -/
def childCount (root : Device) (path : Path) : Nat :=
  ((root.at? path).map fun device => device.children.length).getD 0

def Has (root : Device) (path : Path) : Prop :=
  (root.at? path).isSome

theorem at?_append (root : Device) (path rest : Path) :
    root.at? (path ++ rest) = (root.at? path).bind fun device => device.at? rest := by
  induction path generalizing root with
  | nil => rfl
  | cons i path ih =>
      simp only [List.cons_append, at?]
      cases root.children[i]? with
      | none => rfl
      | some child => exact ih child

theorem has_child_iff {root : Device} {path : Path} {i : Nat} :
    root.Has (path ++ [i]) ↔ i < root.childCount path := by
  unfold Has childCount
  rw [at?_append]
  cases root.at? path with
  | none => simp
  | some device => simp [at?]

theorem Has.parent {root : Device} {path rest : Path} (h : root.Has (path ++ rest)) :
    root.Has path := by
  unfold Has at *
  rw [at?_append] at h
  cases found : root.at? path with
  | none => simp [found] at h
  | some device => rfl

end Device

/-- Where the thread of a device is. -/
inductive Thread where
  | absent
  /-- In `load`, with some children appended. -/
  | loading (appended : Nat)
  /-- In `appendAndLoad`, with the child linked and its thread still to be created. -/
  | creating (i : Nat)
  /-- In the loop of `loadAndWait`, with the iterator at a child or at the end. -/
  | iterating (ptr : Option Path)
  /-- In `await`, in the queue of the child's completion. -/
  | blocked (ptr : Path)
  /-- Passed to `addTask`, still in `yield`. -/
  | woken (ptr : Path)
  | finished
  deriving Repr, DecidableEq

namespace Thread

/-- Before the end of `load`. -/
def early : Thread → Bool
  | .absent | .loading _ | .creating _ => true
  | .iterating _ | .blocked _ | .woken _ | .finished => false

/-- How many of the children are linked. -/
def linked (count : Nat) : Thread → Nat
  | .absent => 0
  | .loading appended => appended
  | .creating i => i + 1
  | .iterating _ | .blocked _ | .woken _ | .finished => count

/-- How many of the children have a thread. -/
def created (count : Nat) : Thread → Nat
  | .absent => 0
  | .loading appended => appended
  | .creating i => i
  | .iterating _ | .blocked _ | .woken _ | .finished => count

def wake : Thread → Thread
  | .blocked ptr => .woken ptr
  | thread => thread

end Thread

/-- The fields of all `DeviceTree` objects, their threads, and how often `load` came to
    its end for each of them. -/
structure DeviceTree where
  firstChild : Path → Option Path := fun _ => none
  lastChild : Path → Option Path := fun _ => none
  next : Path → Option Path := fun _ => none
  initializationCompletion : Path → Latch Path := fun _ => {}
  thread : Path → Thread
  loaded : Path → Nat := fun _ => 0

namespace DeviceTree

def setThread (s : DeviceTree) (path : Path) (thread : Thread) : DeviceTree :=
  { s with thread := Function.update s.thread path thread }

/-- The part of `appendAndLoad` before `thread::create`. -/
def append (s : DeviceTree) (path child : Path) : DeviceTree :=
  match s.firstChild path, s.lastChild path with
  | none, _ =>
      { s with
        firstChild := Function.update s.firstChild path (some child)
        lastChild := Function.update s.lastChild path (some child) }
  | some _, none => { s with lastChild := Function.update s.lastChild path (some child) }
  | some _, some last =>
      { s with
        next := Function.update s.next last (some child)
        lastChild := Function.update s.lastChild path (some child) }

/-- `signalComplete` of the device, whose thread is then at its end. -/
def signalComplete (s : DeviceTree) (path : Path) : DeviceTree :=
  let signalled := (s.initializationCompletion path).signalComplete
  { s with
    initializationCompletion := Function.update s.initializationCompletion path signalled.1
    thread := Function.update
      (fun other => if other ∈ signalled.2 then (s.thread other).wake else s.thread other) path
      .finished }

/-- `await` of the device at the iterator. -/
def await (s : DeviceTree) (path ptr : Path) : DeviceTree :=
  let completion := s.initializationCompletion ptr
  { s with
    initializationCompletion :=
      Function.update s.initializationCompletion ptr (completion.await path) }.setThread
    path (if completion.completed then .iterating (s.next ptr) else .blocked ptr)

/-- The next step of the thread of a device. -/
def after? (root : Device) (s : DeviceTree) (path : Path) : Option DeviceTree :=
  match s.thread path with
  | .absent | .blocked _ | .finished => none
  | .loading appended =>
      if appended < root.childCount path then
        some ((s.append path (path ++ [appended])).setThread path (.creating appended))
      else
        some ({ s with loaded := Function.update s.loaded path (s.loaded path + 1) }.setThread path
          (.iterating (s.firstChild path)))
  | .creating i => some ((s.setThread (path ++ [i]) (.loading 0)).setThread path (.loading (i + 1)))
  | .iterating none => some (s.signalComplete path)
  | .iterating (some ptr) => some (s.await path ptr)
  | .woken ptr => some (s.setThread path (.iterating (s.next ptr)))

def Step (root : Device) (s : DeviceTree) (path : Path) (t : DeviceTree) : Prop :=
  s.after? root path = some t

/-- `loadRootDevice` has called `loadAndWait`. -/
def started : DeviceTree where
  thread path := if path = [] then .loading 0 else .absent

def completed (s : DeviceTree) (path : Path) : Bool :=
  (s.initializationCompletion path).completed

/-- The iterator is at a child, or at the end, and those before it are completed. -/
def Past (root : Device) (s : DeviceTree) (path : Path) (ptr : Option Path) : Prop :=
  ∃ i ≤ root.childCount path,
    (ptr = if i < root.childCount path then some (path ++ [i]) else none) ∧
    ∀ j < i, s.completed (path ++ [j]) = true

/-- The children are linked in order and then get their threads. -/
structure Grown (root : Device) (s : DeviceTree) : Prop where
  known : ∀ p, s.thread p ≠ .absent → root.Has p
  bounded : ∀ p, (s.thread p).linked (root.childCount p) ≤ root.childCount p
  first : ∀ p, s.firstChild p =
    if 0 < (s.thread p).linked (root.childCount p) then some (p ++ [0]) else none
  last : ∀ p, s.lastChild p = if 0 < (s.thread p).linked (root.childCount p) then
    some (p ++ [(s.thread p).linked (root.childCount p) - 1]) else none
  next : ∀ p i, s.next (p ++ [i]) = if i + 1 < (s.thread p).linked (root.childCount p) then
    some (p ++ [i + 1]) else none
  created : ∀ p i, s.thread (p ++ [i]) ≠ .absent ↔ i < (s.thread p).created (root.childCount p)

/-- A device is completed when its thread has passed all of its children. -/
structure Ordered (root : Device) (s : DeviceTree) : Prop extends Grown root s where
  once : ∀ p, s.loaded p = if (s.thread p).early then 0 else 1
  iterating : ∀ p ptr, s.thread p = .iterating ptr → s.Past root p ptr
  blocked : ∀ p ptr, s.thread p = .blocked ptr → s.Past root p (some ptr)
  woken : ∀ p ptr, s.thread p = .woken ptr → s.Past root p (some ptr) ∧ s.completed ptr = true
  finished : ∀ p, s.completed p = true ↔ s.thread p = .finished
  covered : ∀ p, s.completed p = true → ∀ j < root.childCount p, s.completed (p ++ [j]) = true
  waiting : ∀ p q, p ∈ (s.initializationCompletion q).waiting → s.thread p = .blocked q

section Steps

variable {root : Device} {s t : DeviceTree} {path : Path}

theorem snoc_inj {p q : Path} {i j : Nat} : p ++ [i] = q ++ [j] ↔ p = q ∧ i = j := by
  rw [← List.concat_eq_append, ← List.concat_eq_append, List.concat_inj]

/-- Which children are linked and have threads depends on the state of the thread only
    before the end of `load`. -/
theorem Grown.frame (h : Grown root s) (first : t.firstChild = s.firstChild)
    (last : t.lastChild = s.lastChild) (next : t.next = s.next)
    (threads : ∀ p, (t.thread p).linked (root.childCount p) =
      (s.thread p).linked (root.childCount p) ∧
      (t.thread p).created (root.childCount p) = (s.thread p).created (root.childCount p) ∧
      (t.thread p = .absent ↔ s.thread p = .absent)) : Grown root t := by
  refine ⟨?_, ?_, ?_, ?_, ?_, ?_⟩
  · intro p there
    exact h.known p ((threads p).2.2.not.mp there)
  · intro p
    rw [(threads p).1]
    exact h.bounded p
  · intro p
    rw [first, (threads p).1]
    exact h.first p
  · intro p
    rw [last, (threads p).1]
    exact h.last p
  · intro p i
    rw [next, (threads p).1]
    exact h.next p i
  · intro p i
    rw [(threads p).2.1, ← h.created]
    exact (threads (p ++ [i])).2.2.not

/-- Nobody waits for what happens before the end of `load`. -/
theorem Ordered.loads (h : Ordered root s) (grown : Grown root t) (loaded : t.loaded = s.loaded)
    (completions : t.initializationCompletion = s.initializationCompletion)
    (threads : ∀ p, t.thread p = s.thread p ∨ (s.thread p).early =
      true ∧ (t.thread p).early = true) :
    Ordered root t := by
  have completed (p : Path) : t.completed p = s.completed p := by
    rw [completed, completions, ← completed]
  have late {p : Path} {thread : Thread} (at_p : t.thread p = thread)
    (past : thread.early = false) :
      s.thread p = thread := by
    grind
  have past {p : Path} {ptr : Option Path} (h : s.Past root p ptr) : t.Past root p ptr := by
    simpa only [Past, completed] using h
  refine ⟨grown, ?_, ?_, ?_, ?_, ?_, ?_, ?_⟩
  · intro p
    rw [loaded, h.once]
    grind
  · exact fun p ptr at_p => past (h.iterating p ptr (late at_p rfl))
  · exact fun p ptr at_p => past (h.blocked p ptr (late at_p rfl))
  · intro p ptr at_p
    rw [completed]
    obtain ⟨before, set⟩ := h.woken p ptr (late at_p rfl)
    exact ⟨past before, set⟩
  · intro p
    rw [completed, h.finished]
    rcases threads p with same | ⟨early, early'⟩
    · rw [same]
    · constructor
      · intro at_p
        simp [at_p, Thread.early] at early
      · intro at_p
        simp [at_p, Thread.early] at early'
  · simpa only [completed] using h.covered
  · intro p q member
    rw [completions] at member
    have at_p := h.waiting p q member
    rcases threads p with same | ⟨early, _⟩
    · rw [same, at_p]
    · simp [at_p, Thread.early] at early

/-- What `appendAndLoad` writes when some children are linked already. -/
theorem Grown.append (h : Grown root s) {k : Nat} (loading : s.thread path = .loading k) :
    s.append path (path ++ [k]) =
      { s with
        firstChild := Function.update s.firstChild path (some (path ++ [0]))
        lastChild := Function.update s.lastChild path (some (path ++ [k]))
        next :=
          if k = 0 then s.next
          else Function.update s.next (path ++ [k - 1]) (some (path ++ [k])) } := by
  have first := h.first path
  have last := h.last path
  rw [loading, Thread.linked] at first last
  unfold DeviceTree.append
  cases k with
  | zero =>
      simp only [Nat.lt_irrefl, if_false] at first
      simp [first]
  | succ k =>
      simp only [Nat.zero_lt_succ, if_true, Nat.add_sub_cancel] at first last
      have same : Function.update s.firstChild path (some (path ++ [0])) = s.firstChild := by
        rw [← first, Function.update_eq_self]
      simp [first, last, same]

/-- A child is linked behind the others. -/
theorem Ordered.append (h : Ordered root s) {k : Nat} (loading : s.thread path = .loading k)
    (more : k < root.childCount path) :
    Ordered root ((s.append path (path ++ [k])).setThread path (.creating k)) := by
  rw [h.toGrown.append loading]
  unfold setThread
  refine h.loads ⟨?_, ?_, ?_, ?_, ?_, ?_⟩ rfl rfl ?_
  · intro p there
    apply h.known
    grind
  · intro p
    have bounded := h.bounded p
    grind [Thread.linked]
  · intro p
    have first := h.first p
    grind [Thread.linked]
  · intro p
    have last := h.last p
    grind [Thread.linked]
  · intro p i
    have next := h.next p i
    by_cases own : p = path
    · subst own
      simp only [loading, Thread.linked, Function.update_self] at next ⊢
      grind [snoc_inj]
    · simp only [Function.update_of_ne own, ← next]
      split
      · rfl
      · exact Function.update_of_ne (by simp [own]) _ _
  · intro p i
    have made := h.created p i
    grind [Thread.created]
  · intro p
    grind [Thread.early]

/-- The child gets its thread. -/
theorem Ordered.create (h : Ordered root s) {k : Nat} (creating : s.thread path = .creating k) :
    Ordered root ((s.setThread (path ++ [k]) (.loading 0)).setThread path (.loading (k + 1))) := by
  have fresh : s.thread (path ++ [k]) = .absent := by
    have made := h.created path k
    simpa [creating, Thread.created] using made
  have below : k < root.childCount path := by
    have bounded := h.bounded path
    rw [creating, Thread.linked] at bounded
    exact bounded
  have longer : path ++ [k] ≠ path := by simp
  unfold setThread
  refine h.loads ⟨?_, ?_, ?_, ?_, ?_, ?_⟩ rfl rfl ?_
  · intro p there
    by_cases child : p = path ++ [k]
    · subst child
      exact Device.has_child_iff.mpr below
    · apply h.known
      grind
  · intro p
    have bounded := h.bounded p
    grind [Thread.linked]
  · intro p
    have first := h.first p
    grind [Thread.linked]
  · intro p
    have last := h.last p
    grind [Thread.linked]
  · intro p i
    have next := h.next p i
    grind [Thread.linked]
  · intro p i
    have made := h.created p i
    grind [Thread.created, snoc_inj]
  · intro p
    grind [Thread.early]

theorem Past.frame {p : Path} {ptr : Option Path} (h : s.Past root p ptr)
    (kept : ∀ q, s.completed q = true → t.completed q = true) : t.Past root p ptr := by
  obtain ⟨i, bound, place, before⟩ := h
  exact ⟨i, bound, place, fun j below => kept _ (before j below)⟩

/-- The iterator of one thread comes to a child, or to the end. -/
theorem Ordered.iterates (h : Ordered root s) (grown : Grown root t)
    (others : ∀ p, p ≠ path → t.thread p = s.thread p)
    (completed : ∀ p, t.completed p = s.completed p)
    (loaded : t.loaded = Function.update s.loaded path 1) (running : s.thread path ≠ .finished)
    {ptr : Option Path} (past : s.Past root path ptr)
    (here : t.thread path = .iterating ptr ∨ ∃ q, ptr = some q ∧ t.thread path = .blocked q)
    (waiting : ∀ p q, p ∈ (t.initializationCompletion q).waiting → t.thread p = .blocked q) :
    Ordered root t := by
  have kept (q : Path) (set : s.completed q = true) : t.completed q = true :=
    (completed q).trans set
  refine ⟨grown, ?_, ?_, ?_, ?_, ?_, ?_, waiting⟩
  · intro p
    have once := h.once p
    rw [loaded]
    grind [Thread.early]
  · intro p q at_p
    by_cases own : p = path
    · subst own
      obtain rfl : ptr = q := by grind
      exact past.frame kept
    · exact (h.iterating p q (others p own ▸ at_p)).frame kept
  · intro p q at_p
    by_cases own : p = path
    · subst own
      obtain rfl : ptr = some q := by grind
      exact past.frame kept
    · exact (h.blocked p q (others p own ▸ at_p)).frame kept
  · intro p q at_p
    have elsewhere : p ≠ path := by grind
    obtain ⟨before, set⟩ := h.woken p q (others p elsewhere ▸ at_p)
    exact ⟨before.frame kept, kept q set⟩
  · intro p
    rw [completed, h.finished]
    grind
  · simpa only [completed] using h.covered

/-- A thread that runs is in no queue. -/
theorem Ordered.waiting_running (h : Ordered root s) {thread : Thread}
    (free : ∀ q, s.thread path ≠ .blocked q) {p q : Path}
    (member : p ∈ (s.initializationCompletion q).waiting) :
    Function.update s.thread path thread p = .blocked q := by
  have blocked := h.waiting p q member
  have elsewhere : p ≠ path := by
    rintro rfl
    exact free q blocked
  rw [Function.update_of_ne elsewhere, blocked]

/-- A new state of a thread after `load` changes nothing about the children. -/
theorem Ordered.grown_late (h : Ordered root s) {thread : Thread} (late : thread.early = false)
    (whole : (s.thread path).linked (root.childCount path) = root.childCount path ∧
      (s.thread path).created (root.childCount path) = root.childCount path)
    (there : s.thread path ≠ .absent) (first : t.firstChild = s.firstChild)
    (last : t.lastChild = s.lastChild) (next : t.next = s.next)
    (threads : t.thread = Function.update s.thread path thread) : Grown root t := by
  refine h.toGrown.frame first last next fun p => ?_
  rw [threads]
  by_cases own : p = path
  · subst own
    cases thread <;> simp_all [Thread.early, Thread.linked, Thread.created]
  · simp [own]

/-- `load` comes to its end. -/
theorem Ordered.loaded (h : Ordered root s) {k : Nat} (loading : s.thread path = .loading k)
    (all : ¬k < root.childCount path) :
    Ordered root
      ({ s with loaded := Function.update s.loaded path (s.loaded path + 1) }.setThread path
        (.iterating (s.firstChild path))) := by
  have bounded := h.bounded path
  have first := h.first path
  have fresh := h.once path
  rw [loading, Thread.linked] at bounded first
  have whole : k = root.childCount path := by omega
  rw [loading, Thread.early, if_pos rfl] at fresh
  refine h.iterates (h.grown_late rfl ?_ ?_ rfl rfl rfl rfl) ?_ (fun _ => rfl) ?_ ?_ ⟨0,
    Nat.zero_le _, ?_, ?_⟩
    (.inl (Function.update_self _ _ _)) ?_
  · simp [loading, Thread.linked, Thread.created, whole]
  · simp [loading]
  · intro p other
    exact Function.update_of_ne other _ _
  · simp [setThread, fresh]
  · simp [loading]
  · rw [first, whole]
  · simp
  · exact fun p q => h.waiting_running (by simp [loading])

/-- The iterator goes on to the next child. -/
theorem Ordered.advance (h : Ordered root s) {ptr : Path} (past : s.Past root path (some ptr))
    (set : s.completed ptr = true)
    (there : s.thread path = .iterating (some ptr) ∨ s.thread path = .woken ptr) :
    Ordered root (s.setThread path (.iterating (s.next ptr))) := by
  obtain ⟨i, _, place, before⟩ := past
  obtain ⟨below, rfl⟩ : i < root.childCount path ∧ ptr = path ++ [i] := by grind
  have late : (s.thread path).early = false := by
    rcases there with at_p | at_p <;> rw [at_p] <;> rfl
  have whole : (s.thread path).linked (root.childCount path) = root.childCount path ∧
      (s.thread path).created (root.childCount path) = root.childCount path := by
    rcases there with at_p | at_p <;> rw [at_p] <;> exact ⟨rfl, rfl⟩
  have next := h.next path i
  rw [whole.1] at next
  have once := h.once path
  rw [late, if_neg Bool.false_ne_true] at once
  refine h.iterates (h.grown_late rfl whole ?_ rfl rfl rfl rfl) ?_ (fun _ => rfl) ?_ ?_ ⟨i + 1,
    below, next, ?_⟩
    (.inl (Function.update_self _ _ _)) ?_
  · rcases there with at_p | at_p <;> simp [at_p]
  · intro p other
    exact Function.update_of_ne other _ _
  · rw [← once, Function.update_eq_self]
    rfl
  · rcases there with at_p | at_p <;> simp [at_p]
  · intro j under
    rcases Nat.lt_succ_iff_lt_or_eq.mp under with earlier | rfl
    · exact before j earlier
    · exact set
  · refine fun p q => h.waiting_running ?_
    rcases there with at_p | at_p <;> simp [at_p]

/-- The child is not completed, and the thread waits in its queue. -/
theorem Ordered.block (h : Ordered root s) {ptr : Path}
    (iterating : s.thread path = .iterating (some ptr)) (open_ : s.completed ptr = false) :
    Ordered root (s.await path ptr) := by
  have past := h.iterating path _ iterating
  have once := h.once path
  rw [iterating, Thread.early, if_neg Bool.false_ne_true] at once
  have completed (p : Path) : (s.await path ptr).completed p = s.completed p := by
    unfold DeviceTree.await DeviceTree.completed setThread
    grind [Latch.await]
  have threads : (s.await path ptr).thread = Function.update s.thread path (.blocked ptr) := by
    unfold DeviceTree.completed at open_
    simp [DeviceTree.await, setThread, open_]
  refine h.iterates (h.grown_late rfl ?_ ?_ rfl rfl rfl threads) ?_ completed ?_ ?_ past
    (.inr ⟨ptr, rfl, ?_⟩) ?_
  · rw [iterating]
    exact ⟨rfl, rfl⟩
  · simp [iterating]
  · intro p other
    rw [threads, Function.update_of_ne other]
  · rw [← once, Function.update_eq_self]
    rfl
  · simp [iterating]
  · rw [threads, Function.update_self]
  · intro p q member
    rw [threads]
    have enqueued : p ∈ (s.initializationCompletion q).waiting ∨ p = path ∧ q = ptr := by
      unfold DeviceTree.await setThread at member
      grind [Latch.await]
    rcases enqueued with before | ⟨rfl, rfl⟩
    · exact h.waiting_running (by simp [iterating]) before
    · exact Function.update_self _ _ _

/-- The child is completed, and `await` returns at once. -/
theorem Ordered.awaited (h : Ordered root s) {ptr : Path}
    (iterating : s.thread path = .iterating (some ptr)) (set : s.completed ptr = true) :
    Ordered root (s.await path ptr) := by
  have same : s.await path ptr = s.setThread path (.iterating (s.next ptr)) := by
    unfold DeviceTree.completed at set
    have kept : (s.initializationCompletion ptr).await path = s.initializationCompletion ptr :=
      if_pos set
    unfold DeviceTree.await
    simp only [kept, set, if_true, Function.update_eq_self]
  rw [same]
  exact h.advance (h.iterating path _ iterating) set (.inl iterating)

/-- All children are completed, and the device is too. -/
theorem Ordered.signalComplete (h : Ordered root s) (iterating : s.thread path = .iterating none) :
    Ordered root (s.signalComplete path) := by
  obtain ⟨i, bound, place, before⟩ := h.iterating path none iterating
  have whole : i = root.childCount path := by grind
  have completed (p : Path) :
      (s.signalComplete path).completed p = true ↔ p = path ∨ s.completed p = true := by
    unfold DeviceTree.signalComplete DeviceTree.completed
    grind [Latch.signalComplete]
  have kept (p : Path) (set : s.completed p = true) : (s.signalComplete path).completed p = true :=
    (completed p).mpr (.inr set)
  have here : (s.signalComplete path).thread path = .finished := by simp [DeviceTree.signalComplete]
  have others (p : Path) (other : p ≠ path) : (s.signalComplete path).thread p = s.thread p ∨
      s.thread p = .blocked path ∧ (s.signalComplete path).thread p = .woken path := by
    have threads : (s.signalComplete path).thread p =
        if p ∈ (s.initializationCompletion path).waiting then (s.thread p).wake
        else s.thread p := by
      simp only [DeviceTree.signalComplete, Function.update_of_ne other]
      rfl
    rw [threads]
    by_cases member : p ∈ (s.initializationCompletion path).waiting
    · rw [if_pos member, h.waiting p path member]
      exact .inr ⟨rfl, rfl⟩
    · exact .inl (if_neg member)
  refine ⟨h.toGrown.frame rfl rfl rfl ?_, ?_, ?_, ?_, ?_, ?_, ?_, ?_⟩
  · intro p
    by_cases own : p = path
    · subst own
      rw [here, iterating]
      simp [Thread.linked, Thread.created]
    · rcases others p own with same | ⟨was, is⟩
      · simp [same]
      · simp [was, is, Thread.linked, Thread.created]
  · intro p
    have once := h.once p
    have loaded : (s.signalComplete path).loaded = s.loaded := rfl
    rw [loaded, once]
    by_cases own : p = path
    · subst own
      rw [here, iterating]
      rfl
    · rcases others p own with same | ⟨was, is⟩
      · rw [same]
      · rw [was, is]
        rfl
  · intro p ptr at_p
    exact (h.iterating p ptr (by grind)).frame kept
  · intro p ptr at_p
    exact (h.blocked p ptr (by grind)).frame kept
  · intro p ptr at_p
    have elsewhere : p ≠ path := by grind
    rcases others p elsewhere with same | ⟨was, is⟩
    · obtain ⟨past, set⟩ := h.woken p ptr (same ▸ at_p)
      exact ⟨past.frame kept, kept ptr set⟩
    · obtain rfl := Thread.woken.inj (is.symm.trans at_p)
      exact ⟨(h.blocked p path was).frame kept, (completed path).mpr (.inl rfl)⟩
  · intro p
    rw [completed, h.finished]
    grind
  · intro p set j below
    apply kept
    rcases (completed p).mp set with rfl | earlier
    · exact before j (whole ▸ below)
    · exact h.covered p earlier j below
  · intro p q member
    have elsewhere : q ≠ path := by
      rintro rfl
      simp [DeviceTree.signalComplete, Latch.signalComplete] at member
    have blocked := h.waiting p q (by simpa [DeviceTree.signalComplete, elsewhere] using member)
    have own : p ≠ path := by
      rintro rfl
      simp [blocked] at iterating
    rcases others p own with same | ⟨was, _⟩
    · rw [same, blocked]
    · obtain rfl := Thread.blocked.inj (blocked.symm.trans was)
      exact absurd rfl elsewhere

theorem Ordered.step (h : Ordered root s) (taken : Step root s path t) : Ordered root t := by
  unfold Step after? at taken
  cases at_path : s.thread path with
  | absent | blocked _ | finished => simp [at_path] at taken
  | loading k =>
      simp only [at_path] at taken
      by_cases more : k < root.childCount path
      · rw [if_pos more] at taken
        exact Option.some.inj taken ▸ h.append at_path more
      · rw [if_neg more] at taken
        exact Option.some.inj taken ▸ h.loaded at_path more
  | creating k =>
      simp only [at_path] at taken
      exact Option.some.inj taken ▸ h.create at_path
  | iterating ptr =>
      cases ptr with
      | none =>
          simp only [at_path] at taken
          exact Option.some.inj taken ▸ h.signalComplete at_path
      | some ptr =>
          simp only [at_path] at taken
          obtain rfl := Option.some.inj taken
          cases set : s.completed ptr with
          | true => exact h.awaited at_path set
          | false => exact h.block at_path set
  | woken ptr =>
      simp only [at_path] at taken
      obtain ⟨past, set⟩ := h.woken path ptr at_path
      exact Option.some.inj taken ▸ h.advance past set (.inr at_path)

end Steps

theorem started_ordered (root : Device) : Ordered root started := by
  have threads (p : Path) : started.thread p = .loading 0 ∨ started.thread p = .absent := by
    unfold started
    grind
  have late {p : Path} {thread : Thread} (at_p : started.thread p = thread) (past : thread.early =
      false) : False := by
    rcases threads p with is | is <;> rw [is] at at_p <;> simp [← at_p, Thread.early] at past
  have linked (p : Path) : (started.thread p).linked (root.childCount p) = 0 ∧
      (started.thread p).created (root.childCount p) = 0 ∧ (started.thread p).early = true := by
    rcases threads p with is | is <;> rw [is] <;> exact ⟨rfl, rfl, rfl⟩
  refine ⟨⟨?_, ?_, ?_, ?_, ?_, ?_⟩, ?_, ?_, ?_, ?_, ?_, ?_, ?_⟩
  · intro p there
    obtain rfl : p = [] := by
      by_contra other
      exact there (if_neg other)
    rfl
  · intro p
    rw [(linked p).1]
    exact Nat.zero_le _
  · intro p
    rw [(linked p).1]
    rfl
  · intro p
    rw [(linked p).1]
    rfl
  · intro p i
    rw [(linked p).1, if_neg (Nat.not_lt_zero _)]
    rfl
  · intro p i
    rw [(linked p).2.1]
    simp [started]
  · intro p
    rw [(linked p).2.2]
    rfl
  · exact fun p ptr at_p => (late at_p rfl).elim
  · exact fun p ptr at_p => (late at_p rfl).elim
  · exact fun p ptr at_p => (late at_p rfl).elim
  · intro p
    exact ⟨fun set => absurd set Bool.false_ne_true, fun at_p => (late at_p rfl).elim⟩
  · exact fun p set => absurd set Bool.false_ne_true
  · intro p q member
    simp [started] at member

theorem Ordered.loaded_below {root : Device} {s : DeviceTree} (h : Ordered root s) {p rest : Path}
    (completed : s.completed p = true) (has : root.Has (p ++ rest)) : s.loaded (p ++ rest) = 1 := by
  induction rest generalizing p with
  | nil =>
      rw [List.append_nil, h.once, (h.finished p).mp completed]
      rfl
  | cons i rest ih =>
      have split : p ++ i :: rest = p ++ [i] ++ rest := by simp
      rw [split] at has ⊢
      exact ih (h.covered p completed i (Device.has_child_iff.mp has.parent)) has

theorem runs_ordered {root : Device} {s : DeviceTree} {order : List Path}
    (run : Run (Step root) started order s) :
    Ordered root s :=
  run.invariant (started_ordered root) fun _ _ _ h taken => h.step taken

/-- No device is loaded twice and none that is not there; a device that is completed is
    loaded with all below it, and all are when `loadRootDevice` returns. -/
theorem completed_after_subtree (root : Device) (order : List Path) (s : DeviceTree)
    (run : Run (Step root) started order s) :
    (∀ p, s.loaded p ≤ 1 ∧ (s.loaded p = 1 → root.Has p)) ∧
      (∀ p, s.completed p = true → root.Has p ∧ ∀ q, p <+: q → root.Has q → s.loaded q = 1) ∧
      (s.thread [] = .finished → ∀ q, root.Has q → s.loaded q = 1) := by
  have h := runs_ordered run
  have below (p : Path) (set : s.completed p = true) (q : Path) (under : p <+: q)
    (has : root.Has q) :
      s.loaded q = 1 := by
    obtain ⟨rest, rfl⟩ := under
    exact h.loaded_below set has
  refine ⟨?_, ?_, ?_⟩
  · intro p
    rw [h.once]
    cases early : (s.thread p).early with
    | true => exact ⟨Nat.zero_le 1, fun never => absurd never Nat.zero_ne_one⟩
    | false =>
        refine ⟨Nat.le_refl 1, fun _ => h.known p ?_⟩
        intro absent
        simp [absent, Thread.early] at early
  · intro p set
    refine ⟨h.known p ?_, below p set⟩
    rw [(h.finished p).mp set]
    exact Thread.noConfusion
  · intro returned q has
    exact below [] ((h.finished []).mpr returned) q (List.nil_prefix) has

/-- A root with two children, the first of which has one of its own. -/
def threeBelow : Device :=
  .mk [.mk [.mk []], .mk []]

/-- The root waits for its first child, which waits for its own. -/
def waitingOrder : List Path :=
  [[], [], [], [], [], [], [0], [0], [0], [0], [1], [1], [0, 0], [0, 0], [0], [0], [], [], []]

theorem completed_after_subtree_waiting :
    ∃ s, Run (Step threeBelow) started waitingOrder s ∧ s.thread [] = .finished ∧
      threeBelow.Has [0, 0] ∧ s.loaded [0, 0] = 1 := by
  have computed : ∃ s, waitingOrder.foldlM (after? threeBelow) started = some s ∧
      s.thread [] = .finished :=
    ⟨_, rfl, by decide +kernel⟩
  obtain ⟨s, replayed, returned⟩ := computed
  have run : Run (Step threeBelow) _ _ s := Run.of_foldlM replayed
  have there : threeBelow.Has [0, 0] := rfl
  exact ⟨s, run, returned, there, (completed_after_subtree _ _ s run).2.2 returned _ there⟩

end DeviceTree

end Mykonos.Drivers
