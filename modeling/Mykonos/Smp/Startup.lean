import Mykonos.Heap.Ownership

/-! # Starting the other processors

The stacks are allocated by processor number. A processor takes its number from a
counter in the trampoline and loads the stack of that number, while `kstart` records in
its initial task the stack at its place in the MADT.
-/

namespace Mykonos.Smp

open Memory Paging Heap

/-- The local APICs that the MADT reports; `madt.cpp` keeps no more than
    `MAX_LOCAL_APICS`. -/
structure Madt where
  localApics : List Nat
  fits : localApics.length ≤ 64
  deriving Repr, DecidableEq

/-- The loop of `allocateStacks` from a given index, for the entries that are left. -/
def allocateStacksFrom : Nat → Nat → (Nat → Nat) → Kernel (Nat → Nat)
  | _, 0, initialStackPointers => pure initialStackPointers
  | i, count + 1, initialStackPointers => do
      let stack ← allocateStack
      allocateStacksFrom (i + 1) count (Function.update initialStackPointers i stack)

/-- Stacks for all processors but the first; the array is null before. -/
def allocateStacks (numLocalApics : Nat) : Kernel (Nat → Nat) :=
  allocateStacksFrom 1 (numLocalApics - 1) fun _ => 0

/-- The pointers of the stacks that were found. -/
structure Stacks (initialStackPointers : Nat → Nat) (numLocalApics : Nat) : Prop where
  null : initialStackPointers 0 = 0
  nonnull : ∀ i, 1 ≤ i → i < numLocalApics → initialStackPointers i ≠ 0
  apart : ∀ i j, 1 ≤ i → i < numLocalApics → 1 ≤ j → j < numLocalApics →
    initialStackPointers i = initialStackPointers j → i = j

section Allocation

variable {s t : Machine}

/-- A stack is on top of memory that was free. -/
theorem allocateStack_returns {stack : Nat} (sane : Sane s) (fed : Fed allocateStack s)
    (got : allocateStack s = .ok stack t) (found : stack ≠ defaultStackSize) :
    ∃ base, stack = base + defaultStackSize ∧ base ∈ s.virtualMemory.free ∧
      base ∉ t.virtualMemory.free ∧ t.virtualMemory.free ⊆ s.virtualMemory.free ∧ Sane t := by
  have early : Fed (allocateMemory defaultStackSize) s :=
    Fed.first fed fun _ => .of_same fun _ => rfl
  cases allocated : allocateMemory defaultStackSize s with
  | error fault v =>
      rw [show allocateStack s = .error fault v from bind_error allocated _] at got
      exact nomatch got
  | ok base v =>
      rw [show allocateStack s = .ok (addToPointer base defaultStackSize) v
        from bind_ok allocated _] at got
      injection got with pointer machine
      subst machine
      have nonnull : base ≠ 0 := fun null => found (by rw [← pointer, null]; rfl)
      obtain ⟨data, new, acquired, -, -⟩ := allocateMemory_returns sane early allocated nonnull
      have size : pageAlignUp ((defaultStackSize + headerSize) % 2 ^ 64) / 4096 = 5 := by decide
      rw [size] at acquired
      have first : base ∈ addresses base 5 := ⟨Nat.le_refl _, Nat.lt_add_of_pos_right (by decide)⟩
      refine ⟨base, ?_, acquired.taken first, ?_, ?_, acquired.sane⟩
      · have bounded := acquired.range.bounded
        rw [← pointer, addToPointer]
        exact Nat.mod_eq_of_lt (Nat.lt_of_le_of_lt (Nat.add_le_add_left (by decide) base) bounded)
      · rw [acquired.free]
        exact fun free => free.2 first
      · rw [acquired.free]
        exact Set.sdiff_subset

theorem allocateStack_logs : Logs allocateStack := by
  refine .bind (.bind (.of_same fun _ => rfl) fun ptr => ?_) fun _ => .of_same fun _ => rfl
  split
  · exact .of_same fun _ => rfl
  · exact .bind (.forPages (allocateMemoryBody_logs ptr) _ _) fun _ => .of_same fun _ => rfl

theorem allocateStacksFrom_logs (i count : Nat) (table : Nat → Nat) :
    Logs (allocateStacksFrom i count table) := by
  induction count generalizing i table with
  | zero => exact .of_same fun _ => rfl
  | succ count ih => exact .bind allocateStack_logs fun stack => ih (i + 1) _

/-- The first of the stacks, and the loop over the others. -/
theorem allocateStacksFrom_succ {i count : Nat} {before after : Nat → Nat}
    (got : allocateStacksFrom i (count + 1) before s = .ok after t) :
    ∃ stack u, allocateStack s = .ok stack u ∧
      allocateStacksFrom (i + 1) count (Function.update before i stack) u = .ok after t := by
  cases first : allocateStack s with
  | error fault u =>
      rw [show allocateStacksFrom i (count + 1) before s = .error fault u
        from bind_error first _] at got
      exact nomatch got
  | ok stack u =>
      rw [allocateStacksFrom, bind_ok first] at got
      exact ⟨stack, u, rfl, got⟩

theorem allocateStacksFrom_below {i count j : Nat} {before after : Nat → Nat}
    (got : allocateStacksFrom i count before s = .ok after t) (below : j < i) :
    after j = before j := by
  induction count generalizing i before s with
  | zero =>
      injection got with table
      rw [table]
  | succ count ih =>
      obtain ⟨stack, u, _, rest⟩ := allocateStacksFrom_succ got
      rw [ih rest (Nat.lt_succ_of_lt below), Function.update_of_ne below.ne]

theorem allocateStacksFrom_returns {i count : Nat} {before after : Nat → Nat} (sane : Sane s)
    (fed : Fed (allocateStacksFrom i count before) s)
    (got : allocateStacksFrom i count before s = .ok after t)
    (found : ∀ j, i ≤ j → j < i + count → after j ≠ defaultStackSize) :
    (∀ j, i ≤ j → j < i + count → ∃ base ∈ s.virtualMemory.free, after j =
      base + defaultStackSize) ∧
      ∀ j k, i ≤ j → j < i + count → i ≤ k → k < i + count → after j = after k → j = k := by
  induction count generalizing i before s with
  | zero =>
      exact ⟨fun j first last => absurd last (Nat.not_lt.mpr first),
        fun j k first last => absurd last (Nat.not_lt.mpr first)⟩
  | succ count ih =>
      obtain ⟨stack, u, allocated, rest⟩ := allocateStacksFrom_succ got
      rw [allocateStacksFrom] at fed
      have here : after i = stack := by
        rw [allocateStacksFrom_below rest (Nat.lt_succ_self i), Function.update_self]
      obtain ⟨base, top, free, taken, smaller, sane'⟩ := allocateStack_returns sane
        (Fed.first fed fun stack => allocateStacksFrom_logs _ _ _) allocated
        (here ▸ found i (Nat.le_refl i) (Nat.lt_add_of_pos_right (Nat.succ_pos count)))
      have later : Fed (allocateStacksFrom (i + 1) count (Function.update before i stack)) u := by
        have onward := fed.onward allocated
        exact onward
      obtain ⟨bases, apart⟩ := ih sane' later rest fun j first last =>
        found j (Nat.le_of_succ_le first) (by omega)
      have differ (j : Nat) (first : i + 1 ≤ j) (last : j < i + 1 + count) : after j ≠ after i := by
        obtain ⟨base', free', top'⟩ := bases j first last
        rw [here, top, top']
        intro same
        exact taken (Nat.add_right_cancel same ▸ free')
      refine ⟨?_, ?_⟩
      · intro j first last
        by_cases own : j = i
        · subst own
          exact ⟨base, free, here.trans top⟩
        · obtain ⟨base', free', top'⟩ := bases j (by omega) (by omega)
          exact ⟨base', smaller free', top'⟩
      · intro j k first last first' last' same
        by_cases own : j = i
        · by_cases own' : k = i
          · rw [own, own']
          · exact absurd (own ▸ same).symm (differ k (by omega) (by omega))
        · by_cases own' : k = i
          · exact absurd (own' ▸ same) (differ j (by omega) (by omega))
          · exact apart j k (by omega) (by omega) (by omega) (by omega) same

/-- If every stack was found, no two are the same and none is null. -/
theorem allocateStacks_returns {numLocalApics : Nat} {initialStackPointers : Nat → Nat}
    (sane : Sane s) (fed : Fed (allocateStacks numLocalApics) s)
    (got : allocateStacks numLocalApics s = .ok initialStackPointers t)
    (found : ∀ i, 1 ≤ i → i < numLocalApics → initialStackPointers i ≠ defaultStackSize) :
    Stacks initialStackPointers numLocalApics := by
  obtain ⟨bases, apart⟩ :=
    allocateStacksFrom_returns sane fed got fun j first last => found j first (by omega)
  refine ⟨allocateStacksFrom_below got Nat.one_pos, ?_, ?_⟩
  · intro i first last
    obtain ⟨base, _, top⟩ := bases i first (by omega)
    rw [top]
    exact Nat.ne_of_gt (Nat.add_pos_right base (by decide))
  · intro i j first last first' last'
    exact apart i j first (by omega) first' (by omega)

end Allocation

/-- `runningCpus`, a byte, with what was recorded and what happened under each processor
    number: the `originalStackPointer` of the task given to `scheduler::init`, the stack
    loaded in the trampoline, and the APIC. -/
structure Startup where
  runningCpus : Nat
  originalStackPointer : Nat → Option Nat
  stackPointer : Nat → Option Nat
  localApicIds : Nat → Option Nat

namespace Startup

/-- After `scheduler::init` for the first processor, whose stack is not recorded. -/
def booted : Startup where
  runningCpus := 1
  originalStackPointer := Function.update (fun _ => none) 0 (some 0)
  stackPointer _ := none
  localApicIds _ := none

section Loop

variable (initialStackPointers : Nat → Nat)

/-- What the new processor does before it is in C++, and the first lines there. -/
def trampoline (apicId : Nat) (s : Startup) : Startup :=
  let cpuNumber := s.runningCpus
  { s with
    runningCpus := (s.runningCpus + 1) % 2 ^ 8
    stackPointer := Function.update s.stackPointer cpuNumber (some (initialStackPointers cpuNumber))
    localApicIds := Function.update s.localApicIds cpuNumber (some apicId) }

/-- The processor answers, and then the counter is larger than before. -/
def startCpu (apicId : Nat) (s : Startup) : Option Startup :=
  let started := trampoline initialStackPointers apicId s
  if s.runningCpus < started.runningCpus then some started else none

/-- One iteration of the loop in `kstart`. -/
def start (myApicId i apicId : Nat) (s : Startup) : Option Startup :=
  if apicId ≠ myApicId then
    let recorded := some (initialStackPointers i)
    startCpu initialStackPointers apicId
      { s with
        originalStackPointer :=
          Function.update s.originalStackPointer s.runningCpus recorded }
  else some { s with localApicIds := Function.update s.localApicIds 0 (some apicId) }

def startFrom (myApicId : Nat) : Nat → List Nat → Startup → Option Startup
  | _, [], s => some s
  | i, apicId :: rest, s =>
    (start initialStackPointers myApicId i apicId s).bind (startFrom myApicId (i + 1) rest)

/-- The loop, which is left out when there is one processor. -/
def startAll (myApicId : Nat) (madt : Madt) : Option Startup :=
  if 1 < madt.localApics.length then
    startFrom initialStackPointers myApicId 0 madt.localApics booted
  else some booted

end Loop

/-- The stack that `thread::destroy` frees when the initial task of a processor ends. -/
def freed (s : Startup) (cpuNumber : Nat) : Option Nat :=
  (s.originalStackPointer cpuNumber).filter fun stack => stack ≠ 0

/-- The records say what the processors have: each initial task has the stack that its
    processor runs on, gives it back in the end, and no two run on one. -/
structure Agrees (s : Startup) : Prop where
  own : ∀ k, 1 ≤ k → k < s.runningCpus → s.originalStackPointer k = s.stackPointer k
  freed : ∀ k, 1 ≤ k → k < s.runningCpus → s.freed k = s.stackPointer k ∧ s.stackPointer k ≠ none
  apart : ∀ j k, 1 ≤ j → j < s.runningCpus → 1 ≤ k → k < s.runningCpus →
    s.stackPointer j = s.stackPointer k → j = k

/-- The number of the processor at a place in the MADT. -/
def number (myApicId : Nat) (localApics : List Nat) (i : Nat) : Nat :=
  1 + (localApics.take i).countP fun apicId => apicId ≠ myApicId

section Numbers

variable (myApicId : Nat) {localApics : List Nat} {i j apicId : Nat}

theorem number_succ (here : localApics[i]? = some apicId) :
    number myApicId localApics (i + 1) = number myApicId localApics i +
      if apicId ≠ myApicId then 1 else 0 := by
  unfold number
  rw [List.take_add_one, here, List.countP_append, Nat.add_assoc]
  congr 1
  simp [List.countP_cons]

theorem number_mono (le : i ≤ j) : number myApicId localApics i ≤ number myApicId localApics j := by
  have shorter : localApics.take i <+: localApics.take j := List.take_prefix_take_left le
  exact Nat.add_le_add_left shorter.sublist.countP_le 1

variable {myApicId}

theorem number_lt (here : localApics[i]? = some apicId) (other : apicId ≠ myApicId) (less : i < j) :
    number myApicId localApics i < number myApicId localApics j := by
  have next := number_succ myApicId here
  rw [if_pos other] at next
  exact Nat.lt_of_lt_of_le (next ▸ Nat.lt_succ_self _) (number_mono myApicId less)

theorem count_others (myApicId : Nat) (l : List Nat) :
    (l.countP fun apicId => apicId ≠ myApicId) + l.count myApicId = l.length := by
  induction l with
  | nil => rfl
  | cons apicId rest ih =>
      rw [List.countP_cons, List.count_cons, List.length_cons, ← ih]
      by_cases mine : apicId = myApicId
      · simp [mine]
        omega
      · simp [mine]
        omega

/-- A processor has the number of its place exactly if the first one was passed once. -/
theorem number_eq_iff (inside : i < localApics.length) :
    number myApicId localApics i = i ↔ (localApics.take i).count myApicId = 1 := by
  have total := count_others myApicId (localApics.take i)
  rw [List.length_take, Nat.min_eq_left inside.le] at total
  unfold number
  omega

/-- The others are fewer than all. -/
theorem number_lt_length (member : myApicId ∈ localApics) (here : localApics[i]? = some apicId)
    (other : apicId ≠ myApicId) : number myApicId localApics i < localApics.length := by
  have below := number_lt here other (List.getElem?_eq_some_iff.mp here).1
  have total := count_others myApicId localApics
  have mine := List.count_pos_iff.mpr member
  unfold number at below ⊢
  rw [List.take_length] at below
  omega

end Numbers

/-- What has happened when the loop is at a place in the MADT. -/
structure Reached (initialStackPointers : Nat → Nat) (myApicId : Nat) (localApics : List Nat)
    (i : Nat) (s : Startup) :
    Prop where
  count : s.runningCpus = number myApicId localApics i
  entries : ∀ j apicId, j < i → localApics[j]? = some apicId → apicId ≠ myApicId →
    s.originalStackPointer (number myApicId localApics j) = some (initialStackPointers j) ∧
      s.stackPointer (number myApicId localApics j) =
        some (initialStackPointers (number myApicId localApics j))
  all : ∀ k, 1 ≤ k → k < s.runningCpus →
    ∃ j apicId, j < i ∧ localApics[j]? = some apicId ∧ apicId ≠ myApicId ∧
    k = number myApicId localApics j

section Runs

variable {initialStackPointers : Nat → Nat} {myApicId : Nat} {localApics : List Nat}
  {i apicId : Nat} {s : Startup}

theorem Reached.start (h : Reached initialStackPointers myApicId localApics i s)
    (here : localApics[i]? = some apicId) (few : localApics.length ≤ 64) :
    ∃ t, start initialStackPointers myApicId i apicId s = some t ∧
      Reached initialStackPointers myApicId localApics (i + 1) t := by
  obtain ⟨count, entries, all⟩ := h
  have next := number_succ myApicId here
  have inside := (List.getElem?_eq_some_iff.mp here).1
  unfold Startup.start
  by_cases other : apicId ≠ myApicId
  · rw [if_pos other] at next
    have bound : number myApicId localApics i ≤ localApics.length := by
      have total := count_others myApicId (localApics.take i)
      rw [List.length_take, Nat.min_eq_left inside.le] at total
      unfold number
      omega
    have increases : s.runningCpus < (s.runningCpus + 1) % 2 ^ 8 := by omega
    have counted : (s.runningCpus + 1) % 2 ^ 8 = number myApicId localApics (i + 1) := by omega
    rw [if_pos other]
    refine ⟨_, if_pos increases, counted, ?_, ?_⟩
    · intro j apicId' less at_j other'
      rcases Nat.lt_succ_iff_lt_or_eq.mp less with earlier | rfl
      · have before := number_lt at_j other' earlier
        have elsewhere : number myApicId localApics j ≠ s.runningCpus := by omega
        simp only [trampoline, Function.update_of_ne elsewhere]
        exact entries j apicId' earlier at_j other'
      · simp [trampoline, count]
    · intro k first below
      simp only [trampoline] at below
      by_cases new : k = number myApicId localApics i
      · exact ⟨i, apicId, Nat.lt_succ_self i, here, other, new⟩
      · obtain ⟨j, apicId', less, rest⟩ := all k first (by omega)
        exact ⟨j, apicId', Nat.lt_succ_of_lt less, rest⟩
  · rw [if_neg other, Nat.add_zero] at next
    rw [if_neg other]
    refine ⟨_, rfl, count.trans next.symm, ?_, ?_⟩
    · intro j apicId' less at_j other'
      have earlier : j < i := by
        rcases Nat.lt_succ_iff_lt_or_eq.mp less with earlier | rfl
        · exact earlier
        · obtain rfl := Option.some.inj (here.symm.trans at_j)
          exact absurd other' other
      exact entries j apicId' earlier at_j other'
    · intro k first below
      obtain ⟨j, apicId', less, rest⟩ := all k first below
      exact ⟨j, apicId', Nat.lt_succ_of_lt less, rest⟩

theorem booted_reached (initialStackPointers : Nat → Nat) (myApicId : Nat) (localApics : List Nat) :
    Reached initialStackPointers myApicId localApics 0 booted := by
  refine ⟨rfl, fun j apicId less => absurd less (Nat.not_lt_zero j), fun k first below => ?_⟩
  exact absurd below (Nat.not_lt.mpr first)

theorem Reached.startFrom (few : localApics.length ≤ 64) {rest : List Nat}
    (left : localApics.drop i = rest) (h : Reached initialStackPointers myApicId localApics i s) :
    ∃ t, startFrom initialStackPointers myApicId i rest s = some t ∧
      Reached initialStackPointers myApicId localApics (i + rest.length) t := by
  induction rest generalizing i s with
  | nil => exact ⟨s, rfl, h⟩
  | cons apicId rest ih =>
      have here : localApics[i]? = some apicId := by
        rw [← List.head?_drop, left, List.head?_cons]
      have later : localApics.drop (i + 1) = rest := by
        rw [← List.tail_drop, left, List.tail_cons]
      obtain ⟨t, started, reached⟩ := h.start here few
      obtain ⟨u, finished, final⟩ := ih later reached
      refine ⟨u, ?_, ?_⟩
      · rw [Startup.startFrom, started, Option.bind_some, finished]
      · rwa [List.length_cons, Nat.add_right_comm, ← Nat.add_assoc] at *

end Runs

section Agreement

variable {initialStackPointers : Nat → Nat} {myApicId : Nat} {localApics : List Nat} {s : Startup}

theorem Reached.agrees (h : Reached initialStackPointers myApicId localApics localApics.length s)
    (table : Stacks initialStackPointers localApics.length)
    (placed : ∀ i apicId, localApics[i]? = some apicId → apicId ≠ myApicId →
      number myApicId localApics i = i) :
    s.Agrees := by
  have entry {k : Nat} (first : 1 ≤ k) (below : k < s.runningCpus) :
      k < localApics.length ∧ s.originalStackPointer k = some (initialStackPointers k) ∧
        s.stackPointer k = some (initialStackPointers k) := by
    obtain ⟨j, apicId, less, here, other, rfl⟩ := h.all k first below
    obtain ⟨recorded, loaded⟩ := h.entries j apicId less here other
    have same := placed j apicId here other
    rw [same] at recorded loaded ⊢
    exact ⟨less, recorded, loaded⟩
  refine ⟨?_, ?_, ?_⟩
  · intro k first below
    obtain ⟨_, recorded, loaded⟩ := entry first below
    rw [recorded, loaded]
  · intro k first below
    obtain ⟨inside, recorded, loaded⟩ := entry first below
    have nonnull := table.nonnull k first inside
    simp [Startup.freed, recorded, loaded, nonnull]
  · intro j k first below first' below' same
    obtain ⟨inside, _, loaded⟩ := entry first below
    obtain ⟨inside', _, loaded'⟩ := entry first' below'
    rw [loaded, loaded'] at same
    exact table.apart j k first inside first' inside' (Option.some.inj same)

theorem Reached.placed (h : Reached initialStackPointers myApicId localApics localApics.length s)
    (table : Stacks initialStackPointers localApics.length) (member : myApicId ∈ localApics)
    (agrees : s.Agrees) {i apicId : Nat} (here : localApics[i]? = some apicId)
    (other : apicId ≠ myApicId) :
    number myApicId localApics i = i := by
  have inside := (List.getElem?_eq_some_iff.mp here).1
  have first : 1 ≤ number myApicId localApics i := Nat.le_add_right 1 _
  have below : number myApicId localApics i < s.runningCpus := h.count ▸ number_lt here other inside
  have fits := number_lt_length member here other
  obtain ⟨recorded, loaded⟩ := h.entries i apicId inside here other
  have same := agrees.own _ first below
  rw [recorded, loaded] at same
  have equal := Option.some.inj same
  rcases Nat.eq_zero_or_pos i with rfl | positive
  · rw [table.null] at equal
    exact absurd equal.symm (table.nonnull _ first fits)
  · exact (table.apart i _ positive inside first fits equal).symm

end Agreement

/-- The loop comes to its end, and the records agree with the processors exactly if every
    other entry of the MADT has the entry of the first processor once before it. -/
theorem startAll_agrees {initialStackPointers : Nat → Nat} {madt : Madt} {myApicId : Nat}
    (table : Stacks initialStackPointers madt.localApics.length)
    (member : myApicId ∈ madt.localApics) :
    ∃ s, startAll initialStackPointers myApicId madt = some s ∧
      (s.Agrees ↔ ∀ i apicId, madt.localApics[i]? = some apicId → apicId ≠ myApicId →
        (madt.localApics.take i).count myApicId = 1) := by
  unfold startAll
  by_cases several : 1 < madt.localApics.length
  · obtain ⟨s, started, reached⟩ :=
      Reached.startFrom madt.fits (List.drop_zero) (booted_reached _ _ _)
    rw [Nat.zero_add] at reached
    refine ⟨s, by rw [if_pos several, started], ?_, ?_⟩
    · intro agrees i apicId here other
      exact (number_eq_iff (List.getElem?_eq_some_iff.mp here).1).mp
        (reached.placed table member agrees here other)
    · intro once
      apply reached.agrees table
      intro i apicId here other
      exact (number_eq_iff (List.getElem?_eq_some_iff.mp here).1).mpr (once i apicId here other)
  · refine ⟨booted, if_neg several, iff_of_true ?_ ?_⟩
    · have nobody {k : Nat} (first : 1 ≤ k) (below : k < booted.runningCpus) : False :=
        absurd below (Nat.not_lt.mpr first)
      exact ⟨fun k first below => (nobody first below).elim,
        fun k first below => (nobody first below).elim, fun j k first below =>
          (nobody first below).elim⟩
    · intro i apicId here other
      obtain ⟨only, alone⟩ := List.length_eq_one_iff.mp
        (Nat.le_antisymm (Nat.not_lt.mp several) (List.length_pos_of_mem member))
      rw [alone, List.mem_singleton] at member
      rw [alone] at here
      have last := List.mem_singleton.mp (List.mem_of_getElem? here)
      exact absurd (last.trans member.symm) other

theorem first_iff {localApics : List Nat} {myApicId : Nat} (distinct : localApics.Nodup)
    (member : myApicId ∈ localApics) :
    (∀ i apicId, localApics[i]? = some apicId → apicId ≠ myApicId →
      (localApics.take i).count myApicId = 1) ↔
      localApics.head? = some myApicId := by
  cases localApics with
  | nil => cases member
  | cons first rest =>
      rw [List.head?_cons, Option.some_inj]
      constructor
      · intro once
        by_contra other
        exact absurd (once 0 first rfl other) (by simp)
      · rintro rfl i apicId here other
        cases i with
        | zero => exact absurd (Option.some.inj here).symm other
        | succ i =>
            have absent : first ∉ rest.take i := fun earlier =>
              (List.nodup_cons.mp distinct).1 (List.mem_of_mem_take earlier)
            rw [List.take_succ_cons, List.count_cons_self, List.count_eq_zero_of_not_mem absent]

/-- If the stacks were found, the records agree with the processors exactly if each entry
    of the MADT has the entry of the first processor once before it. For distinct
    processors this says that the first processor is the first entry. -/
theorem stacks_agree_iff (machine machine' : Machine) (madt : Madt) (myApicId : Nat)
    (initialStackPointers : Nat → Nat) (sane : Sane machine)
    (fed : Fed (allocateStacks madt.localApics.length) machine)
    (got : allocateStacks madt.localApics.length machine = .ok initialStackPointers machine')
    (found : ∀ i, 1 ≤ i → i < madt.localApics.length → initialStackPointers i ≠ defaultStackSize)
    (member : myApicId ∈ madt.localApics) :
    ∃ s, startAll initialStackPointers myApicId madt = some s ∧
      (s.Agrees ↔ ∀ i apicId, madt.localApics[i]? = some apicId → apicId ≠ myApicId →
        (madt.localApics.take i).count myApicId = 1) ∧
      (madt.localApics.Nodup → (s.Agrees ↔ madt.localApics.head? = some myApicId)) := by
  obtain ⟨s, started, agrees⟩ := startAll_agrees (allocateStacks_returns sane fed got found) member
  exact ⟨s, started, agrees, fun distinct => agrees.trans (first_iff distinct member)⟩

/-- Three stacks are found on the machine after boot. -/
theorem freshMachine_stacks :
    ∃ initialStackPointers machine', allocateStacks 3 Session.freshMachine =
      .ok initialStackPointers machine' ∧
      initialStackPointers 0 = 0 ∧ initialStackPointers 1 = 0xFFFF800000A04000 ∧
      initialStackPointers 2 = 0xFFFF800000A09000 := by
  have computed : ((allocateStacks 3).value Session.freshMachine).map
    (fun table => (table 0, table 1, table 2)) =
      some (0, 0xFFFF800000A04000, 0xFFFF800000A09000) := by
    decide +kernel
  obtain ⟨initialStackPointers, value, entries⟩ := Option.map_eq_some_iff.mp computed
  simp only [Prod.mk.injEq] at entries
  exact ⟨initialStackPointers, _, ok_of_value value, entries⟩

/-- The first processor is the first entry. -/
theorem stacks_agree_first :
    ∃ initialStackPointers machine' s, allocateStacks 3 Session.freshMachine =
      .ok initialStackPointers machine' ∧
      startAll initialStackPointers 0 ⟨[0, 1, 2], by decide⟩ = some s ∧ s.Agrees := by
  obtain ⟨initialStackPointers, machine', got, _, first, second⟩ := freshMachine_stacks
  have found (i : Nat) (above : 1 ≤ i) (below : i < 3) :
      initialStackPointers i ≠ defaultStackSize := by
    obtain rfl | rfl : i = 1 ∨ i = 2 := by omega
    · rw [first]
      decide
    · rw [second]
      decide
  obtain ⟨s, started, _, agrees⟩ :=
    stacks_agree_iff Session.freshMachine machine' ⟨[0, 1, 2], by decide⟩ 0
    initialStackPointers Session.freshMachine_initial.sound.sane (show 0 ∉ _ by decide +kernel) got
      found (by decide)
  exact ⟨initialStackPointers, machine', s, got, started, (agrees (by decide)).mpr rfl⟩

/-- The first processor is the last entry: the initial task of the second of the others
    has the stack of the first one, which it frees in the end. -/
theorem stacks_disagree_last :
    ∃ initialStackPointers machine' s, allocateStacks 3 Session.freshMachine =
      .ok initialStackPointers machine' ∧
      startAll initialStackPointers 0 ⟨[1, 2, 0], by decide⟩ = some s ∧
      s.freed 2 = s.stackPointer 1 ∧
      s.freed 2 ≠ s.stackPointer 2 ∧ s.freed 1 = none ∧ ¬s.Agrees := by
  obtain ⟨initialStackPointers, machine', got, null, first, second⟩ := freshMachine_stacks
  obtain ⟨s, started, recorded⟩ :
      ∃ s, startAll initialStackPointers 0 ⟨[1, 2, 0], by decide⟩ = some s ∧
      s.runningCpus = 3 ∧ s.originalStackPointer 1 = some (initialStackPointers 0) ∧
      s.originalStackPointer 2 = some (initialStackPointers 1) ∧ s.stackPointer 1 =
        some (initialStackPointers 1) ∧
      s.stackPointer 2 = some (initialStackPointers 2) :=
    ⟨_, rfl, rfl, rfl, rfl, rfl, rfl⟩
  obtain ⟨count, task, task', stack, stack'⟩ := recorded
  refine ⟨initialStackPointers, machine', s, got, started, ?_, ?_, ?_, ?_⟩
  · simp [freed, task', stack, first]
  · simp [freed, task', stack', first, second]
  · simp [freed, task, null]
  · intro agrees
    have own := agrees.own 1 (Nat.le_refl 1) (by rw [count]; decide)
    rw [task, stack, null, first] at own
    exact absurd (Option.some.inj own) (by decide)

end Startup

end Mykonos.Smp
