import Mykonos.Lib.Run
import Mykonos.Smp.Startup

/-! # The processors come up

The first processor starts the others one after the other and waits for each to count itself
in `runningCpus`. Each of them takes its number from there, calls the processor numbered
before it, and waits with all others in `kRun` until one begins with the hardware. The
processors take turns in any order, and a processor may miss a startup interrupt.
-/

namespace Mykonos.Smp.Bringup

open Lib
open Startup (number number_succ number_mono number_lt number_lt_length count_others)

/-- Where a processor is in `kRun`. -/
inductive RunPlace where
  | arrives
  | waitsAll
  /-- The other thread has not run to its end yet. -/
  | waitsOther
  | finishes
  | waitsDone
  | races
  | initializes
  /-- In `thread::destroy`. -/
  | ends (initialized : Bool)
  deriving Repr, DecidableEq

/-- Where a processor is in `kstartApCpu`, and in `runOn`, where it has interrupts off while it
    has the lock of the mailbox. No other processor asks for that lock. -/
inductive Place where
  /-- Before it loads its stack. -/
  | counted
  | storesId
  | enablesIrqs
  | acquires
  | storesCallback
  | clearsAnswer
  | sends
  | waitsAnswer
  | withdraws
  | releases
  | waitsTick
  | runs (place : RunPlace)
  deriving Repr, DecidableEq

/-- A processor other than the first. -/
inductive Ap where
  | off
  | waitsSipi
  /-- In the page of the trampoline. -/
  | trampoline
  /-- In the code after the jump to the higher half. -/
  | higherHalf
  | cpu (cpuNumber : Nat) (place : Place)
  deriving Repr, DecidableEq

/-- Where the first processor is in `startCpu`. -/
inductive StartPlace where
  | reads
  | sendsInit (previousRunningCpus : Nat)
  | sendsSipi (previousRunningCpus : Nat)
  | checks (previousRunningCpus : Nat)
  | sendsAgain (previousRunningCpus : Nat)
  | polls (previousRunningCpus : Nat)
  | returns (previousRunningCpus : Nat)
  deriving Repr, DecidableEq

/-- Where the first processor is in `kstart`. -/
inductive Bsp where
  | entry (i : Nat)
  /-- Before `scheduler::init`. -/
  | initsTask (i apicId : Nat)
  | startCpu (i apicId : Nat) (place : StartPlace)
  | panicked (i apicId : Nat)
  /-- Before it writes back what the trampoline replaced. -/
  | restores
  | setsTick
  | enablesIrqs
  | runs (place : RunPlace)
  deriving Repr, DecidableEq

/-- What the processors share in `kRun`. -/
structure Counters where
  numCpusWithInitialTasks : Nat := 0
  numCpusDone : Nat := 0
  hardwareInitLock : Bool := false
  deriving Repr, DecidableEq

/-- The callback of mailbox `k` is that of the processor numbered `k + 1`. `interrupt` is by
    APIC, the mailboxes by number; `checked` is set while a processor is in `receiveCall`.
    `initialized` are the numbers given to `scheduler::init`. A call went astray when the
    APIC that the array had for its target was not the target's. -/
structure Boot where
  bsp : Bsp
  ap : Nat → Ap := fun _ => .off
  runningCpus : Nat := 1
  initialized : List Nat := [0]
  trampoline : Bool
  localApicIds : Nat → Nat := fun _ => 0
  callback : Nat → Bool := fun _ => false
  callerCanReturn : Nat → Bool := fun _ => false
  interrupt : Nat → Bool := fun _ => false
  checked : Nat → Bool := fun _ => false
  crashed : Bool := false
  localApicTickSetting : Bool := false
  counters : Counters := {}
  astray : Bool := false

/-- The next step in `kRun`. -/
def RunPlace.step (numCpus : Nat) (c : Counters) : RunPlace → Option (RunPlace × Counters)
  | .arrives =>
    some (.waitsAll, { c with numCpusWithInitialTasks := c.numCpusWithInitialTasks + 1 })
  | .waitsAll => some (if c.numCpusWithInitialTasks < numCpus then .waitsAll else .waitsOther, c)
  | .waitsOther => some (.finishes, c)
  | .finishes => some (.waitsDone, { c with numCpusDone := c.numCpusDone + 1 })
  | .waitsDone => some (if c.numCpusDone < numCpus then .waitsDone else .races, c)
  | .races =>
      if c.hardwareInitLock then some (.ends false, c)
      else some (.initializes, { c with hardwareInitLock := true })
  | .initializes => some (.ends true, c)
  | .ends _ => none

def Ap.number? : Ap → Option Nat
  | .cpu cpuNumber _ => some cpuNumber
  | _ => none

/-- A processor that gets an initialization or a startup interrupt, if it hears it. -/
def Ap.init (ap : Ap) (heard : Bool) : Ap :=
  if heard then .waitsSipi else ap

/-- Only one that waits for it minds a startup interrupt. -/
def Ap.sipi (ap : Ap) (heard : Bool) : Ap :=
  if heard ∧ ap = .waitsSipi then .trampoline else ap

/-- Interrupts are on. -/
def Place.irqs : Place → Bool
  | .acquires | .waitsTick | .runs _ => true
  | .counted | .storesId | .enablesIrqs | .storesCallback | .clearsAnswer | .sends | .waitsAnswer
  | .withdraws | .releases => false

section Machine

variable (myApicId : Nat) (madt : Madt)

namespace Boot

/-- At the beginning of SMP initialization, or after it when there is one processor. -/
def start : Boot where
  bsp := if 1 < madt.localApics.length then .entry 0 else .setsTick
  trampoline := decide (1 < madt.localApics.length)

/-- The number of the processor with an APIC, when it has one. -/
def number? (s : Boot) (apicId : Nat) : Option Nat :=
  if apicId = myApicId then some 0 else (s.ap apicId).number?

def setAp (s : Boot) (apicId : Nat) (ap : Ap) : Boot :=
  { s with ap := Function.update s.ap apicId ap }

/-- The first processor goes on in `startCpu`. -/
def stepStart (s : Boot) (heard : Bool) (i apicId : Nat) : StartPlace → Boot
  | .reads => { s with bsp := .startCpu i apicId (.sendsInit s.runningCpus) }
  | .sendsInit previous =>
      { s.setAp apicId ((s.ap apicId).init heard) with
        bsp := .startCpu i apicId (.sendsSipi previous) }
  | .sendsSipi previous =>
      { s.setAp apicId ((s.ap apicId).sipi heard) with
        bsp := .startCpu i apicId (.checks previous) }
  | .checks previous =>
      { s with
        bsp :=
          if previous < s.runningCpus then .entry (i + 1)
          else .startCpu i apicId (.sendsAgain previous) }
  | .sendsAgain previous =>
      { s.setAp apicId ((s.ap apicId).sipi heard) with
        bsp := .startCpu i apicId (.polls previous) }
  | .polls previous =>
      { s with
        bsp := .startCpu i apicId
          (if s.runningCpus = previous then .polls previous else .returns previous) }
  | .returns previous =>
      { s with bsp := if previous < s.runningCpus then .entry (i + 1) else .panicked i apicId }

/-- The first processor takes a step. -/
def stepBsp (s : Boot) (heard : Bool) : Option Boot :=
  match s.bsp with
  | .entry i =>
      match madt.localApics[i]? with
      | none => some { s with bsp := .restores }
      | some apicId =>
          if apicId ≠ myApicId then some { s with bsp := .initsTask i apicId }
          else some { s with
            bsp := .entry (i + 1)
            localApicIds := Function.update s.localApicIds 0 apicId }
  | .initsTask i apicId =>
      some { s with
        bsp := .startCpu i apicId .reads
        initialized := s.initialized ++ [s.runningCpus] }
  | .startCpu i apicId place => some (s.stepStart heard i apicId place)
  | .panicked _ _ => none
  | .restores => some { s with bsp := .setsTick, trampoline := false }
  | .setsTick => some { s with bsp := .enablesIrqs, localApicTickSetting := true }
  | .enablesIrqs => some { s with bsp := .runs .arrives }
  | .runs place =>
      (place.step madt.localApics.length s.counters).map fun next =>
        { s with bsp := .runs next.1, counters := next.2 }

/-- The time in which a processor must have counted itself is over. -/
def timeout (s : Boot) : Option Boot :=
  match s.bsp with
  | .startCpu i apicId (.polls previous) =>
      some { s with bsp := .startCpu i apicId (.returns previous) }
  | _ => none

/-- A processor that has its number takes a step in `kstartApCpu`. -/
def stepCpu (s : Boot) (apicId cpuNumber : Nat) : Place → Option Boot
  | .counted => some (s.setAp apicId (.cpu cpuNumber .storesId))
  | .storesId =>
      some { s.setAp apicId (.cpu cpuNumber .enablesIrqs) with
        localApicIds := Function.update s.localApicIds cpuNumber apicId }
  | .enablesIrqs => some (s.setAp apicId (.cpu cpuNumber .acquires))
  | .acquires => some (s.setAp apicId (.cpu cpuNumber .storesCallback))
  | .storesCallback =>
      some { s.setAp apicId (.cpu cpuNumber .clearsAnswer) with
        callback := Function.update s.callback (cpuNumber - 1) true }
  | .clearsAnswer =>
      some { s.setAp apicId (.cpu cpuNumber .sends) with
        callerCanReturn := Function.update s.callerCanReturn (cpuNumber - 1) false }
  | .sends =>
      some { s.setAp apicId (.cpu cpuNumber .waitsAnswer) with
        interrupt := Function.update s.interrupt (s.localApicIds (cpuNumber - 1)) true
        astray :=
          s.astray || s.number? myApicId (s.localApicIds (cpuNumber - 1)) != some (cpuNumber - 1) }
  | .waitsAnswer =>
      some (s.setAp apicId (.cpu cpuNumber
        (if s.callerCanReturn (cpuNumber - 1) then .withdraws else .waitsAnswer)))
  | .withdraws =>
      some { s.setAp apicId (.cpu cpuNumber .releases) with
        callback := Function.update s.callback (cpuNumber - 1) false }
  | .releases => some (s.setAp apicId (.cpu cpuNumber .waitsTick))
  | .waitsTick =>
      some (s.setAp apicId (.cpu cpuNumber
        (if s.localApicTickSetting then .runs .arrives else .waitsTick)))
  | .runs place =>
      (place.step madt.localApics.length s.counters).map fun next =>
        { s.setAp apicId (.cpu cpuNumber (.runs next.1)) with counters := next.2 }

/-- Another processor takes a step. -/
def stepAp (s : Boot) (apicId : Nat) : Option Boot :=
  match s.ap apicId with
  | .off | .waitsSipi => none
  | .trampoline => some (s.setAp apicId .higherHalf)
  | .higherHalf =>
      some { s.setAp apicId (.cpu s.runningCpus .counted) with
        runningCpus := (s.runningCpus + 1) % 2 ^ 8 }
  | .cpu cpuNumber place =>
      if s.checked cpuNumber then none else s.stepCpu myApicId madt apicId cpuNumber place

/-- Interrupts are on, and no interrupt is being handled. -/
def accepts (s : Boot) (apicId : Nat) : Bool :=
  if apicId = myApicId then
    match s.bsp with
    | .runs _ => !s.checked 0
    | _ => false
  else
    match s.ap apicId with
    | .cpu cpuNumber place => place.irqs && !s.checked cpuNumber
    | _ => false

/-- A processor takes the interrupt of a call, and looks for a callback. -/
def receive (s : Boot) (apicId : Nat) : Option Boot :=
  match s.number? myApicId apicId with
  | some cpuNumber =>
      if s.interrupt apicId ∧ s.accepts myApicId apicId then
        some { s with
          interrupt := Function.update s.interrupt apicId false
          checked := Function.update s.checked cpuNumber (s.callback cpuNumber) }
      else none
  | none => none

/-- The callback that was found is run, unless it is null by now. -/
def answer (s : Boot) (cpuNumber : Nat) : Option Boot :=
  if s.checked cpuNumber then
    some { s with
      checked := Function.update s.checked cpuNumber false
      callerCanReturn :=
        if s.callback cpuNumber then Function.update s.callerCanReturn cpuNumber true
        else s.callerCanReturn
      crashed := s.crashed || !s.callback cpuNumber }
  else none

end Boot

inductive Event where
  /-- Where it sends an interrupt, that is heard or not. -/
  | bsp (heard : Bool)
  | timeout
  | ap (apicId : Nat)
  | receive (apicId : Nat)
  | answer (cpuNumber : Nat)
  deriving Repr, DecidableEq

def Boot.after? (s : Boot) : Event → Option Boot
  | .bsp heard => if s.checked 0 then none else s.stepBsp myApicId madt heard
  | .timeout => s.timeout
  | .ap apicId => if apicId = myApicId then none else s.stepAp myApicId madt apicId
  | .receive apicId => s.receive myApicId apicId
  | .answer cpuNumber => s.answer cpuNumber

abbrev Boot.Step (s : Boot) (event : Event) (t : Boot) : Prop :=
  s.after? myApicId madt event = some t

end Machine

/-- The place in the MADT that the first processor has come to. -/
def Bsp.index (count : Nat) : Bsp → Nat
  | .entry i | .initsTask i _ | .startCpu i _ _ | .panicked i _ => i
  | .restores | .setsTick | .enablesIrqs | .runs _ => count

/-- A processor that is waited for, and the counter, by the number that it will have. -/
def Awaited (ap : Ap) (runningCpus k : Nat) : Prop :=
  ap.number? = none ∧ runningCpus = k ∨ ap.number? = some k ∧ runningCpus = k + 1

/-- The same by the place in `startCpu`. -/
def StartPlace.Now (ap : Ap) (runningCpus k : Nat) : StartPlace → Prop
  | .reads => ap = .off ∧ runningCpus = k
  | .sendsInit previous => ap = .off ∧ runningCpus = k ∧ previous = k
  | .sendsSipi previous => (ap = .off ∨ ap = .waitsSipi) ∧ runningCpus = k ∧ previous = k
  | .checks previous | .sendsAgain previous | .polls previous | .returns previous =>
      Awaited ap runningCpus k ∧ previous = k

section Loop

variable (myApicId : Nat) (localApics : List Nat)

/-- What has happened up to where the first processor is. -/
def Boot.Now (s : Boot) : Bsp → Prop
  | .entry i => s.runningCpus = number myApicId localApics i ∧ s.initialized =
    List.range s.runningCpus ∧
      ∀ apicId, localApics[i]? = some apicId → apicId ≠ myApicId → s.ap apicId = .off
  | .initsTask i apicId => localApics[i]? = some apicId ∧ apicId ≠ myApicId ∧
      s.runningCpus = number myApicId localApics i ∧ s.initialized = List.range s.runningCpus ∧
      s.ap apicId = .off
  | .startCpu i apicId place => localApics[i]? = some apicId ∧ apicId ≠ myApicId ∧
      s.initialized = List.range (number myApicId localApics i + 1) ∧
      place.Now (s.ap apicId) s.runningCpus (number myApicId localApics i)
  | .panicked i apicId => localApics[i]? = some apicId ∧ apicId ≠ myApicId ∧
      s.initialized = List.range (number myApicId localApics i + 1) ∧
      Awaited (s.ap apicId) s.runningCpus (number myApicId localApics i)
  | .restores | .setsTick | .enablesIrqs | .runs _ =>
      s.runningCpus = number myApicId localApics localApics.length ∧ s.initialized =
        List.range s.runningCpus

/-- The first processor is not past the loop that starts the others. -/
def Bsp.starting : Bsp → Bool
  | .entry _ | .initsTask _ _ | .startCpu _ _ _ | .panicked _ _ | .restores => true
  | .setsTick | .enablesIrqs | .runs _ => false

structure Started (s : Boot) : Prop where
  before : ∀ j apicId, localApics[j]? = some apicId → apicId ≠ myApicId →
    j < s.bsp.index localApics.length → (s.ap apicId).number? = some (number myApicId localApics j)
  after : ∀ j apicId, localApics[j]? = some apicId → apicId ≠ myApicId →
    s.bsp.index localApics.length < j → s.ap apicId = .off
  others : ∀ apicId, (apicId ∈ localApics → apicId = myApicId) → s.ap apicId = .off
  now : s.Now myApicId localApics s.bsp
  trampoline : s.bsp.starting = true → s.trampoline = true

end Loop

section Starting

variable {myApicId : Nat} {madt : Madt} {s t : Boot}

theorem number_le (member : myApicId ∈ madt.localApics) (i : Nat) :
    number myApicId madt.localApics i ≤ madt.localApics.length := by
  have total := count_others myApicId madt.localApics
  have mine := List.count_pos_iff.mpr member
  have fewer :=
    (List.take_sublist i madt.localApics).countP_le (p := fun apicId => decide (apicId ≠ myApicId))
  unfold number
  omega

theorem index_unique (distinct : madt.localApics.Nodup) {i j apicId : Nat}
    (left : madt.localApics[i]? = some apicId) (right : madt.localApics[j]? = some apicId) :
    i = j := by
  obtain ⟨inside, here⟩ := List.getElem?_eq_some_iff.mp left
  obtain ⟨inside', here'⟩ := List.getElem?_eq_some_iff.mp right
  exact (List.Nodup.getElem_inj_iff distinct).mp (here.trans here'.symm)

theorem Started.start (member : myApicId ∈ madt.localApics) :
    Started myApicId madt.localApics (Boot.start madt) := by
  have first : number myApicId madt.localApics 0 = 1 := rfl
  by_cases several : 1 < madt.localApics.length
  · have place : (Boot.start madt).bsp = .entry 0 := if_pos several
    refine ⟨fun j apicId _ _ less => ?_, fun _ _ _ _ _ => rfl, fun _ _ => rfl, ?_,
      fun _ => decide_eq_true several⟩
    · rw [place] at less
      exact absurd less (Nat.not_lt_zero j)
    · rw [place]
      exact ⟨rfl, rfl, fun _ _ _ => rfl⟩
  · have place : (Boot.start madt).bsp = .setsTick := if_neg several
    obtain ⟨apicId, only⟩ : ∃ apicId, madt.localApics = [apicId] := by
      have one := List.length_pos_of_mem member
      exact List.length_eq_one_iff.mp (by omega)
    rw [only, List.mem_singleton] at member
    subst member
    refine ⟨fun j apicId here other _ => ?_, fun _ _ _ _ _ => rfl, fun _ _ => rfl, ?_,
      fun before => ?_⟩
    · rw [only] at here
      cases List.mem_singleton.mp (List.mem_of_getElem? here)
      exact absurd rfl other
    · rw [place, only]
      exact ⟨by simp [Boot.start, number], rfl⟩
    · rw [place] at before
      cases before

/-- What a step of a processor that was started does to its number and to the counter. -/
def Counts (ap ap' : Ap) (runningCpus runningCpus' : Nat) : Prop :=
  ap'.number? = ap.number? ∧ runningCpus' = runningCpus ∨
    ap.number? = none ∧ ap'.number? = some runningCpus ∧ runningCpus' = runningCpus + 1

theorem Awaited.counts {ap ap' : Ap} {n n' k : Nat} (h : Awaited ap n k)
    (counts : Counts ap ap' n n') :
    Awaited ap' n' k := by
  rcases h with ⟨none, rfl⟩ | ⟨some, rfl⟩ <;> rcases counts with ⟨kept, rfl⟩ |
    ⟨uncounted, counted, rfl⟩
  · exact .inl ⟨kept.trans none, rfl⟩
  · exact .inr ⟨counted, rfl⟩
  · exact .inr ⟨kept.trans some, rfl⟩
  · rw [some] at uncounted
    cases uncounted

theorem StartPlace.Now.counts {place : StartPlace} {ap ap' : Ap} {n n' k : Nat}
    (h : place.Now ap n k) (on : ap ≠ .off) (heard : ap ≠ .waitsSipi)
    (counts : Counts ap ap' n n') : place.Now ap' n' k := by
  cases place with
  | reads | sendsInit => exact absurd h.1 on
  | sendsSipi => exact h.1.elim (absurd · on) (absurd · heard)
  | checks | sendsAgain | polls | returns => exact ⟨h.1.counts counts, h.2⟩

/-- A processor that was started takes a step, with which it may be counted. -/
theorem Started.ap (h : Started myApicId madt.localApics s) {apicId : Nat} {ap : Ap}
    (on : s.ap apicId ≠ .off) (heard : s.ap apicId ≠ .waitsSipi) (same : t.bsp = s.bsp)
    (changed : t.ap = Function.update s.ap apicId ap) (initialized : t.initialized = s.initialized)
    (trampoline : t.trampoline = s.trampoline)
    (counts : Counts (s.ap apicId) ap s.runningCpus t.runningCpus) :
    Started myApicId madt.localApics t := by
  have listed : apicId ∈ madt.localApics ∧ apicId ≠ myApicId := by
    by_contra neither
    exact on (h.others apicId fun inside => by_contra fun other => neither ⟨inside, other⟩)
  obtain ⟨j, here⟩ := List.getElem?_of_mem listed.1
  have within : j ≤ s.bsp.index madt.localApics.length :=
    Nat.le_of_not_lt fun later => on (h.after j apicId here listed.2 later)
  refine ⟨fun k other found distinct' less => ?_, fun k other found distinct' later => ?_,
    fun other absent => ?_, ?_, fun before => ?_⟩
  · rw [same] at less
    have old := h.before k other found distinct' less
    rw [changed]
    by_cases this : other = apicId
    · subst this
      rw [Function.update_self]
      rcases counts with ⟨kept, -⟩ | ⟨uncounted, -⟩
      · exact kept.trans old
      · rw [uncounted] at old
        cases old
    · rwa [Function.update_of_ne this]
  · rw [same] at later
    have off := h.after k other found distinct' later
    rw [changed, Function.update_of_ne]
    · exact off
    · rintro rfl
      exact on off
  · have off := h.others other absent
    rw [changed, Function.update_of_ne]
    · exact off
    · rintro rfl
      exact on off
  · have now := h.now
    have earlier : ∀ i, s.bsp.index madt.localApics.length = i → madt.localApics[i]? ≠ some apicId →
        t.runningCpus = s.runningCpus := by
      rintro i rfl elsewhere
      have old :=
        h.before j apicId here listed.2 (Nat.lt_of_le_of_ne within fun equal =>
          elsewhere (equal ▸ here))
      rcases counts with ⟨-, kept⟩ | ⟨uncounted, -⟩
      · exact kept
      · rw [uncounted] at old
        cases old
    have elsewhere : ∀ other, s.ap other = .off → t.ap other = .off := by
      intro other off
      rw [changed, Function.update_of_ne]
      · exact off
      · rintro rfl
        exact on off
    rw [same]
    cases place : s.bsp with
    | entry i =>
        rw [place] at now
        obtain ⟨count, tasks, off⟩ := now
        have kept := earlier i (by rw [place]; rfl) fun equal => on (off apicId equal listed.2)
        refine ⟨kept.trans count, by rw [initialized, kept, tasks], fun other found that => ?_⟩
        exact elsewhere other (off other found that)
    | initsTask i other =>
        rw [place] at now
        obtain ⟨found, that, count, tasks, off⟩ := now
        have kept := earlier i (by rw [place]; rfl) fun equal =>
          on (Option.some.inj (equal.symm.trans found) ▸ off)
        exact ⟨found, that, kept.trans count, by rw [initialized, kept, tasks], elsewhere other off⟩
    | startCpu i other start =>
        rw [place] at now
        obtain ⟨found, that, tasks, start'⟩ := now
        refine ⟨found, that, initialized.trans tasks, ?_⟩
        by_cases this : other = apicId
        · subst this
          rw [changed, Function.update_self]
          exact start'.counts on heard counts
        · rw [changed, Function.update_of_ne this,
            earlier i (by rw [place]; rfl) fun equal =>
              this (Option.some.inj (found.symm.trans equal))]
          exact start'
    | panicked i other =>
        rw [place] at now
        obtain ⟨found, that, tasks, waits⟩ := now
        refine ⟨found, that, initialized.trans tasks, ?_⟩
        by_cases this : other = apicId
        · subst this
          rw [changed, Function.update_self]
          exact waits.counts counts
        · rw [changed, Function.update_of_ne this,
            earlier i (by rw [place]; rfl) fun equal =>
              this (Option.some.inj (found.symm.trans equal))]
          exact waits
    | restores | setsTick | enablesIrqs | runs =>
        rw [place] at now
        have kept := earlier madt.localApics.length (by rw [place]; rfl) (by simp)
        exact ⟨kept.trans now.1, by rw [initialized, kept, now.2]⟩
  · rw [same] at before
    exact trampoline.trans (h.trampoline before)

/-- The first processor stays at its place in the MADT, and the others where they are. -/
theorem Started.stays (h : Started myApicId madt.localApics s) (ap : t.ap = s.ap)
    (index : t.bsp.index madt.localApics.length = s.bsp.index madt.localApics.length)
    (now : t.Now myApicId madt.localApics t.bsp)
    (trampoline : t.bsp.starting = true → t.trampoline = true) :
    Started myApicId madt.localApics t := by
  refine ⟨?_, ?_, ?_, now, trampoline⟩
  · rw [ap, index]
    exact h.before
  · rw [ap, index]
    exact h.after
  · rw [ap]
    exact h.others

/-- It sends something to the processor at that place. -/
theorem Started.sends (h : Started myApicId madt.localApics s) (distinct : madt.localApics.Nodup)
    {i apicId : Nat} {ap : Ap} (here : madt.localApics[i]? = some apicId)
    (other : apicId ≠ myApicId) (before : s.bsp.index madt.localApics.length = i)
    (after : t.bsp.index madt.localApics.length = i)
    (changed : t.ap = Function.update s.ap apicId ap) (now : t.Now myApicId madt.localApics t.bsp)
    (trampoline : t.bsp.starting = true → t.trampoline = true) :
    Started myApicId madt.localApics t := by
  refine ⟨fun j apicId' found that less => ?_, fun j apicId' found that later => ?_,
    fun apicId' absent => ?_, now, trampoline⟩
  · rw [after, ← before] at less
    rw [changed, Function.update_of_ne]
    · exact h.before j apicId' found that less
    · rintro rfl
      exact Nat.ne_of_lt less ((index_unique distinct found here).trans before.symm)
  · rw [after, ← before] at later
    rw [changed, Function.update_of_ne]
    · exact h.after j apicId' found that later
    · rintro rfl
      exact Nat.ne_of_gt later ((index_unique distinct found here).trans before.symm)
  · rw [changed, Function.update_of_ne]
    · exact h.others apicId' absent
    · rintro rfl
      exact other (absent (List.mem_of_getElem? here))

/-- It is done with a place. -/
theorem Started.onward (h : Started myApicId madt.localApics s) {i : Nat}
    (before : s.bsp.index madt.localApics.length = i) (after : t.bsp = .entry (i + 1))
    (ap : t.ap = s.ap) (started : ∀ apicId, madt.localApics[i]? = some apicId → apicId ≠ myApicId →
      (s.ap apicId).number? = some (number myApicId madt.localApics i))
    (count : t.runningCpus = number myApicId madt.localApics (i + 1))
    (tasks : t.initialized = List.range t.runningCpus) (trampoline : t.trampoline = true) :
    Started myApicId madt.localApics t := by
  have index : t.bsp.index madt.localApics.length = i + 1 := by
    rw [after]
    rfl
  refine ⟨fun j apicId found that less => ?_, fun j apicId found that later => ?_, ?_, ?_,
    fun _ => trampoline⟩
  · rw [index] at less
    rw [ap]
    rcases Nat.lt_succ_iff_lt_or_eq.mp less with earlier | rfl
    · exact h.before j apicId found that (before.symm ▸ earlier)
    · exact started apicId found that
  · rw [index] at later
    rw [ap]
    exact h.after j apicId found that (before.symm ▸ Nat.lt_of_succ_lt later)
  · rw [ap]
    exact h.others
  · rw [after]
    refine ⟨count, tasks, fun apicId found that => ?_⟩
    rw [ap]
    exact h.after (i + 1) apicId found that (before.symm ▸ Nat.lt_succ_self i)

/-- A processor that was counted. -/
theorem Awaited.counted {ap : Ap} {n k : Nat} (h : Awaited ap n k) (more : k < n) :
    ap.number? = some k ∧ n = k + 1 := by
  rcases h with ⟨-, rfl⟩ | counted
  · exact absurd more (Nat.lt_irrefl n)
  · exact counted

/-- A startup interrupt counts no processor. -/
theorem Awaited.sipi {ap : Ap} {n k : Nat} (h : Awaited ap n k) (heard : Bool) :
    Awaited (ap.sipi heard) n k := by
  unfold Ap.sipi
  split_ifs with waits
  · rw [waits.2] at h
    exact .inl ⟨rfl, h.elim And.right fun counted => absurd counted.1 nofun⟩
  · exact h

theorem Started.startCpu (h : Started myApicId madt.localApics s) (distinct : madt.localApics.Nodup)
    {heard : Bool} {i apicId : Nat} {place : StartPlace} (at' : s.bsp = .startCpu i apicId place) :
    Started myApicId madt.localApics (s.stepStart heard i apicId place) := by
  have now := h.now
  have old : s.trampoline = true := h.trampoline (by rw [at']; rfl)
  have index : s.bsp.index madt.localApics.length = i := by
    rw [at']
    rfl
  rw [at'] at now
  obtain ⟨here, other, tasks, start⟩ := now
  have next : number myApicId madt.localApics (i + 1) = number myApicId madt.localApics i + 1 := by
    rw [number_succ myApicId here, if_pos other]
  have enters :
      ∀ previous, Awaited (s.ap apicId) s.runningCpus (number myApicId madt.localApics i) →
      previous = number myApicId madt.localApics i → previous < s.runningCpus →
      Started myApicId madt.localApics { s with bsp := .entry (i + 1) } := by
    intro previous waits same more
    obtain ⟨counted, count⟩ := waits.counted (same ▸ more)
    refine h.onward index rfl rfl (fun apicId' found _ => ?_) (count.trans next.symm) ?_ old
    · cases here.symm.trans found
      exact counted
    · rw [tasks, ← count]
  cases place with
  | reads =>
      exact h.stays rfl index.symm ⟨here, other, tasks, start.1, start.2, start.2⟩ fun _ => old
  | sendsInit previous =>
      obtain ⟨off, count, same⟩ := start
      refine h.sends distinct here other index rfl rfl ⟨here, other, tasks, ?_, count,
        same⟩ fun _ => old
      simp only [Boot.stepStart, Boot.setAp, Function.update_self, off, Ap.init]
      cases heard
      · exact .inl rfl
      · exact .inr rfl
  | sendsSipi previous =>
      obtain ⟨waits, count, same⟩ := start
      refine h.sends distinct here other index rfl rfl ⟨here, other, tasks, ?_, same⟩ fun _ => old
      simp only [Boot.stepStart, Boot.setAp, Function.update_self]
      apply Awaited.sipi
      refine .inl ⟨?_, count⟩
      rcases waits with off | waits
      · rw [off]
        rfl
      · rw [waits]
        rfl
  | sendsAgain previous =>
      refine h.sends distinct here other index rfl rfl ⟨here, other, tasks, ?_,
        start.2⟩ fun _ => old
      simp only [Boot.stepStart, Boot.setAp, Function.update_self]
      exact start.1.sipi heard
  | checks previous =>
      by_cases more : previous < s.runningCpus
      · simp only [Boot.stepStart, more, if_true]
        exact enters previous start.1 start.2 more
      · simp only [Boot.stepStart, more, if_false]
        exact h.stays rfl index.symm ⟨here, other, tasks, start⟩ fun _ => old
  | polls previous =>
      refine h.stays rfl index.symm ⟨here, other, tasks, ?_⟩ fun _ => old
      by_cases same : s.runningCpus = previous
      · rw [if_pos same]
        exact start
      · rw [if_neg same]
        exact start
  | returns previous =>
      by_cases more : previous < s.runningCpus
      · simp only [Boot.stepStart, more, if_true]
        exact enters previous start.1 start.2 more
      · simp only [Boot.stepStart, more, if_false]
        exact h.stays rfl index.symm ⟨here, other, tasks, start.1⟩ fun _ => old

theorem Started.bsp (h : Started myApicId madt.localApics s) (distinct : madt.localApics.Nodup)
    {heard : Bool} (taken : s.stepBsp myApicId madt heard = some t) :
    Started myApicId madt.localApics t := by
  have now := h.now
  cases at' : s.bsp with
  | entry i =>
      have index : s.bsp.index madt.localApics.length = i := by
        rw [at']
        rfl
      have old : s.trampoline = true := h.trampoline (by rw [at']; rfl)
      rw [at'] at now
      obtain ⟨count, tasks, off⟩ := now
      simp only [Boot.stepBsp, at'] at taken
      cases here : madt.localApics[i]? with
      | none =>
          simp only [here, Option.some.injEq] at taken
          subst taken
          have passed : madt.localApics.length ≤ i := List.getElem?_eq_none_iff.mp here
          have all : number myApicId madt.localApics i =
              number myApicId madt.localApics madt.localApics.length := by
            simp only [number, List.take_of_length_le passed, List.take_length]
          refine ⟨fun j apicId found that less => ?_, fun j apicId found that later => ?_, h.others,
            ⟨count.trans all, tasks⟩, fun _ => old⟩
          · exact h.before j apicId found that (index.symm ▸ Nat.lt_of_lt_of_le less passed)
          · exact absurd (List.getElem?_eq_some_iff.mp found).1 (Nat.lt_asymm later)
      | some apicId =>
          simp only [here] at taken
          split_ifs at taken with other
          · cases taken
            exact h.stays rfl index.symm ⟨here, other, count, tasks, off apicId here other⟩ fun _ =>
              old
          · cases taken
            have same :
                number myApicId madt.localApics (i + 1) = number myApicId madt.localApics i := by
              rw [number_succ myApicId here, if_neg other, Nat.add_zero]
            refine h.onward index rfl rfl (fun apicId' found that => ?_)
              (count.trans same.symm) tasks old
            cases here.symm.trans found
            exact absurd that other
  | initsTask i apicId =>
      have index : s.bsp.index madt.localApics.length = i := by
        rw [at']
        rfl
      have old : s.trampoline = true := h.trampoline (by rw [at']; rfl)
      rw [at'] at now
      obtain ⟨here, other, count, tasks, off⟩ := now
      simp only [Boot.stepBsp, at', Option.some.injEq] at taken
      subst taken
      refine h.stays rfl index.symm ⟨here, other, ?_, off, count⟩ fun _ => old
      simp only [tasks, count, List.range_succ]
  | startCpu i apicId place =>
      simp only [Boot.stepBsp, at', Option.some.injEq] at taken
      subst taken
      exact h.startCpu distinct at'
  | panicked i apicId => simp only [Boot.stepBsp, at', reduceCtorEq] at taken
  | runs place =>
      rw [at'] at now
      simp only [Boot.stepBsp, at', Option.map_eq_some_iff] at taken
      obtain ⟨next, -, rfl⟩ := taken
      exact h.stays rfl (by rw [at']; rfl) now nofun
  | restores | setsTick | enablesIrqs =>
      rw [at'] at now
      simp only [Boot.stepBsp, at', Option.some.injEq] at taken
      subst taken
      exact h.stays rfl (by rw [at']; rfl) now nofun

/-- The counter is at the number of the place that the first processor has come to, or one
    further when the processor there has counted itself. -/
def Boot.Level (myApicId : Nat) (localApics : List Nat) (s : Boot) (i : Nat) : Prop :=
  s.runningCpus = number myApicId localApics i ∧
      (∀ apicId, localApics[i]? = some apicId → apicId ≠ myApicId → (s.ap apicId).number? = none) ∨
    ∃ apicId, localApics[i]? = some apicId ∧ apicId ≠ myApicId ∧ s.bsp.starting = true ∧
      (s.ap apicId).number? = some (number myApicId localApics i) ∧ s.runningCpus =
        number myApicId localApics i + 1

theorem Started.level (h : Started myApicId madt.localApics s) {i : Nat}
    (index : s.bsp.index madt.localApics.length = i) : s.Level myApicId madt.localApics i := by
  have now := h.now
  have uncounted : ∀ {apicId : Nat}, madt.localApics[i]? = some apicId →
    (s.ap apicId).number? = none →
      ∀ other, madt.localApics[i]? = some other → other ≠ myApicId →
      (s.ap other).number? = none := by
    intro apicId here none other found _
    cases here.symm.trans found
    exact none
  have waits : ∀ {apicId : Nat}, madt.localApics[i]? = some apicId → apicId ≠ myApicId →
    s.bsp.starting = true →
      Awaited (s.ap apicId) s.runningCpus (number myApicId madt.localApics i) →
      s.Level myApicId madt.localApics i := by
    intro apicId here other starting waits
    rcases waits with ⟨none, count⟩ | ⟨counted, count⟩
    · exact .inl ⟨count, uncounted here none⟩
    · exact .inr ⟨apicId, here, other, starting, counted, count⟩
  subst index
  cases place : s.bsp with
  | entry i =>
      rw [place] at now
      exact .inl ⟨now.1, fun apicId found that => by rw [now.2.2 apicId found that]; rfl⟩
  | initsTask i apicId =>
      rw [place] at now uncounted
      obtain ⟨here, other, count, tasks, off⟩ := now
      exact .inl ⟨count, uncounted here (by rw [off]; rfl)⟩
  | startCpu i apicId start =>
      rw [place] at now uncounted waits
      obtain ⟨here, other, tasks, start'⟩ := now
      cases start with
      | reads => exact .inl ⟨start'.2, uncounted here (by rw [start'.1]; rfl)⟩
      | sendsInit => exact .inl ⟨start'.2.1, uncounted here (by rw [start'.1]; rfl)⟩
      | sendsSipi =>
          refine .inl ⟨start'.2.1, uncounted here ?_⟩
          rcases start'.1 with off | waiting
          · rw [off]
            rfl
          · rw [waiting]
            rfl
      | checks | sendsAgain | polls | returns => exact waits here other rfl start'.1
  | panicked i apicId =>
      rw [place] at now waits
      exact waits now.1 now.2.1 rfl now.2.2.2
  | restores | setsTick | enablesIrqs | runs =>
      rw [place] at now
      refine .inl ⟨now.1, fun apicId found => ?_⟩
      simp [Bsp.index] at found

theorem Started.few (h : Started myApicId madt.localApics s) (member : myApicId ∈ madt.localApics) :
    s.runningCpus ≤ 65 := by
  have fits := madt.fits
  have small := number_le member (s.bsp.index madt.localApics.length)
  rcases h.level rfl with ⟨count, -⟩ | ⟨-, -, -, -, -, count⟩ <;> omega

theorem Started.stepCpu (h : Started myApicId madt.localApics s) {apicId cpuNumber : Nat}
    {place : Place} (here : s.ap apicId = .cpu cpuNumber place)
    (taken : s.stepCpu myApicId madt apicId cpuNumber place = some t) :
    Started myApicId madt.localApics t := by
  have moves : ∀ {u : Boot} {place' : Place}, u.bsp = s.bsp →
      u.ap = Function.update s.ap apicId (.cpu cpuNumber place') → u.initialized = s.initialized →
      u.trampoline = s.trampoline → u.runningCpus = s.runningCpus →
      Started myApicId madt.localApics u := by
    intro u place' bsp changed tasks trampoline count
    exact h.ap (by rw [here]; nofun) (by rw [here]; nofun) bsp changed tasks trampoline
      (.inl ⟨by rw [here]; rfl, count⟩)
  cases place with
  | runs place =>
      simp only [Boot.stepCpu, Option.map_eq_some_iff] at taken
      obtain ⟨next, -, rfl⟩ := taken
      exact moves rfl rfl rfl rfl rfl
  | _ =>
      cases taken
      exact moves rfl rfl rfl rfl rfl

theorem Started.step (h : Started myApicId madt.localApics s) (distinct : madt.localApics.Nodup)
    (member : myApicId ∈ madt.localApics) {event : Event} (step : s.Step myApicId madt event t) :
    Started myApicId madt.localApics t := by
  cases event with
  | bsp heard => exact h.bsp distinct ((Option.ite_none_left_eq_some ..).mp step).2
  | timeout =>
      have now := h.now
      have step : s.timeout = some t := step
      unfold Boot.timeout at step
      split at step
      · rename_i i apicId previous at'
        rw [at'] at now
        cases step
        exact h.stays rfl (by rw [at']; rfl) now fun _ => h.trampoline (by rw [at']; rfl)
      · cases step
  | ap apicId =>
      obtain ⟨-, step⟩ := (Option.ite_none_left_eq_some ..).mp step
      cases here : s.ap apicId with
      | off | waitsSipi => simp only [Boot.stepAp, here, reduceCtorEq] at step
      | trampoline =>
          simp only [Boot.stepAp, here, Option.some.injEq] at step
          subst step
          exact h.ap (by rw [here]; nofun) (by rw [here]; nofun) rfl rfl rfl rfl
            (.inl ⟨by rw [here]; rfl, rfl⟩)
      | higherHalf =>
          simp only [Boot.stepAp, here, Option.some.injEq] at step
          subst step
          have few := h.few member
          have counted : (s.runningCpus + 1) % 2 ^ 8 = s.runningCpus + 1 :=
            Nat.mod_eq_of_lt (by omega)
          exact h.ap (by rw [here]; nofun) (by rw [here]; nofun) rfl rfl rfl rfl
            (.inr ⟨by rw [here]; rfl, rfl, counted⟩)
      | cpu cpuNumber place =>
          simp only [Boot.stepAp, here] at step
          exact h.stepCpu here ((Option.ite_none_left_eq_some ..).mp step).2
  | receive apicId =>
      have step : s.receive myApicId apicId = some t := step
      unfold Boot.receive at step
      split at step
      · obtain ⟨-, same⟩ := (Option.ite_none_right_eq_some ..).mp step
        cases same
        exact h.stays rfl rfl h.now h.trampoline
      · cases step
  | answer cpuNumber =>
      obtain ⟨-, same⟩ := (Option.ite_none_right_eq_some ..).mp step
      cases same
      exact h.stays rfl rfl h.now h.trampoline

/-- Every number from one on is that of a place in the MADT. -/
theorem exists_number {localApics : List Nat} {k i : Nat} (positive : 1 ≤ k)
    (less : k < number myApicId localApics i) :
    ∃ j apicId, j < i ∧ localApics[j]? = some apicId ∧ apicId ≠ myApicId ∧
    number myApicId localApics j = k := by
  induction i with
  | zero => exact absurd less (Nat.not_lt.mpr positive)
  | succ i ih =>
      by_cases earlier : k < number myApicId localApics i
      · obtain ⟨j, apicId, before, found⟩ := ih earlier
        exact ⟨j, apicId, Nat.lt_succ_of_lt before, found⟩
      · cases here : localApics[i]? with
        | none =>
            have passed := List.getElem?_eq_none_iff.mp here
            rw [number, List.take_of_length_le (Nat.le_succ_of_le passed)] at less
            rw [number, List.take_of_length_le passed] at earlier
            exact absurd less earlier
        | some apicId =>
            rw [number_succ myApicId here] at less
            split_ifs at less with other
            · exact ⟨i, apicId, Nat.lt_succ_self i, here, other, by omega⟩
            · exact absurd less earlier

end Starting

/-- The processors by number: each that has counted itself is from the MADT and has the number
    of its place there, for which the scheduler was set up before; the numbers go up to the
    counter without a gap; once the first processor is past the loop all have one, and as long
    as a processor is in the page of the trampoline the trampoline is there. -/
structure Numbered (myApicId : Nat) (localApics : List Nat) (s : Boot) : Prop where
  place : ∀ apicId cpuNumber, (s.ap apicId).number? = some cpuNumber →
    ∃ j, localApics[j]? = some apicId ∧
    apicId ≠ myApicId ∧ cpuNumber = number myApicId localApics j ∧ cpuNumber < s.runningCpus
  unique : ∀ apicId other cpuNumber, s.number? myApicId apicId = some cpuNumber →
    s.number? myApicId other = some cpuNumber → apicId = other
  gapless : ∀ k, 1 ≤ k → k < s.runningCpus → ∃ apicId, (s.ap apicId).number? = some k
  tasks : ∃ m, s.initialized = List.range m ∧ s.runningCpus ≤ m
  all : s.bsp.starting = false → ∀ apicId ∈ localApics, apicId ≠ myApicId →
    (s.ap apicId).number? ≠ none
  trampoline : ∀ apicId, s.ap apicId = .trampoline → s.trampoline = true

section Numbers

variable {myApicId : Nat} {madt : Madt} {s : Boot}

theorem Started.place (h : Started myApicId madt.localApics s) {apicId cpuNumber : Nat}
    (counted : (s.ap apicId).number? = some cpuNumber) :
    ∃ j, madt.localApics[j]? = some apicId ∧ apicId ≠ myApicId ∧
      cpuNumber = number myApicId madt.localApics j ∧ cpuNumber < s.runningCpus := by
  have on : s.ap apicId ≠ .off := by
    intro off
    rw [off] at counted
    cases counted
  have listed : apicId ∈ madt.localApics ∧ apicId ≠ myApicId := by
    by_contra neither
    exact on (h.others apicId fun inside => by_contra fun other => neither ⟨inside, other⟩)
  obtain ⟨j, here⟩ := List.getElem?_of_mem listed.1
  refine ⟨j, here, listed.2, ?_⟩
  have level := h.level rfl
  rcases Nat.lt_trichotomy j (s.bsp.index madt.localApics.length) with less | same | later
  · have own := h.before j apicId here listed.2 less
    cases counted.symm.trans own
    refine ⟨rfl, Nat.lt_of_lt_of_le (number_lt here listed.2 less) ?_⟩
    rcases level with ⟨count, -⟩ | ⟨-, -, -, -, -, count⟩ <;> omega
  · subst same
    rcases level with ⟨-, uncounted⟩ | ⟨other, found, -, -, own, count⟩
    · rw [uncounted apicId here listed.2] at counted
      cases counted
    · cases here.symm.trans found
      cases counted.symm.trans own
      exact ⟨rfl, by omega⟩
  · exact absurd (h.after j apicId here listed.2 later) on

theorem number_inj {localApics : List Nat} {i j apicId other : Nat}
    (left : localApics[i]? = some apicId) (right : localApics[j]? = some other)
    (that : apicId ≠ myApicId) (this : other ≠ myApicId)
    (same : number myApicId localApics i = number myApicId localApics j) : i = j := by
  rcases Nat.lt_trichotomy i j with less | equal | more
  · exact absurd same (Nat.ne_of_lt (number_lt left that less))
  · exact equal
  · exact absurd same (Nat.ne_of_gt (number_lt right this more))

theorem Started.tasks (h : Started myApicId madt.localApics s) :
    ∃ m, s.initialized = List.range m ∧ s.runningCpus ≤ m := by
  have now := h.now
  have level := fun i => h.level (i := i)
  cases place : s.bsp with
  | entry i =>
      rw [place] at now
      exact ⟨_, now.2.1, Nat.le_refl _⟩
  | initsTask i apicId =>
      rw [place] at now
      exact ⟨_, now.2.2.2.1, Nat.le_refl _⟩
  | startCpu i apicId | panicked i apicId =>
      rw [place] at now
      refine ⟨_, now.2.2.1, ?_⟩
      rcases level i (by rw [place]; rfl) with ⟨count, -⟩ | ⟨-, -, -, -, -, count⟩ <;> omega
  | restores | setsTick | enablesIrqs | runs =>
      rw [place] at now
      exact ⟨_, now.2, Nat.le_refl _⟩

theorem Started.numbered (h : Started myApicId madt.localApics s) :
    Numbered myApicId madt.localApics s := by
  have all : s.bsp.starting = false → ∀ apicId ∈ madt.localApics, apicId ≠ myApicId →
      (s.ap apicId).number? ≠ none := by
    intro done apicId inside other
    obtain ⟨j, here⟩ := List.getElem?_of_mem inside
    have less : j < s.bsp.index madt.localApics.length := by
      have short := (List.getElem?_eq_some_iff.mp here).1
      cases place : s.bsp with
      | entry | initsTask | startCpu | panicked =>
          rw [place] at done
          cases done
      | restores | setsTick | enablesIrqs | runs => exact short
    rw [h.before j apicId here other less]
    nofun
  refine ⟨fun apicId cpuNumber => h.place, fun apicId other cpuNumber left right => ?_,
    fun k positive less => ?_, h.tasks, all, fun apicId inPage => ?_⟩
  · by_cases mine : apicId = myApicId <;> by_cases his : other = myApicId
    · exact mine.trans his.symm
    · rw [Boot.number?, if_pos mine] at left
      rw [Boot.number?, if_neg his] at right
      cases left
      obtain ⟨j, -, -, same, -⟩ := h.place right
      unfold number at same
      omega
    · rw [Boot.number?, if_neg mine] at left
      rw [Boot.number?, if_pos his] at right
      cases right
      obtain ⟨j, -, -, same, -⟩ := h.place left
      unfold number at same
      omega
    · rw [Boot.number?, if_neg mine] at left
      rw [Boot.number?, if_neg his] at right
      obtain ⟨i, here, that, same, -⟩ := h.place left
      obtain ⟨j, here', this, same', -⟩ := h.place right
      cases number_inj here here' that this (same.symm.trans same')
      exact Option.some.inj (here.symm.trans here')
  · have earlier : k < number myApicId madt.localApics (s.bsp.index madt.localApics.length) →
        ∃ apicId, (s.ap apicId).number? = some k := by
      intro below
      obtain ⟨j, apicId, before, here, other, rfl⟩ := exists_number positive below
      exact ⟨apicId, h.before j apicId here other before⟩
    rcases h.level rfl with ⟨count, -⟩ | ⟨apicId, -, -, -, own, count⟩
    · exact earlier (count ▸ less)
    · rcases Nat.lt_succ_iff_lt_or_eq.mp (count ▸ less) with below | rfl
      · exact earlier below
      · exact ⟨apicId, own⟩
  · cases done : s.bsp.starting with
    | true => exact h.trampoline done
    | false =>
        have on : s.ap apicId ≠ .off := by
          rw [inPage]
          nofun
        have listed : apicId ∈ madt.localApics ∧ apicId ≠ myApicId := by
          by_contra neither
          exact on (h.others apicId fun inside => by_contra fun other => neither ⟨inside, other⟩)
        have counted := all done apicId listed.1 listed.2
        rw [inPage] at counted
        exact absurd rfl counted

/-- Whatever the order in which the processors come up, and whichever interrupts they miss. -/
theorem processors_numbered (distinct : madt.localApics.Nodup) (member : myApicId ∈ madt.localApics)
    {events : List Event} (run : Run (Boot.Step myApicId madt) (Boot.start madt) events s) :
    Numbered myApicId madt.localApics s := by
  have started : Started myApicId madt.localApics s :=
    run.invariant (.start member) fun _ _ _ h step => h.step distinct member step
  exact started.numbered

/-- The first processor is the second one of the MADT. -/
def secondFirst : Madt := ⟨[5, 3], Nat.le_of_ble_eq_true rfl⟩

/-- The other one misses the first startup interrupt, and counts itself when the time is over. -/
def late : List Event :=
  [.bsp true, .bsp true, .bsp true, .bsp true, .bsp false, .bsp true, .bsp true, .ap 5, .timeout,
    .ap 5, .bsp true, .bsp true]

theorem processors_numbered_late :
    ∃ s, late.foldlM (Boot.after? 3 secondFirst) (Boot.start secondFirst) = some s ∧
    Numbered 3 [5, 3] s := by
  have run : Run (Boot.Step 3 secondFirst) (Boot.start secondFirst) late _ := .of_foldlM rfl
  exact ⟨_, rfl, processors_numbered (by decide) (by decide) run⟩

end Numbers

end Mykonos.Smp.Bringup
