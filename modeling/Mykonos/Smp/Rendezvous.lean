import Mykonos.Smp.Bringup

/-! # The processors wait for each other

In `kRun` every processor waits twice until all have come as far, and then they race for the
hardware. One of them begins with it, after all have run their other thread.
-/

namespace Mykonos.Smp.Bringup

open Lib

/-- Where the processors are in `kRun`, by APIC, and what they share there. -/
structure Meeting where
  place : Nat → Option RunPlace
  counters : Counters

/-- Counted in `numCpusWithInitialTasks`. -/
def RunPlace.arrived : RunPlace → Bool
  | .arrives => false
  | _ => true

/-- Counted in `numCpusDone`. -/
def RunPlace.finished : RunPlace → Bool
  | .arrives | .waitsAll | .waitsOther | .finishes => false
  | .waitsDone | .races | .initializes | .ends _ => true

/-- Past the first wait. -/
def RunPlace.together : RunPlace → Bool
  | .arrives | .waitsAll => false
  | _ => true

/-- Past the second. -/
def RunPlace.afterAll : RunPlace → Bool
  | .races | .initializes | .ends _ => true
  | _ => false

/-- The processor that begins, or began, with the hardware. -/
def RunPlace.winner : RunPlace → Bool
  | .initializes | .ends true => true
  | _ => false

/-- A processor enters `kRun` or goes on there. -/
inductive Meeting.Step (numCpus : Nat) (m : Meeting) : Meeting → Prop where
  | enters (apicId : Nat) (out : m.place apicId = none) :
      Step numCpus m ⟨Function.update m.place apicId (some .arrives), m.counters⟩
  | goes (apicId : Nat) {place : RunPlace} {next : RunPlace × Counters}
      (here : m.place apicId = some place) (taken : place.step numCpus m.counters = some next) :
      Step numCpus m ⟨Function.update m.place apicId (some next.1), next.2⟩

/-- The processors at places of a kind. -/
def Meeting.many (m : Meeting) (localApics : List Nat) (kind : RunPlace → Bool) : Nat :=
  localApics.countP fun apicId => (m.place apicId).any kind

/-- The counters say how many are how far, and the lock whether one begins. -/
structure Met (localApics : List Nat) (m : Meeting) : Prop where
  listed : ∀ apicId, m.place apicId ≠ none → apicId ∈ localApics
  arrived : m.counters.numCpusWithInitialTasks = m.many localApics RunPlace.arrived
  finished : m.counters.numCpusDone = m.many localApics RunPlace.finished
  together : ∀ apicId place, m.place apicId = some place → place.together = true →
    localApics.length ≤ m.counters.numCpusWithInitialTasks
  afterAll : ∀ apicId place, m.place apicId = some place → place.afterAll = true →
    localApics.length ≤ m.counters.numCpusDone
  locked : m.counters.hardwareInitLock = true ↔ ∃ apicId place, m.place apicId = some place ∧
    place.winner = true
  one : ∀ apicId other place place', m.place apicId = some place → m.place other = some place' →
    place.winner = true → place'.winner = true → apicId = other
  ended : ∀ apicId initialized, m.place apicId = some (.ends initialized) →
    m.counters.hardwareInitLock = true

section Meetings

variable {localApics : List Nat} {m m' : Meeting}

/-- One more element meets a condition. -/
theorem countP_update {p q : Nat → Bool} {apicId : Nat} (distinct : localApics.Nodup)
    (member : apicId ∈ localApics) (same : ∀ other, other ≠ apicId → q other = p other) :
    localApics.countP q + (if p apicId then 1 else 0) = localApics.countP p +
      if q apicId then 1 else 0 := by
  induction localApics with
  | nil => cases member
  | cons first rest ih =>
      obtain ⟨absent, distinct'⟩ := List.nodup_cons.mp distinct
      rw [List.countP_cons, List.countP_cons]
      by_cases here : first = apicId
      · subst here
        have others : rest.countP q = rest.countP p :=
          List.countP_congr fun other inside => by
            rw [same other fun equal => absent (equal ▸ inside)]
        omega
      · have later := ih distinct' ((List.mem_cons.mp member).resolve_left (Ne.symm here))
        rw [same first here]
        omega

theorem Meeting.many_update (distinct : localApics.Nodup) (kind : RunPlace → Bool) {apicId : Nat}
    (place : Option RunPlace) (member : apicId ∈ localApics) (counters : Counters) :
    (⟨Function.update m.place apicId place, counters⟩ : Meeting).many localApics kind +
        (if (m.place apicId).any kind then 1 else 0) =
      m.many localApics kind + if place.any kind then 1 else 0 := by
  have counted := countP_update (p := fun other => (m.place other).any kind)
    (q := fun other => (Function.update m.place apicId place other).any kind) distinct member
    fun other this => by rw [Function.update_of_ne this]
  rw [Function.update_self] at counted
  exact counted

theorem Meeting.many_le (m : Meeting) (kind : RunPlace → Bool) :
    m.many localApics kind ≤ localApics.length :=
  List.countP_le_length

/-- As many as there are means all. -/
theorem Meeting.all_of_many {kind : RunPlace → Bool}
    (all : localApics.length ≤ m.many localApics kind) {apicId : Nat}
    (member : apicId ∈ localApics) : ∃ place, m.place apicId = some place ∧ kind place = true := by
  have full : m.many localApics kind = localApics.length := Nat.le_antisymm (m.many_le kind) all
  have here := List.countP_eq_length.mp full apicId member
  simpa only [Option.any_eq_true] using here

/-- What a step in `kRun` does to the counters. -/
theorem RunPlace.step_counts {numCpus : Nat} {c : Counters} {place : RunPlace}
    {next : RunPlace × Counters} (taken : place.step numCpus c = some next) :
    next.2.numCpusWithInitialTasks + (if place.arrived then 1 else 0) =
        c.numCpusWithInitialTasks + (if next.1.arrived then 1 else 0) ∧
      next.2.numCpusDone + (if place.finished then 1 else 0) =
        c.numCpusDone + (if next.1.finished then 1 else 0) ∧
      c.numCpusWithInitialTasks ≤ next.2.numCpusWithInitialTasks ∧ c.numCpusDone ≤
        next.2.numCpusDone := by
  cases place with
  | ends => cases taken
  | waitsAll | waitsDone =>
      cases taken
      dsimp only
      split_ifs <;> simp_all [RunPlace.arrived, RunPlace.finished]
  | races =>
      simp only [RunPlace.step] at taken
      split_ifs at taken <;>
      · cases taken
        simp [RunPlace.arrived, RunPlace.finished]
  | _ =>
      cases taken
      simp [RunPlace.arrived, RunPlace.finished]

/-- A wait is over when the counter says so. -/
theorem RunPlace.step_waits {numCpus : Nat} {c : Counters} {place : RunPlace}
    {next : RunPlace × Counters} (taken : place.step numCpus c = some next) :
    (next.1.together = true → place.together = true ∨ numCpus ≤ c.numCpusWithInitialTasks) ∧
      (next.1.afterAll = true → place.afterAll = true ∨ numCpus ≤ c.numCpusDone) := by
  cases place with
  | ends => cases taken
  | waitsAll | waitsDone =>
      cases taken
      dsimp only
      split_ifs <;> simp_all [RunPlace.together, RunPlace.afterAll]
  | races =>
      simp only [RunPlace.step] at taken
      split_ifs at taken <;>
      · cases taken
        simp [RunPlace.together, RunPlace.afterAll]
  | _ =>
      cases taken
      simp [RunPlace.together, RunPlace.afterAll]

/-- Only with the lock free does a processor begin with the hardware. -/
theorem RunPlace.step_lock {numCpus : Nat} {c : Counters} {place : RunPlace}
    {next : RunPlace × Counters} (taken : place.step numCpus c = some next) :
    c.hardwareInitLock = false ∧ place.winner = false ∧ next.1.winner = true ∧
    next.2.hardwareInitLock = true ∨
      next.2.hardwareInitLock = c.hardwareInitLock ∧ next.1.winner = place.winner := by
  cases place with
  | ends => cases taken
  | waitsAll | waitsDone =>
      cases taken
      refine .inr ⟨rfl, ?_⟩
      dsimp only
      split_ifs <;> rfl
  | races =>
      simp only [RunPlace.step] at taken
      split_ifs at taken with locked
      · cases taken
        exact .inr ⟨rfl, rfl⟩
      · cases taken
        exact .inl ⟨Bool.eq_false_iff.mpr locked, rfl, rfl, rfl⟩
  | _ =>
      cases taken
      exact .inr ⟨rfl, rfl⟩

theorem RunPlace.step_ends {numCpus : Nat} {c : Counters} {place : RunPlace}
    {next : RunPlace × Counters} {initialized : Bool} (taken : place.step numCpus c = some next)
    (ends : next.1 = .ends initialized) :
    place.winner = true ∨ c.hardwareInitLock = true := by
  cases place with
  | ends => cases taken
  | races =>
      simp only [RunPlace.step] at taken
      split_ifs at taken with locked
      · exact .inr locked
      · cases taken
        cases ends
  | initializes => exact .inl rfl
  | waitsAll | waitsDone =>
      cases taken
      dsimp only at ends
      split_ifs at ends
  | _ =>
      cases taken
      cases ends

theorem Met.start : Met localApics ⟨fun _ => none, {}⟩ := by
  refine ⟨fun _ out => absurd rfl out, ?_, ?_, nofun, nofun, ⟨nofun, ?_⟩, nofun, nofun⟩
  · simp [Meeting.many]
  · simp [Meeting.many]
  · rintro ⟨_, _, ⟨⟩, _⟩

theorem Met.enters (h : Met localApics m) (distinct : localApics.Nodup) {apicId : Nat}
    (out : m.place apicId = none) (member : apicId ∈ localApics) :
    Met localApics ⟨Function.update m.place apicId (some .arrives), m.counters⟩ := by
  have old : ∀ other place, Function.update m.place apicId (some .arrives) other = some place →
    place ≠ .arrives →
      m.place other = some place := by
    intro other place here not
    by_cases same : other = apicId
    · subst same
      rw [Function.update_self] at here
      cases here
      exact absurd rfl not
    · rwa [Function.update_of_ne same] at here
  have counted : ∀ kind : RunPlace → Bool, kind .arrives = false →
      (⟨Function.update m.place apicId (some .arrives), m.counters⟩ : Meeting).many localApics
        kind = m.many localApics kind := by
    intro kind not
    have changed := Meeting.many_update (m := m) distinct kind (some .arrives) member m.counters
    simpa [out, not] using changed
  refine ⟨fun other inside => ?_, h.arrived.trans (counted _ rfl).symm,
    h.finished.trans (counted _ rfl).symm, fun other place here kind =>
      h.together other place (old other place here ?_) kind,
    fun other place here kind => h.afterAll other place (old other place here ?_) kind,
    h.locked.trans ⟨?_, ?_⟩, fun a b p q here there first second =>
      h.one a b p q (old a p here ?_) (old b q there ?_) first second,
    fun other initialized here => h.ended other initialized (old other _ here nofun)⟩
  · by_cases same : other = apicId
    · exact same ▸ member
    · exact h.listed other (by simpa only [Function.update_of_ne same] using inside)
  · rintro rfl
    cases kind
  · rintro rfl
    cases kind
  · rintro ⟨other, place, here, winner⟩
    have different : other ≠ apicId := by
      rintro rfl
      rw [out] at here
      cases here
    exact ⟨other, place, (Function.update_of_ne different _ _).trans here, winner⟩
  · rintro ⟨other, place, here, winner⟩
    refine ⟨other, place, old other place here ?_, winner⟩
    rintro rfl
    cases winner
  · rintro rfl
    cases first
  · rintro rfl
    cases second

theorem Met.goes (h : Met localApics m) (distinct : localApics.Nodup) {apicId : Nat}
    {place : RunPlace} {next : RunPlace × Counters} (here : m.place apicId = some place)
    (taken : place.step localApics.length m.counters = some next) :
    Met localApics ⟨Function.update m.place apicId (some next.1), next.2⟩ := by
  have member : apicId ∈ localApics := h.listed apicId (by rw [here]; nofun)
  obtain ⟨arrived, finished, moreArrived, moreFinished⟩ := RunPlace.step_counts taken
  obtain ⟨together, afterAll⟩ := RunPlace.step_waits taken
  have counted : ∀ kind : RunPlace → Bool,
      (⟨Function.update m.place apicId (some next.1), next.2⟩ : Meeting).many localApics kind +
          (if kind place then 1 else 0) = m.many localApics kind +
            if kind next.1 then 1 else 0 := by
    intro kind
    have changed := Meeting.many_update (m := m) distinct kind (some next.1) member next.2
    simpa only [here, Option.any_some] using changed
  have winner : ∀ {other p}, m.place other = some p → p.winner = true →
    next.2.hardwareInitLock = true ∧
      m.counters.hardwareInitLock = true ∧ next.1.winner = place.winner := by
    intro other p there wins
    have locked := h.locked.mpr ⟨other, p, there, wins⟩
    rcases RunPlace.step_lock taken with ⟨free, -⟩ | ⟨kept, same⟩
    · rw [free] at locked
      cases locked
    · exact ⟨kept.trans locked, locked, same⟩
  have cases' : ∀ other p, Function.update m.place apicId (some next.1) other = some p →
      other = apicId ∧ p = next.1 ∨ other ≠ apicId ∧ m.place other = some p := by
    intro other p there
    by_cases same : other = apicId
    · subst same
      rw [Function.update_self] at there
      exact .inl ⟨rfl, (Option.some.inj there).symm⟩
    · rw [Function.update_of_ne same] at there
      exact .inr ⟨same, there⟩
  refine ⟨fun other inside => ?_, ?_, ?_, fun other p there kind => ?_,
    fun other p there kind => ?_, ⟨fun locked => ?_, ?_⟩, fun a b p q there there' first second =>
      ?_, fun other initialized there => ?_⟩
  · by_cases same : other = apicId
    · exact same ▸ member
    · exact h.listed other (by simpa only [Function.update_of_ne same] using inside)
  · have changed := counted RunPlace.arrived
    have old := h.arrived
    dsimp only at changed ⊢
    omega
  · have changed := counted RunPlace.finished
    have old := h.finished
    dsimp only at changed ⊢
    omega
  · rcases cases' other p there with ⟨-, rfl⟩ | ⟨-, old⟩
    · rcases together kind with before | enough
      · exact (h.together apicId place here before).trans moreArrived
      · exact enough.trans moreArrived
    · exact (h.together other p old kind).trans moreArrived
  · rcases cases' other p there with ⟨-, rfl⟩ | ⟨-, old⟩
    · rcases afterAll kind with before | enough
      · exact (h.afterAll apicId place here before).trans moreFinished
      · exact enough.trans moreFinished
    · exact (h.afterAll other p old kind).trans moreFinished
  · rcases RunPlace.step_lock taken with ⟨-, -, wins, -⟩ | ⟨kept, same⟩
    · exact ⟨apicId, next.1, Function.update_self _ _ _, wins⟩
    · obtain ⟨other, p, there, wins⟩ := h.locked.mp (kept.symm.trans locked)
      by_cases this : other = apicId
      · subst this
        cases there.symm.trans here
        exact ⟨other, next.1, Function.update_self _ _ _, same.trans wins⟩
      · exact ⟨other, p, (Function.update_of_ne this _ _).trans there, wins⟩
  · rintro ⟨other, p, there, wins⟩
    rcases cases' other p there with ⟨-, rfl⟩ | ⟨-, old⟩
    · rcases RunPlace.step_lock taken with ⟨-, -, -, locked⟩ | ⟨-, same⟩
      · exact locked
      · exact (winner here (same.symm.trans wins)).1
    · exact (winner old wins).1
  · rcases cases' a p there with ⟨rfl, rfl⟩ | ⟨-, old⟩ <;>
      rcases cases' b q there' with ⟨rfl, rfl⟩ | ⟨-, old'⟩
    · rfl
    · exact h.one a b place q here old' ((winner old' second).2.2.symm.trans first) second
    · exact h.one a b p place old here first ((winner old first).2.2.symm.trans second)
    · exact h.one a b p q old old' first second
  · have locked : m.counters.hardwareInitLock = true := by
      rcases cases' other _ there with ⟨-, ends⟩ | ⟨-, old⟩
      · rcases RunPlace.step_ends taken ends.symm with wins | locked
        · exact (winner here wins).2.1
        · exact locked
      · exact h.ended other initialized old
    rcases RunPlace.step_lock taken with ⟨free, -⟩ | ⟨kept, -⟩
    · rw [free] at locked
      cases locked
    · exact kept.trans locked

theorem Met.step (h : Met localApics m) (distinct : localApics.Nodup)
    (step : Meeting.Step localApics.length m m')
    (listed : ∀ apicId, m'.place apicId ≠ none → apicId ∈ localApics) : Met localApics m' := by
  cases step with
  | enters apicId out => exact h.enters distinct out (listed apicId (by simp))
  | goes apicId here taken => exact h.goes distinct here taken

end Meetings

def Ap.runPlace? : Ap → Option RunPlace
  | .cpu _ (.runs place) => some place
  | _ => none

def Bsp.runPlace? : Bsp → Option RunPlace
  | .runs place => some place
  | _ => none

/-- The processors in `kRun`. -/
def Boot.meeting (myApicId : Nat) (s : Boot) : Meeting where
  place apicId := if apicId = myApicId then s.bsp.runPlace? else (s.ap apicId).runPlace?
  counters := s.counters

section Views

variable {myApicId : Nat} {madt : Madt} {s t : Boot}

theorem Boot.meeting_same (bsp : t.bsp.runPlace? = s.bsp.runPlace?)
    (ap : ∀ apicId, apicId ≠ myApicId → (t.ap apicId).runPlace? = (s.ap apicId).runPlace?)
    (counters : t.counters = s.counters) : t.meeting myApicId = s.meeting myApicId := by
  unfold Boot.meeting
  congr 1
  funext apicId
  split_ifs with mine
  · exact bsp
  · exact ap apicId mine

theorem Boot.meeting_ap {apicId : Nat} {ap : Ap} (other : apicId ≠ myApicId) (bsp : t.bsp = s.bsp)
    (changed : t.ap = Function.update s.ap apicId ap) :
    t.meeting myApicId = ⟨Function.update (s.meeting myApicId).place apicId ap.runPlace?,
      t.counters⟩ := by
  unfold Boot.meeting
  congr 1
  funext a
  rw [changed, bsp]
  by_cases same : a = apicId
  · subst same
    rw [Function.update_self, if_neg other, Function.update_self]
  · rw [Function.update_of_ne same, Function.update_of_ne same]

theorem Boot.meeting_bsp (ap : t.ap = s.ap) :
    t.meeting myApicId = ⟨Function.update (s.meeting myApicId).place myApicId t.bsp.runPlace?,
      t.counters⟩ := by
  unfold Boot.meeting
  congr 1
  funext a
  by_cases same : a = myApicId
  · subst same
    rw [if_pos rfl, Function.update_self]
  · rw [if_neg same, Function.update_of_ne same, ap]
    exact (if_neg same).symm

theorem Ap.sipi_runPlace (ap : Ap) (heard : Bool) : (ap.sipi heard).runPlace? = ap.runPlace? := by
  unfold Ap.sipi
  split_ifs with waits
  · rw [waits.2]
    rfl
  · rfl

/-- In the loop the first processor changes nothing in `kRun`. -/
theorem Boot.startCpu_meeting (h : Started myApicId madt.localApics s) {heard : Bool}
    {i apicId : Nat} {place : StartPlace} (here : s.bsp = .startCpu i apicId place) :
    (s.stepStart heard i apicId place).meeting myApicId = s.meeting myApicId := by
  have now := h.now
  rw [here] at now
  obtain ⟨-, -, -, start⟩ := now
  have out : s.bsp.runPlace? = none := by
    rw [here]
    rfl
  have sent : ∀ {ap : Ap}, ap.runPlace? = (s.ap apicId).runPlace? → ∀ a,
      (Function.update s.ap apicId ap a).runPlace? = (s.ap a).runPlace? := by
    intro ap same a
    by_cases this : a = apicId
    · subst this
      rw [Function.update_self, same]
    · rw [Function.update_of_ne this]
  cases place with
  | reads => exact Boot.meeting_same out.symm (fun _ _ => rfl) rfl
  | sendsInit previous =>
      refine Boot.meeting_same out.symm (fun a _ => sent ?_ a) rfl
      rw [start.1]
      cases heard <;> rfl
  | sendsSipi previous | sendsAgain previous =>
      exact Boot.meeting_same out.symm (fun a _ => sent (Ap.sipi_runPlace _ _) a) rfl
  | checks previous | returns previous =>
      refine Boot.meeting_same ?_ (fun _ _ => rfl) rfl
      rw [out]
      dsimp only [Boot.stepStart]
      split_ifs <;> rfl
  | polls previous => exact Boot.meeting_same out.symm (fun _ _ => rfl) rfl

/-- A step is one in `kRun` or changes nothing there. -/
theorem Boot.step_meeting (h : Started myApicId madt.localApics s) {event : Event}
    (step : s.Step myApicId madt event t) :
    t.meeting myApicId = s.meeting myApicId ∨
      Meeting.Step madt.localApics.length (s.meeting myApicId) (t.meeting myApicId) := by
  cases event with
  | timeout =>
      have step : s.timeout = some t := step
      unfold Boot.timeout at step
      split at step
      · rename_i here
        cases step
        exact .inl (Boot.meeting_same (by rw [here]; rfl) (fun _ _ => rfl) rfl)
      · cases step
  | receive apicId =>
      have step : s.receive myApicId apicId = some t := step
      unfold Boot.receive at step
      split at step
      · obtain ⟨-, same⟩ := (Option.ite_none_right_eq_some ..).mp step
        cases same
        exact .inl (Boot.meeting_same rfl (fun _ _ => rfl) rfl)
      · cases step
  | answer cpuNumber =>
      obtain ⟨-, same⟩ := (Option.ite_none_right_eq_some ..).mp step
      cases same
      exact .inl (Boot.meeting_same rfl (fun _ _ => rfl) rfl)
  | bsp heard =>
      have step := ((Option.ite_none_left_eq_some ..).mp step).2
      cases here : s.bsp with
      | startCpu i apicId place =>
          simp only [Boot.stepBsp, here, Option.some.injEq] at step
          subst step
          exact .inl (Boot.startCpu_meeting h here)
      | entry i =>
          simp only [Boot.stepBsp, here] at step
          split at step
          · cases step
            exact .inl (Boot.meeting_same (by rw [here]; rfl) (fun _ _ => rfl) rfl)
          · split_ifs at step <;>
            · cases step
              exact .inl (Boot.meeting_same (by rw [here]; rfl) (fun _ _ => rfl) rfl)
      | panicked i apicId => simp only [Boot.stepBsp, here, reduceCtorEq] at step
      | initsTask | restores | setsTick =>
          simp only [Boot.stepBsp, here, Option.some.injEq] at step
          subst step
          exact .inl (Boot.meeting_same (by rw [here]; rfl) (fun _ _ => rfl) rfl)
      | enablesIrqs =>
          simp only [Boot.stepBsp, here, Option.some.injEq] at step
          subst step
          have view : ({ s with bsp := .runs .arrives } : Boot).meeting myApicId = _ :=
            Boot.meeting_bsp (s := s) rfl
          rw [view]
          refine .inr (.enters myApicId ?_)
          simp [Boot.meeting, here, Bsp.runPlace?]
      | runs place =>
          simp only [Boot.stepBsp, here, Option.map_eq_some_iff] at step
          obtain ⟨next, taken, rfl⟩ := step
          have view :
              ({ s with bsp := .runs next.1, counters := next.2 } : Boot).meeting myApicId = _ :=
            Boot.meeting_bsp (s := s) rfl
          rw [view]
          refine .inr (.goes myApicId ?_ taken)
          simp [Boot.meeting, here, Bsp.runPlace?]
  | ap apicId =>
      obtain ⟨other, step⟩ := (Option.ite_none_left_eq_some ..).mp step
      have quiet : ∀ {ap : Ap}, t.bsp = s.bsp → t.ap = Function.update s.ap apicId ap →
        t.counters = s.counters →
          ap.runPlace? = (s.ap apicId).runPlace? → t.meeting myApicId = s.meeting myApicId := by
        intro ap bsp changed counters same
        refine Boot.meeting_same (by rw [bsp]) (fun a _ => ?_) counters
        rw [changed]
        by_cases this : a = apicId
        · subst this
          rw [Function.update_self, same]
        · rw [Function.update_of_ne this]
      cases here : s.ap apicId with
      | off | waitsSipi => simp only [Boot.stepAp, here, reduceCtorEq] at step
      | trampoline | higherHalf =>
          simp only [Boot.stepAp, here, Option.some.injEq] at step
          subst step
          exact .inl (quiet rfl rfl rfl (by rw [here]; rfl))
      | cpu cpuNumber place =>
          simp only [Boot.stepAp, here] at step
          have step := ((Option.ite_none_left_eq_some ..).mp step).2
          cases place with
          | runs place =>
              simp only [Boot.stepCpu, Option.map_eq_some_iff] at step
              obtain ⟨next, taken, rfl⟩ := step
              have view :
                  ({ s.setAp apicId (.cpu cpuNumber (.runs next.1)) with
                    counters := next.2 } : Boot).meeting myApicId = _ :=
                Boot.meeting_ap (s := s) other rfl rfl
              rw [view]
              refine .inr (.goes apicId ?_ taken)
              simp [Boot.meeting, here, other, Ap.runPlace?]
          | waitsTick =>
              cases step
              cases ticks : s.localApicTickSetting with
              | true =>
                  have view :
                      (s.setAp apicId (.cpu cpuNumber (.runs .arrives))).meeting myApicId = _ :=
                    Boot.meeting_ap (s := s) other rfl rfl
                  rw [if_pos rfl, view]
                  refine .inr (.enters apicId ?_)
                  simp [Boot.meeting, here, other, Ap.runPlace?]
              | false =>
                  have still := quiet rfl rfl rfl (by rw [here, ticks]; rfl)
                  rw [ticks] at still
                  exact .inl still
          | waitsAnswer =>
              cases step
              refine .inl (quiet rfl rfl rfl ?_)
              rw [here]
              split_ifs <;> rfl
          | _ =>
              cases step
              exact .inl (quiet rfl rfl rfl (by rw [here]; rfl))

/-- A processor in `kRun` is from the MADT. -/
theorem Started.meeting_listed (h : Started myApicId madt.localApics s)
    (member : myApicId ∈ madt.localApics) {apicId : Nat}
    (inside : (s.meeting myApicId).place apicId ≠ none) : apicId ∈ madt.localApics := by
  by_contra outside
  have other : apicId ≠ myApicId := by
    rintro rfl
    exact outside member
  refine inside ?_
  simp only [Boot.meeting, if_neg other, h.others apicId fun listed => absurd listed outside]
  rfl

/-- What has come about and what is known of the processors in `kRun`. -/
theorem Boot.met (distinct : madt.localApics.Nodup) (member : myApicId ∈ madt.localApics)
    {events : List Event} (run : Run (Boot.Step myApicId madt) (Boot.start madt) events s) :
    Started myApicId madt.localApics s ∧ Met madt.localApics (s.meeting myApicId) := by
  refine run.invariant
    (P := fun s => Started myApicId madt.localApics s ∧ Met madt.localApics (s.meeting myApicId))
    ⟨.start member, ?_⟩ ?_
  · have nobody : (Boot.start madt).meeting myApicId = ⟨fun _ => none, {}⟩ := by
      unfold Boot.meeting Boot.start
      congr 1
      funext apicId
      split_ifs <;> rfl
    rw [nobody]
    exact .start
  · rintro s event t ⟨started, met⟩ step
    have started' := started.step distinct member step
    refine ⟨started', ?_⟩
    rcases Boot.step_meeting started step with same | step'
    · rw [same]
      exact met
    · exact met.step distinct step' fun apicId inside => started'.meeting_listed member inside

/-- How far the processors have come. -/
structure Together (localApics : List Nat) (m : Meeting) : Prop where
  arrived : ∀ apicId place, m.place apicId = some place → place.together = true →
    ∀ other ∈ localApics, ∃ place', m.place other = some place' ∧ place'.arrived = true
  finished : ∀ apicId place, m.place apicId = some place → place.afterAll = true →
    ∀ other ∈ localApics, ∃ place', m.place other = some place' ∧ place'.finished = true
  one : ∀ apicId other place place', m.place apicId = some place → m.place other = some place' →
    place.winner = true → place'.winner = true → apicId = other
  begun : ∀ apicId initialized, m.place apicId = some (.ends initialized) →
    ∃ other place, m.place other = some place ∧ place.winner = true

/-- Nobody gets past a wait before everybody has come to it, at most one processor begins
    with the hardware, and when a processor has come to its end one has begun. -/
theorem processors_meet (distinct : madt.localApics.Nodup) (member : myApicId ∈ madt.localApics)
    {events : List Event} (run : Run (Boot.Step myApicId madt) (Boot.start madt) events s) :
    Together madt.localApics (s.meeting myApicId) := by
  obtain ⟨-, met⟩ := Boot.met distinct member run
  refine ⟨fun apicId place here past other inside => ?_,
    fun apicId place here past other inside => ?_, met.one, fun apicId initialized here =>
      met.locked.mp (met.ended apicId initialized here)⟩
  · exact Meeting.all_of_many (met.arrived ▸ met.together apicId place here past) inside
  · exact Meeting.all_of_many (met.finished ▸ met.afterAll apicId place here past) inside

/-- Both come to their ends, and the first one begins with the hardware. -/
def both : List Event :=
  late ++ List.replicate 3 (.bsp true) ++ List.replicate 7 (.ap 5) ++
    [.bsp true, .receive 3, .answer 0] ++
    List.replicate 5 (.ap 5) ++ List.replicate 2 (.bsp true) ++ List.replicate 3 (.ap 5) ++
    List.replicate 4 (.bsp true) ++ List.replicate 2 (.ap 5) ++ [.bsp true]

theorem processors_meet_both :
    ∃ s, both.foldlM (Boot.after? 3 secondFirst) (Boot.start secondFirst) = some s ∧
      s.bsp = .runs (.ends true) ∧ Together [5, 3] (s.meeting 3) := by
  have run : Run (Boot.Step 3 secondFirst) (Boot.start secondFirst) both _ := .of_foldlM rfl
  exact ⟨_, rfl, rfl, processors_meet (by decide) (by decide) run⟩

end Views

end Mykonos.Smp.Bringup
