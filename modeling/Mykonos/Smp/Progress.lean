import Mathlib.Algebra.Order.BigOperators.Group.List
import Mykonos.Smp.Chain

/-! # The processors come through

A processor is given up when it missed all startup interrupts that are sent to it, or when
the first processor looked for it too early for the last time. Otherwise the boot can be
brought to its end from wherever it is, as long as no call went to the wrong processor.
-/

namespace Mykonos.Smp.Bringup

open Lib
open Startup (number)

/-- The first processor gave a processor up, or will. -/
def Boot.Lost (s : Boot) : Prop :=
  match s.bsp with
  | .panicked _ _ => True
  | .startCpu _ apicId place =>
      match place with
      | .reads | .sendsInit _ => False
      | .sendsSipi _ | .checks _ | .sendsAgain _ => s.ap apicId = .off
      | .polls _ | .returns _ => s.ap apicId = .off ∨ s.ap apicId = .waitsSipi
  | _ => False

/-- All processors are at the end of `kRun`. -/
def Boot.Complete (myApicId : Nat) (localApics : List Nat) (s : Boot) : Prop :=
  ∀ apicId ∈ localApics, ∃ initialized, (s.meeting myApicId).place apicId = some (.ends initialized)

section Lost

variable {myApicId : Nat} {madt : Madt} {s t : Boot}

/-- A step of another processor leaves those that are not started as they are. -/
theorem Boot.stepAp_frame {apicId : Nat} (taken : s.stepAp myApicId madt apicId = some t) :
    t.bsp = s.bsp ∧ (s.ap apicId ≠ .off ∧ s.ap apicId ≠ .waitsSipi) ∧
      ∃ ap, t.ap = Function.update s.ap apicId ap ∧ ap ≠ .off ∧ ap ≠ .waitsSipi := by
  cases here : s.ap apicId with
  | off | waitsSipi => simp only [Boot.stepAp, here, reduceCtorEq] at taken
  | trampoline | higherHalf =>
      simp only [Boot.stepAp, here, Option.some.injEq] at taken
      subst taken
      exact ⟨rfl, ⟨by simp, by simp⟩, _, rfl, by simp, by simp⟩
  | cpu cpuNumber place =>
      simp only [Boot.stepAp, here] at taken
      have taken := ((Option.ite_none_left_eq_some ..).mp taken).2
      refine ⟨?_, ⟨by simp, by simp⟩, ?_⟩
      · cases place with
        | runs place =>
            simp only [Boot.stepCpu, Option.map_eq_some_iff] at taken
            obtain ⟨next, -, rfl⟩ := taken
            rfl
        | _ =>
            cases taken
            rfl
      · cases place with
        | runs place =>
            simp only [Boot.stepCpu, Option.map_eq_some_iff] at taken
            obtain ⟨next, -, rfl⟩ := taken
            exact ⟨_, rfl, by simp, by simp⟩
        | _ =>
            cases taken
            exact ⟨_, rfl, by simp, by simp⟩

theorem Boot.Lost.frame (h : s.Lost) (bsp : t.bsp = s.bsp)
    (off : ∀ apicId, s.ap apicId = .off → t.ap apicId = .off)
    (waits : ∀ apicId, s.ap apicId = .waitsSipi → t.ap apicId = .waitsSipi) : t.Lost := by
  unfold Boot.Lost at h ⊢
  rw [bsp]
  cases place : s.bsp with
  | startCpu i apicId start =>
      rw [place] at h
      cases start with
      | reads | sendsInit => exact h
      | sendsSipi | checks | sendsAgain => exact off apicId h
      | polls | returns => exact h.imp (off apicId) (waits apicId)
  | panicked => trivial
  | _ =>
      rw [place] at h
      exact h

/-- Nothing brings a processor back that is given up. -/
theorem Boot.Lost.step (h : s.Lost) (started : Started myApicId madt.localApics s) {event : Event}
    (step : s.Step myApicId madt event t) : t.Lost := by
  cases event with
  | ap apicId =>
      obtain ⟨-, step⟩ := (Option.ite_none_left_eq_some ..).mp step
      obtain ⟨bsp, ⟨on, heard⟩, ap, changed, -⟩ := Boot.stepAp_frame step
      have stays : ∀ a, s.ap a = .off ∨ s.ap a = .waitsSipi → t.ap a = s.ap a := by
        intro a idle
        rw [changed, Function.update_of_ne]
        rintro rfl
        exact idle.elim on heard
      exact h.frame bsp (fun a off => (stays a (.inl off)).trans off) fun a waits =>
        (stays a (.inr waits)).trans waits
  | receive apicId =>
      have step : s.receive myApicId apicId = some t := step
      unfold Boot.receive at step
      split at step
      · obtain ⟨-, same⟩ := (Option.ite_none_right_eq_some ..).mp step
        cases same
        exact h.frame rfl (fun _ => id) fun _ => id
      · cases step
  | answer cpuNumber =>
      obtain ⟨-, same⟩ := (Option.ite_none_right_eq_some ..).mp step
      cases same
      exact h.frame rfl (fun _ => id) fun _ => id
  | timeout =>
      have step : s.timeout = some t := step
      unfold Boot.timeout at step
      split at step
      · rename_i here
        cases step
        rw [Boot.Lost, here] at h
        exact h
      · cases step
  | bsp heard =>
      have step := ((Option.ite_none_left_eq_some ..).mp step).2
      have now := started.now
      cases here : s.bsp with
      | panicked i apicId => simp only [Boot.stepBsp, here, reduceCtorEq] at step
      | startCpu i apicId place =>
          rw [Boot.Lost, here] at h
          rw [here] at now
          obtain ⟨-, -, -, start⟩ := now
          simp only [Boot.stepBsp, here, Option.some.injEq] at step
          subst step
          have uncounted : Awaited (s.ap apicId) s.runningCpus (number myApicId madt.localApics i) →
              (s.ap apicId = .off ∨ s.ap apicId = .waitsSipi) →
              s.runningCpus = number myApicId madt.localApics i := by
            rintro (⟨-, count⟩ | ⟨counted, -⟩) idle
            · exact count
            · rcases idle with off | waits
              · rw [off] at counted
                cases counted
              · rw [waits] at counted
                cases counted
          cases place with
          | reads | sendsInit => exact h.elim
          | sendsSipi previous =>
              have off : s.ap apicId = .off := h
              show Function.update s.ap apicId _ apicId = .off
              rw [Function.update_self, off]
              simp [Ap.sipi]
          | sendsAgain previous =>
              have off : s.ap apicId = .off := h
              refine .inl ?_
              show Function.update s.ap apicId _ apicId = .off
              rw [Function.update_self, off]
              simp [Ap.sipi]
          | checks previous =>
              have count := uncounted start.1 (.inl h)
              have not : ¬previous < s.runningCpus := by
                rw [count, start.2]
                exact Nat.lt_irrefl _
              simp only [Boot.stepStart, not, if_false]
              exact h
          | polls previous =>
              have count := uncounted start.1 h
              simp only [Boot.stepStart, count.trans start.2.symm, if_true]
              exact h
          | returns previous =>
              have count := uncounted start.1 h
              have not : ¬previous < s.runningCpus := by
                rw [count, start.2]
                exact Nat.lt_irrefl _
              simp only [Boot.stepStart, not, if_false]
              trivial
      | _ =>
          rw [Boot.Lost, here] at h
          exact h.elim

theorem Boot.Lost.incomplete (h : s.Lost) (member : myApicId ∈ madt.localApics) :
    ¬s.Complete myApicId madt.localApics := by
  intro complete
  obtain ⟨initialized, ends⟩ := complete myApicId member
  simp only [Boot.meeting, if_true] at ends
  cases here : s.bsp with
  | runs place =>
      rw [Boot.Lost, here] at h
      exact h
  | _ =>
      rw [here] at ends
      cases ends

end Lost

def RunPlace.left : RunPlace → Nat
  | .arrives => 8
  | .waitsAll => 7
  | .waitsOther => 6
  | .finishes => 5
  | .waitsDone => 4
  | .races => 3
  | .initializes => 1
  | .ends _ => 0

/-- A call has three steps at its target: it is taken, it is answered, and that is seen. -/
def Place.left (callerCanReturn checked : Bool) : Place → Nat
  | .counted => 22
  | .storesId => 21
  | .enablesIrqs => 20
  | .acquires => 19
  | .storesCallback => 18
  | .clearsAnswer => 17
  | .sends => 16
  | .waitsAnswer => if callerCanReturn then 13 else if checked then 14 else 15
  | .withdraws => 12
  | .releases => 11
  | .waitsTick => 10
  | .runs place => place.left

def StartPlace.left : StartPlace → Nat
  | .reads => 11
  | .sendsInit _ => 10
  | .sendsSipi _ => 9
  | .checks _ => 8
  | .sendsAgain _ => 7
  | .polls _ => 6
  | .returns _ => 5

/-- Some steps are for the places of the MADT that are left. -/
def Bsp.left (count : Nat) : Bsp → Nat
  | .entry i => (count - i) * 20 + 13
  | .initsTask i _ => (count - i) * 20 + 12
  | .startCpu i _ place => (count - i) * 20 + place.left
  | .panicked _ _ => 0
  | .restores => 12
  | .setsTick => 11
  | .enablesIrqs => 10
  | .runs place => place.left

/-- How far a processor is from its end. -/
def Boot.left (myApicId count : Nat) (s : Boot) (apicId : Nat) : Nat :=
  if apicId = myApicId then s.bsp.left count
  else
    match s.ap apicId with
    | .off => 26
    | .waitsSipi => 25
    | .trampoline => 24
    | .higherHalf => 23
    | .cpu cpuNumber place =>
        place.left (s.callerCanReturn (cpuNumber - 1)) (s.checked (cpuNumber - 1))

def Boot.total (myApicId : Nat) (localApics : List Nat) (s : Boot) : Nat :=
  (localApics.map (s.left myApicId localApics.length)).sum

/-- There is a step with which nothing goes wrong and some processor gets closer to its end. -/
def Boot.Advances (myApicId : Nat) (madt : Madt) (s : Boot) : Prop :=
  ∃ event t, s.Step myApicId madt event t ∧ t.astray = false ∧ ¬t.Lost ∧
    t.total myApicId madt.localApics < s.total myApicId madt.localApics

section Progress

variable {myApicId : Nat} {madt : Madt} {s t : Boot}

theorem Boot.advances {event : Event} (step : s.Step myApicId madt event t)
    (aimed : t.astray = false) (kept : ¬t.Lost) {apicId : Nat} (member : apicId ∈ madt.localApics)
    (others : ∀ a, a ≠ apicId → t.left myApicId madt.localApics.length a ≤
      s.left myApicId madt.localApics.length a)
    (less : t.left myApicId madt.localApics.length apicId <
      s.left myApicId madt.localApics.length apicId) :
    s.Advances myApicId madt := by
  refine ⟨event, t, step, aimed, kept, List.sum_lt_sum _ _ (fun a _ => ?_) ⟨apicId, member, less⟩⟩
  by_cases same : a = apicId
  · exact same ▸ less.le
  · exact others a same

/-- The first processor goes on. -/
theorem Boot.advances_bsp (member : myApicId ∈ madt.localApics) (free : s.checked 0 = false)
    (taken : s.stepBsp myApicId madt true = some t) (aimed : t.astray = false) (kept : ¬t.Lost)
    (ap : ∀ a, a ≠ myApicId → t.left myApicId madt.localApics.length a ≤
      s.left myApicId madt.localApics.length a)
    (less : t.bsp.left madt.localApics.length < s.bsp.left madt.localApics.length) :
    s.Advances myApicId madt := by
  have step : s.Step myApicId madt (.bsp true) t := by
    simp only [Boot.Step, Boot.after?, free, Bool.false_eq_true, if_false, taken]
  refine Boot.advances step aimed kept member ap ?_
  simpa only [Boot.left, if_true] using less

/-- The others are as far from their ends as before when their places and answers are the same. -/
theorem Boot.left_same {a : Nat} (other : a ≠ myApicId) {n : Nat} (ap : t.ap a = s.ap a)
    (answer : ∀ k place, s.ap a = .cpu k place → t.callerCanReturn (k - 1) =
      s.callerCanReturn (k - 1) ∧
      t.checked (k - 1) = s.checked (k - 1)) : t.left myApicId n a = s.left myApicId n a := by
  rw [Boot.left, Boot.left, if_neg other, if_neg other, ap]
  cases here : s.ap a with
  | cpu k place =>
      obtain ⟨answered, checked⟩ := answer k place here
      simp only [answered, checked]
  | _ => rfl

theorem Boot.left_le {n : Nat} (ap : t.ap = s.ap) (answer : t.callerCanReturn = s.callerCanReturn)
    (checked : t.checked = s.checked) (a : Nat) (other : a ≠ myApicId) :
    t.left myApicId n a ≤ s.left myApicId n a :=
  (Boot.left_same other (congrFun ap a) fun _ _ _ => ⟨by rw [answer], by rw [checked]⟩).le

/-- The same when one of them was started. -/
theorem Boot.left_le_update {n apicId : Nat} {ap : Ap}
    (changed : t.ap = Function.update s.ap apicId ap)
    (answer : t.callerCanReturn = s.callerCanReturn) (checked : t.checked = s.checked)
    (less : apicId ≠ myApicId → t.left myApicId n apicId ≤ s.left myApicId n apicId) (a : Nat)
    (other : a ≠ myApicId) :
    t.left myApicId n a ≤ s.left myApicId n a := by
  by_cases same : a = apicId
  · subst same
    exact less other
  · refine (Boot.left_same other ?_ fun _ _ _ => ⟨by rw [answer], by rw [checked]⟩).le
    rw [changed, Function.update_of_ne same]

/-- Another processor goes on. -/
theorem Boot.advances_ap {apicId : Nat} (member : apicId ∈ madt.localApics)
    (other : apicId ≠ myApicId) (taken : s.stepAp myApicId madt apicId = some t)
    (aimed : t.astray = false) (kept : ¬s.Lost)
    (others : ∀ a, a ≠ apicId → t.left myApicId madt.localApics.length a ≤
      s.left myApicId madt.localApics.length a)
    (less : t.left myApicId madt.localApics.length apicId <
      s.left myApicId madt.localApics.length apicId) :
    s.Advances myApicId madt := by
  obtain ⟨bsp, -, ap, changed, off, waits⟩ := Boot.stepAp_frame taken
  have step : s.Step myApicId madt (.ap apicId) t := by
    simp only [Boot.Step, Boot.after?, other, if_false, taken]
  refine Boot.advances step aimed
    (fun lost => kept (lost.frame bsp.symm (fun a idle => ?_) fun a idle => ?_)) member
    others less <;>
  · rw [changed] at idle
    by_cases same : a = apicId
    · subst same
      rw [Function.update_self] at idle
      first
        | exact absurd idle off
        | exact absurd idle waits
    · rwa [Function.update_of_ne same] at idle

/-- A processor that was started and is not counted yet. -/
theorem Boot.advances_counting {apicId : Nat} (member : apicId ∈ madt.localApics)
    (other : apicId ≠ myApicId) (aimed : s.astray = false) (kept : ¬s.Lost)
    (here : s.ap apicId = .trampoline ∨ s.ap apicId = .higherHalf) :
    s.Advances myApicId madt := by
  have others : ∀ {u : Boot} {ap : Ap}, u.bsp = s.bsp → u.ap = Function.update s.ap apicId ap →
      u.callerCanReturn = s.callerCanReturn → u.checked = s.checked → ∀ a, a ≠ apicId →
      u.left myApicId madt.localApics.length a ≤ s.left myApicId madt.localApics.length a := by
    intro u ap bsp changed answer checked a this
    by_cases mine : a = myApicId
    · subst mine
      simp only [Boot.left, if_true, bsp, Nat.le_refl]
    · refine (Boot.left_same mine ?_ fun _ _ _ => ⟨by rw [answer], by rw [checked]⟩).le
      rw [changed, Function.update_of_ne this]
  rcases here with here | here
  · refine Boot.advances_ap (t := s.setAp apicId .higherHalf) member other
      (by simp only [Boot.stepAp, here]) aimed kept
      (others rfl rfl rfl rfl) ?_
    simp [Boot.left, other, here, Boot.setAp]
  · refine Boot.advances_ap (t := { s.setAp apicId (.cpu s.runningCpus .counted) with
      runningCpus := (s.runningCpus + 1) % 2 ^ 8 }) member other
        (by simp only [Boot.stepAp, here]) aimed kept
      (others rfl rfl rfl rfl) ?_
    simp [Boot.left, other, here, Boot.setAp, Place.left]

/-- Where the first processor is in `startCpu`. -/
theorem Boot.advances_startCpu (started : Started myApicId madt.localApics s)
    (member : myApicId ∈ madt.localApics) (aimed : s.astray = false) (kept : ¬s.Lost)
    (free : s.checked 0 = false) {i apicId : Nat} {place : StartPlace}
    (here : s.bsp = .startCpu i apicId place) : s.Advances myApicId madt := by
  have now := started.now
  have lost := kept
  rw [here] at now
  rw [Boot.Lost, here] at lost
  obtain ⟨found, other, -, start⟩ := now
  have inside : apicId ∈ madt.localApics := List.mem_of_getElem? found
  have short := (List.getElem?_eq_some_iff.mp found).1
  have taken : s.stepBsp myApicId madt true = some (s.stepStart true i apicId place) := by
    simp only [Boot.stepBsp, here]
  -- the first processor does not look at the others
  have alone : ∀ bsp : Bsp, s.stepStart true i apicId place = { s with bsp := bsp } →
    ¬({ s with bsp := bsp } : Boot).Lost →
      bsp.left madt.localApics.length < (Bsp.startCpu i apicId place).left madt.localApics.length →
      s.Advances myApicId madt := by
    intro bsp same kept' less
    rw [same] at taken
    exact Boot.advances_bsp member free taken aimed kept' (Boot.left_le rfl rfl rfl) (here ▸ less)
  -- it starts the one that it waits for
  have hears : ∀ {bsp : Bsp} {ap : Ap},
      s.stepStart true i apicId place = { s.setAp apicId ap with bsp := bsp } →
      ¬({ s.setAp apicId ap with bsp := bsp } : Boot).Lost →
      bsp.left madt.localApics.length < (Bsp.startCpu i apicId place).left madt.localApics.length →
      ({ s.setAp apicId ap with bsp := bsp } : Boot).left myApicId madt.localApics.length apicId ≤
        s.left myApicId madt.localApics.length apicId → s.Advances myApicId madt := by
    intro bsp ap same kept' less closer
    rw [same] at taken
    exact Boot.advances_bsp member free taken aimed kept' (Boot.left_le_update rfl rfl rfl fun _ =>
      closer) (here ▸ less)
  by_cases counting : s.ap apicId = .trampoline ∨ s.ap apicId = .higherHalf
  · exact Boot.advances_counting inside other aimed kept counting
  have count : s.ap apicId ≠ .off → s.ap apicId ≠ .waitsSipi →
      Awaited (s.ap apicId) s.runningCpus (number myApicId madt.localApics i) →
      number myApicId madt.localApics i < s.runningCpus := by
    rintro on heard (⟨none, -⟩ | ⟨-, same⟩)
    · cases ap : s.ap apicId with
      | off => exact absurd ap on
      | waitsSipi => exact absurd ap heard
      | trampoline => exact absurd (.inl ap) counting
      | higherHalf => exact absurd (.inr ap) counting
      | cpu =>
          rw [ap] at none
          cases none
    · exact same ▸ Nat.lt_succ_self _
  cases place with
  | reads =>
      refine alone _ rfl id ?_
      simp only [Bsp.left, StartPlace.left]
      omega
  | sendsInit previous =>
      refine hears rfl (fun lost' => ?_) ?_ ?_
      · simp [Boot.Lost, Boot.setAp, Ap.init] at lost'
      · simp only [Bsp.left, StartPlace.left]
        omega
      · simp [Boot.left, other, start.1, Boot.setAp, Ap.init]
  | sendsSipi previous =>
      have waits : s.ap apicId = .waitsSipi := start.1.resolve_left lost
      refine hears rfl (fun lost' => ?_) ?_ ?_
      · simp [Boot.Lost, Boot.setAp, waits, Ap.sipi] at lost'
      · simp only [Bsp.left, StartPlace.left]
        omega
      · simp [Boot.left, other, waits, Boot.setAp, Ap.sipi]
  | checks previous =>
      by_cases more : previous < s.runningCpus
      · refine alone (.entry (i + 1)) (by simp only [Boot.stepStart, more, if_true]) id ?_
        simp only [Bsp.left, StartPlace.left]
        omega
      · refine alone (.startCpu i apicId (.sendsAgain previous))
          (by simp only [Boot.stepStart, more, if_false]) lost ?_
        simp only [Bsp.left, StartPlace.left]
        omega
  | sendsAgain previous =>
      by_cases waits : s.ap apicId = .waitsSipi
      · refine hears rfl (fun lost' => ?_) ?_ ?_
        · simp [Boot.Lost, Boot.setAp, waits, Ap.sipi] at lost'
        · simp only [Bsp.left, StartPlace.left]
          omega
        · simp [Boot.left, other, waits, Boot.setAp, Ap.sipi]
      · refine hears rfl (fun lost' => ?_) ?_ ?_
        · simp only [Boot.Lost, Boot.setAp, Ap.sipi, waits, and_false, if_false,
            Function.update_self, or_false] at lost'
          exact lost lost'
        · simp only [Bsp.left, StartPlace.left]
          omega
        · simp [Boot.left, other, waits, Boot.setAp, Ap.sipi]
  | polls previous =>
      have more := count (fun off => lost (.inl off)) (fun waits => lost (.inr waits)) start.1
      have different : s.runningCpus ≠ previous := start.2 ▸ Nat.ne_of_gt more
      refine alone (.startCpu i apicId (.returns previous))
        (by simp only [Boot.stepStart, different, if_false]) lost ?_
      simp only [Bsp.left, StartPlace.left]
      omega
  | returns previous =>
      have more := count (fun off => lost (.inl off)) (fun waits => lost (.inr waits)) start.1
      rw [← start.2] at more
      refine alone (.entry (i + 1)) (by simp only [Boot.stepStart, more, if_true]) id ?_
      simp only [Bsp.left, StartPlace.left]
      omega

/-- In the loop that starts the others, and up to `kRun`. -/
theorem Boot.advances_starting (started : Started myApicId madt.localApics s)
    (member : myApicId ∈ madt.localApics) (aimed : s.astray = false) (kept : ¬s.Lost)
    (free : s.checked 0 = false) (out : s.bsp.runPlace? = none) :
    s.Advances myApicId madt := by
  have alone : ∀ {t : Boot}, s.stepBsp myApicId madt true = some t → t.ap = s.ap →
      t.callerCanReturn = s.callerCanReturn → t.checked = s.checked →
      t.astray = s.astray → ¬t.Lost → t.bsp.left madt.localApics.length <
        s.bsp.left madt.localApics.length → s.Advances myApicId madt := by
    intro t taken ap answer checked astray kept' less
    exact Boot.advances_bsp member free taken (astray.trans aimed) kept'
      (Boot.left_le ap answer checked) less
  cases here : s.bsp with
  | runs place =>
      rw [here] at out
      cases out
  | panicked i apicId => exact absurd (by rw [Boot.Lost, here]; trivial) kept
  | startCpu i apicId place => exact Boot.advances_startCpu started member aimed kept free here
  | entry i =>
      cases found : madt.localApics[i]? with
      | none =>
          refine alone (t := { s with bsp := .restores }) (by simp only [Boot.stepBsp, here, found])
            rfl rfl rfl rfl id ?_
          rw [here]
          simp only [Bsp.left]
          omega
      | some apicId =>
          have short := (List.getElem?_eq_some_iff.mp found).1
          by_cases other : apicId ≠ myApicId
          · refine alone (t := { s with bsp := .initsTask i apicId }) ?_ rfl rfl rfl rfl id ?_
            · simp only [Boot.stepBsp, here, found, if_pos other]
            · rw [here]
              simp only [Bsp.left]
              omega
          · refine alone (t := { s with
                bsp := .entry (i + 1), localApicIds := Function.update s.localApicIds 0 apicId })
              ?_ rfl rfl rfl rfl id ?_
            · simp only [Boot.stepBsp, here, found, if_neg other]
            · rw [here]
              simp only [Bsp.left]
              omega
  | initsTask i apicId =>
      refine alone (t := { s with
        bsp := .startCpu i apicId .reads
        initialized := s.initialized ++ [s.runningCpus] })
        (by simp only [Boot.stepBsp, here]) rfl rfl rfl rfl id ?_
      rw [here]
      simp only [Bsp.left, StartPlace.left]
      omega
  | restores =>
      refine alone (t := { s with bsp := .setsTick, trampoline := false })
        (by simp only [Boot.stepBsp, here]) rfl rfl rfl
        rfl id ?_
      rw [here]
      exact Nat.lt_succ_self 11
  | setsTick =>
      refine alone (t := { s with bsp := .enablesIrqs, localApicTickSetting := true })
        (by simp only [Boot.stepBsp, here]) rfl rfl rfl rfl id ?_
      rw [here]
      exact Nat.lt_succ_self 10
  | enablesIrqs =>
      refine alone (t := { s with bsp := .runs .arrives }) (by simp only [Boot.stepBsp, here]) rfl
        rfl rfl rfl id ?_
      rw [here]
      exact (by decide : 8 < 10)

/-- Every processor that is counted has the one before it for its target. -/
theorem Started.target (started : Started myApicId madt.localApics s) {apicId k : Nat}
    (counted : (s.ap apicId).number? = some (k + 1)) :
    ∃ target, s.number? myApicId target = some k := by
  obtain ⟨-, -, -, -, less⟩ := started.place counted
  rcases Nat.eq_zero_or_pos k with rfl | positive
  · exact ⟨myApicId, if_pos rfl⟩
  · obtain ⟨a, counted'⟩ := started.numbered.gapless k positive (Nat.lt_of_succ_lt less)
    obtain ⟨-, -, other, -⟩ := started.place counted'
    exact ⟨a, (if_neg other).trans counted'⟩

theorem Started.unique (started : Started myApicId madt.localApics s) {a b k : Nat}
    (left : (s.ap a).number? = some k) (right : (s.ap b).number? = some k) : a = b := by
  obtain ⟨-, -, other, -⟩ := started.place left
  obtain ⟨-, -, other', -⟩ := started.place right
  exact started.numbered.unique a b k ((if_neg other).trans left) ((if_neg other').trans right)

theorem Started.positive (started : Started myApicId madt.localApics s) {a k : Nat}
    (counted : (s.ap a).number? = some k) : 1 ≤ k := by
  obtain ⟨j, -, -, rfl, -⟩ := started.place counted
  unfold number
  omega

/-- What only has to do with the calls of one processor brings no other further away. -/
theorem Started.left_others (started : Started myApicId madt.localApics s) {apicId k n : Nat}
    (counted : (s.ap apicId).number? = some (k + 1)) (bsp : t.bsp = s.bsp)
    (ap : ∀ a, a ≠ apicId → t.ap a = s.ap a)
    (answer : ∀ j, j ≠ k → t.callerCanReturn j = s.callerCanReturn j)
    (checked : ∀ j, j ≠ k → t.checked j = s.checked j) (a : Nat) (other : a ≠ apicId) :
    t.left myApicId n a ≤ s.left myApicId n a := by
  by_cases mine : a = myApicId
  · subst mine
    simp only [Boot.left, if_true, bsp, Nat.le_refl]
  · refine (Boot.left_same mine (ap a other) fun j place here => ?_).le
    have counted' : (s.ap a).number? = some j := by
      rw [here]
      rfl
    have positive := started.positive counted'
    have different : j - 1 ≠ k := by
      intro same
      refine other (started.unique (k := k + 1) ?_ counted)
      rw [counted', ← same, Nat.sub_add_cancel positive]
    exact ⟨answer _ different, checked _ different⟩

/-- A call that was found is answered. -/
theorem Boot.advances_answer (started : Started myApicId madt.localApics s)
    (called : Called myApicId madt.localApics s) (aimed : s.astray = false) (kept : ¬s.Lost)
    {k : Nat} (checked : s.checked k = true) : s.Advances myApicId madt := by
  have target : ∃ target, s.number? myApicId target = some k := by
    by_contra absent
    exact absurd (checked.symm.trans (called.unseen k (not_exists.mp absent)).2)
      Bool.true_eq_false.mp
  obtain ⟨target, has⟩ := target
  have caller : ∃ apicId, (s.ap apicId).number? = some (k + 1) := by
    by_contra nobody
    have idle := called.idle target k has (not_exists.mp nobody)
    exact absurd (checked.symm.trans idle.2.1) Bool.true_eq_false.mp
  obtain ⟨apicId, counted⟩ := caller
  obtain ⟨j, found, other, -⟩ := started.place counted
  cases here : s.ap apicId with
  | cpu cpuNumber place =>
      obtain rfl : cpuNumber = k + 1 := by
        rw [here] at counted
        exact Option.some.inj counted
      have line := called.line target apicId k place has here
      obtain ⟨rfl, unanswered⟩ := line.found checked
      have step : s.Step myApicId madt (.answer k) { s with
          checked := Function.update s.checked k false
          callerCanReturn :=
            if s.callback k then Function.update s.callerCanReturn k true else s.callerCanReturn
          crashed := s.crashed || !s.callback k } := by
        simp only [Boot.Step, Boot.after?, Boot.answer, checked, if_true]
      have offered : s.callback k = true := line.offers
      refine Boot.advances step aimed kept (List.mem_of_getElem? found)
        (started.left_others counted rfl (fun _ _ => rfl) (fun j other => ?_) fun j other =>
          Function.update_of_ne other _ _) ?_
      · dsimp only
        rw [if_pos offered, Function.update_of_ne other]
      · simp [Boot.left, other, here, Place.left, offered, unanswered, checked]
  | _ =>
      rw [here] at counted
      cases counted

/-- A processor that has its number goes on. -/
theorem Boot.advances_cpu (started : Started myApicId madt.localApics s) (kept : ¬s.Lost)
    {apicId k : Nat} {place place' : Place} (here : s.ap apicId = .cpu (k + 1) place)
    (free : s.checked (k + 1) = false)
    (taken : s.stepCpu myApicId madt apicId (k + 1) place = some t) (aimed : t.astray = false)
    (bsp : t.bsp = s.bsp) (changed : t.ap = Function.update s.ap apicId (.cpu (k + 1) place'))
    (answer : ∀ j, j ≠ k → t.callerCanReturn j = s.callerCanReturn j)
    (checked : t.checked = s.checked)
    (less : place'.left (t.callerCanReturn k) (s.checked k) <
      place.left (s.callerCanReturn k) (s.checked k)) :
    s.Advances myApicId madt := by
  have counted : (s.ap apicId).number? = some (k + 1) := by
    rw [here]
    rfl
  obtain ⟨j, found, other, -⟩ := started.place counted
  have taken' : s.stepAp myApicId madt apicId = some t := by
    simp only [Boot.stepAp, here, free, Bool.false_eq_true, if_false, taken]
  refine Boot.advances_ap (List.mem_of_getElem? found) other taken' aimed kept
    (started.left_others counted bsp
    (fun a this => ?_) answer fun _ _ => by rw [checked]) ?_
  · rw [changed, Function.update_of_ne this]
  · simpa only [Boot.left, other, if_false, changed, Function.update_self, here, Nat.add_sub_cancel,
      checked] using less

/-- On the way to a call, or after it. -/
def Place.free : Place → Bool
  | .counted | .storesId | .enablesIrqs | .acquires | .storesCallback | .clearsAnswer | .withdraws
  | .releases => true
  | _ => false

theorem Boot.advances_free (started : Started myApicId madt.localApics s) (aimed : s.astray = false)
    (kept : ¬s.Lost) {apicId k : Nat} {place : Place} (here : s.ap apicId = .cpu (k + 1) place)
    (free : s.checked (k + 1) = false) (goes : place.free = true) : s.Advances myApicId madt := by
  cases place with
  | counted | storesId | enablesIrqs | acquires | storesCallback | withdraws | releases =>
      exact Boot.advances_cpu started kept here free rfl aimed rfl rfl (fun _ _ => rfl) rfl
        (by simp [Place.left])
  | clearsAnswer =>
      exact Boot.advances_cpu started kept here free rfl aimed rfl rfl
        (fun j other => Function.update_of_ne other _ _) rfl
        (by simp [Place.left])
  | sends | waitsAnswer | waitsTick | runs => cases goes

/-- Once all have written their APICs a call goes where it should. -/
theorem Boot.advances_sends (started : Started myApicId madt.localApics s)
    (called : Called myApicId madt.localApics s) (aimed : s.astray = false) (kept : ¬s.Lost)
    {apicId k : Nat} (here : s.ap apicId = .cpu (k + 1) .sends) (free : s.checked (k + 1) = false)
    (first : s.localApicIds 0 = myApicId)
    (stored : ∀ a j place, s.ap a = .cpu j place → place.stored = true) :
    s.Advances myApicId madt := by
  have known : s.number? myApicId (s.localApicIds k) = some k := by
    obtain ⟨target, has⟩ :=
      started.target (show (s.ap apicId).number? = some (k + 1) by rw [here]; rfl)
    by_cases mine : target = myApicId
    · have zero : k = 0 := by
        rw [Boot.number?, if_pos mine] at has
        exact (Option.some.inj has).symm
      rw [zero, first]
      exact if_pos rfl
    · have counted : (s.ap target).number? = some k := by
        rwa [Boot.number?, if_neg mine] at has
      cases there : s.ap target with
      | cpu j place =>
          obtain rfl : j = k := by
            rw [there] at counted
            exact Option.some.inj counted
          rwa [called.ids target j place there (stored target j place there)]
      | _ =>
          rw [there] at counted
          cases counted
  refine Boot.advances_cpu started kept here free rfl ?_ rfl rfl (fun _ _ => rfl) rfl ?_
  · simp only [Nat.add_sub_cancel, aimed, known, bne_self_eq_false, Bool.or_false]
  · dsimp only [Place.left]
    split_ifs <;> decide

/-- A call that was sent is seen to be answered, or it is found. -/
theorem Boot.advances_waits (started : Started myApicId madt.localApics s)
    (called : Called myApicId madt.localApics s) (aimed : s.astray = false) (kept : ¬s.Lost)
    {apicId k : Nat} (here : s.ap apicId = .cpu (k + 1) .waitsAnswer)
    (free : ∀ j, s.checked j = false) (running : s.bsp.runPlace? ≠ none)
    (on : ∀ a place, s.ap a = .cpu k place → place.irqs = true) : s.Advances myApicId madt := by
  have counted : (s.ap apicId).number? = some (k + 1) := by
    rw [here]
    rfl
  by_cases answered : s.callerCanReturn k = true
  · refine Boot.advances_cpu (t := s.setAp apicId (.cpu (k + 1) .withdraws)) started kept here
      (free _) ?_ aimed rfl rfl
      (fun _ _ => rfl) rfl ?_
    · simp only [Boot.stepCpu, Nat.add_sub_cancel, answered, if_true]
    · simp [Place.left, answered]
  · obtain ⟨target, has⟩ := started.target counted
    have line := called.line target apicId k _ has here
    have pending : s.interrupt target = true := by
      rcases line.waits rfl with yes | seen | pending
      · exact absurd yes answered
      · exact absurd (seen.symm.trans (free k)) Bool.true_eq_false.mp
      · exact pending
    have accepted : s.accepts myApicId target = true := by
      by_cases mine : target = myApicId
      · cases bsp : s.bsp with
        | runs place => simp [Boot.accepts, mine, bsp, free]
        | _ =>
            rw [bsp] at running
            exact absurd rfl running
      · have counted' : (s.ap target).number? = some k := by
          rwa [Boot.number?, if_neg mine] at has
        cases there : s.ap target with
        | cpu j place =>
            obtain rfl : j = k := by
              rw [there] at counted'
              exact Option.some.inj counted'
            simp [Boot.accepts, mine, there, on target place there, free]
        | _ =>
            rw [there] at counted'
            cases counted'
    have step : s.Step myApicId madt (.receive target) { s with
        interrupt := Function.update s.interrupt target false
        checked := Function.update s.checked k (s.callback k) } := by
      simp only [Boot.Step, Boot.after?, Boot.receive, has, pending, accepted, and_self, if_true]
    have offered : s.callback k = true := line.offers
    obtain ⟨j, found, other, -⟩ := started.place counted
    refine Boot.advances step aimed kept (List.mem_of_getElem? found)
      (started.left_others counted rfl (fun _ _ => rfl) (fun _ _ => rfl) fun j other =>
        Function.update_of_ne other _ _) ?_
    simp [Boot.left, other, here, Place.left, offered, answered, free]

/-- The first processor is past the place where it has the others go on. -/
def Bsp.ticks : Bsp → Bool
  | .enablesIrqs | .runs _ => true
  | _ => false

theorem Boot.ticks_step {event : Event} (step : s.Step myApicId madt event t)
    (ticks : s.bsp.ticks = true → s.localApicTickSetting = true) (past : t.bsp.ticks = true) :
    t.localApicTickSetting = true := by
  cases event with
  | bsp heard =>
      have step := ((Option.ite_none_left_eq_some ..).mp step).2
      cases here : s.bsp with
      | startCpu i apicId place =>
          simp only [Boot.stepBsp, here, Option.some.injEq] at step
          subst step
          cases place with
          | checks | returns =>
              dsimp only [Boot.stepStart] at past
              split_ifs at past <;> cases past
          | _ => cases past
      | entry i =>
          simp only [Boot.stepBsp, here] at step
          split at step
          · cases step
            cases past
          · split_ifs at step <;>
            · cases step
              cases past
      | panicked i apicId => simp only [Boot.stepBsp, here, reduceCtorEq] at step
      | setsTick =>
          simp only [Boot.stepBsp, here, Option.some.injEq] at step
          subst step
          rfl
      | enablesIrqs =>
          simp only [Boot.stepBsp, here, Option.some.injEq] at step
          subst step
          exact ticks (by rw [here]; rfl)
      | runs place =>
          simp only [Boot.stepBsp, here, Option.map_eq_some_iff] at step
          obtain ⟨next, -, rfl⟩ := step
          exact ticks (by rw [here]; rfl)
      | initsTask | restores =>
          simp only [Boot.stepBsp, here, Option.some.injEq] at step
          subst step
          cases past
  | timeout =>
      have step : s.timeout = some t := step
      unfold Boot.timeout at step
      split at step
      · cases step
        cases past
      · cases step
  | ap apicId =>
      obtain ⟨-, step⟩ := (Option.ite_none_left_eq_some ..).mp step
      have same : t.bsp = s.bsp := (Boot.stepAp_frame step).1
      rw [same] at past
      cases here : s.ap apicId with
      | off | waitsSipi => simp only [Boot.stepAp, here, reduceCtorEq] at step
      | trampoline | higherHalf =>
          simp only [Boot.stepAp, here, Option.some.injEq] at step
          subst step
          exact ticks past
      | cpu cpuNumber place =>
          simp only [Boot.stepAp, here] at step
          have step := ((Option.ite_none_left_eq_some ..).mp step).2
          cases place with
          | runs place =>
              simp only [Boot.stepCpu, Option.map_eq_some_iff] at step
              obtain ⟨next, -, rfl⟩ := step
              exact ticks past
          | _ =>
              cases step
              exact ticks past
  | receive apicId =>
      have step : s.receive myApicId apicId = some t := step
      unfold Boot.receive at step
      split at step
      · obtain ⟨-, same⟩ := (Option.ite_none_right_eq_some ..).mp step
        cases same
        exact ticks past
      · cases step
  | answer cpuNumber =>
      obtain ⟨-, same⟩ := (Option.ite_none_right_eq_some ..).mp step
      cases same
      exact ticks past

theorem Boot.ticks {events : List Event}
    (run : Run (Boot.Step myApicId madt) (Boot.start madt) events s) (past : s.bsp.ticks = true) :
    s.localApicTickSetting = true := by
  refine run.invariant (P := fun s => s.bsp.ticks = true →
    s.localApicTickSetting = true) (fun past => ?_) (fun _ _ _ ticks step =>
      Boot.ticks_step step ticks) past
  unfold Boot.start at past
  split_ifs at past <;> cases past

/-- Unless it waits for the others, a processor in `kRun` gets closer to its end. -/
theorem RunPlace.closer {numCpus : Nat} {c : Counters} {place : RunPlace}
    (arrived : place = .waitsAll → numCpus ≤ c.numCpusWithInitialTasks)
    (finished : place = .waitsDone → numCpus ≤ c.numCpusDone)
    (on : ∀ initialized, place ≠ .ends initialized) :
    ∃ next, place.step numCpus c = some next ∧ next.1.left < place.left := by
  cases place with
  | waitsAll => exact ⟨_, rfl, by simp [Nat.not_lt.mpr (arrived rfl), RunPlace.left]⟩
  | waitsDone => exact ⟨_, rfl, by simp [Nat.not_lt.mpr (finished rfl), RunPlace.left]⟩
  | races =>
      cases locked : c.hardwareInitLock <;> simp [RunPlace.step, locked, RunPlace.left]
  | ends initialized => exact absurd rfl (on initialized)
  | arrives | waitsOther | finishes | initializes => exact ⟨_, rfl, by simp [RunPlace.left]⟩

/-- As long as not all are at their ends some processor does not wait for the others. -/
theorem Met.ready {localApics : List Nat} {m : Meeting} (h : Met localApics m)
    (all : ∀ apicId ∈ localApics, ∃ place, m.place apicId = some place) {last : Nat}
    (member : last ∈ localApics) (on : ∀ initialized, m.place last ≠ some (.ends initialized)) :
    ∃ apicId ∈ localApics, ∃ place next, m.place apicId = some place ∧
      place.step localApics.length m.counters = some next ∧ next.1.left < place.left := by
  have ready : ∀ {apicId place}, apicId ∈ localApics → m.place apicId = some place →
      (place = .waitsAll → localApics.length ≤ m.counters.numCpusWithInitialTasks) →
      (place = .waitsDone → localApics.length ≤ m.counters.numCpusDone) →
      (∀ initialized, place ≠ .ends initialized) →
      ∃ apicId ∈ localApics, ∃ place next, m.place apicId = some place ∧
        place.step localApics.length m.counters = some next ∧ next.1.left < place.left := by
    intro apicId place inside here arrived finished on
    obtain ⟨next, taken, less⟩ := RunPlace.closer arrived finished on
    exact ⟨apicId, inside, place, next, here, taken, less⟩
  by_cases arrived : ∀ apicId ∈ localApics, (m.place apicId).any RunPlace.arrived = true
  · have enough : localApics.length ≤ m.counters.numCpusWithInitialTasks :=
      h.arrived ▸ (List.countP_eq_length.mpr arrived).ge
    by_cases finished : ∀ apicId ∈ localApics, (m.place apicId).any RunPlace.finished = true
    · have done : localApics.length ≤ m.counters.numCpusDone :=
        h.finished ▸ (List.countP_eq_length.mpr finished).ge
      obtain ⟨place, here⟩ := all last member
      refine ready member here (fun _ => enough) (fun _ => done) ?_
      rintro initialized rfl
      exact on initialized here
    · push Not at finished
      obtain ⟨apicId, inside, not⟩ := finished
      obtain ⟨place, here⟩ := all apicId inside
      rw [here] at not
      refine ready inside here (fun _ => enough) ?_ ?_
      · rintro rfl
        exact absurd rfl not
      · rintro initialized rfl
        exact absurd rfl not
  · push Not at arrived
    obtain ⟨apicId, inside, not⟩ := arrived
    obtain ⟨place, here⟩ := all apicId inside
    rw [here] at not
    cases place with
    | arrives => exact ready inside here nofun nofun nofun
    | _ => exact absurd rfl not

/-- All processors are in `kRun`. -/
theorem Boot.advances_meeting (started : Started myApicId madt.localApics s)
    (met : Met madt.localApics (s.meeting myApicId)) (aimed : s.astray = false) (kept : ¬s.Lost)
    (free : ∀ j, s.checked j = false)
    (all : ∀ apicId ∈ madt.localApics, ∃ place, (s.meeting myApicId).place apicId = some place)
    (incomplete : ¬s.Complete myApicId madt.localApics) : s.Advances myApicId madt := by
  unfold Boot.Complete at incomplete
  push Not at incomplete
  obtain ⟨last, member, on⟩ := incomplete
  obtain ⟨apicId, inside, place, next, here, taken, less⟩ := met.ready all member on
  by_cases mine : apicId = myApicId
  · subst mine
    cases bsp : s.bsp with
    | runs place' =>
        obtain rfl : place' = place := by
          simpa [Boot.meeting, bsp, Bsp.runPlace?] using here
        refine Boot.advances_bsp (t := { s with bsp := .runs next.1, counters := next.2 }) inside
          (free 0) ?_ aimed id
          (Boot.left_le rfl rfl rfl) (by simpa only [bsp, Bsp.left] using less)
        have taken' : place'.step madt.localApics.length s.counters = some next := taken
        simp only [Boot.stepBsp, bsp, taken', Option.map_some]
    | _ => simp [Boot.meeting, bsp, Bsp.runPlace?] at here
  · cases ap : s.ap apicId with
    | cpu j place' =>
        have running : (s.ap apicId).runPlace? = some place := by
          simpa only [Boot.meeting, if_neg mine] using here
        obtain rfl : place' = .runs place := by
          rw [ap] at running
          cases place' with
          | runs => exact congrArg Place.runs (Option.some.inj running)
          | _ => cases running
        obtain ⟨k, rfl⟩ : ∃ k, j = k + 1 :=
          Nat.exists_eq_succ_of_ne_zero
            (Nat.ne_of_gt (started.positive (a := apicId) (by rw [ap]; rfl)))
        refine Boot.advances_cpu (t :=
          { s.setAp apicId (.cpu (k + 1) (.runs next.1)) with counters := next.2 }) started
          kept ap (free _) ?_ aimed rfl rfl (fun _ _ => rfl) rfl less
        have taken' : place.step madt.localApics.length s.counters = some next := taken
        simp only [Boot.stepCpu, taken', Option.map_some]
    | _ => simp [Boot.meeting, mine, ap, Ap.runPlace?] at here

/-- Every processor is given up, at its end, or some processor can go on. -/
theorem Boot.advances_reached (distinct : madt.localApics.Nodup)
    (member : myApicId ∈ madt.localApics) {events : List Event}
    (run : Run (Boot.Step myApicId madt) (Boot.start madt) events s) (aimed : s.astray = false)
    (kept : ¬s.Lost) (incomplete : ¬s.Complete myApicId madt.localApics) :
    s.Advances myApicId madt := by
  obtain ⟨started, met⟩ := Boot.met distinct member run
  have called := Boot.called distinct member run aimed
  by_cases found : ∃ k, s.checked k = true
  · obtain ⟨k, checked⟩ := found
    exact Boot.advances_answer started called aimed kept checked
  have free : ∀ k, s.checked k = false := fun k => Bool.eq_false_iff.mpr fun set => found ⟨k, set⟩
  by_cases running : s.bsp.runPlace? = none
  · exact Boot.advances_starting started member aimed kept (free 0) running
  obtain ⟨first, bsp⟩ : ∃ place, s.bsp = .runs place := by
    cases bsp : s.bsp with
    | runs place => exact ⟨place, rfl⟩
    | _ =>
        rw [bsp] at running
        exact absurd rfl running
  have ticks : s.localApicTickSetting = true := Boot.ticks run (by rw [bsp]; rfl)
  have counted := started.numbered.all (by rw [bsp]; rfl)
  -- the processors come to `kRun` one after the other
  have goes : ∀ {apicId k place}, s.ap apicId = .cpu (k + 1) place → place.free = true →
      s.Advances myApicId madt :=
    fun here goes => Boot.advances_free started aimed kept here (free _) goes
  have number : ∀ {apicId j place}, s.ap apicId = .cpu j place →
      ∃ k, j = k + 1 := fun {apicId j place} here =>
    Nat.exists_eq_succ_of_ne_zero
      (Nat.ne_of_gt (started.positive (a := apicId) (by rw [here]; rfl)))
  by_cases early : ∃ apicId j place, s.ap apicId = .cpu j place ∧ place.free = true
  · obtain ⟨apicId, j, place, here, early⟩ := early
    obtain ⟨k, rfl⟩ := number here
    exact goes here early
  have past : ∀ a j place, s.ap a = .cpu j place → place.free = false := fun a j place here =>
    Bool.eq_false_iff.mpr fun yes => early ⟨a, j, place, here, yes⟩
  by_cases calls : ∃ apicId j, s.ap apicId = .cpu j .sends
  · obtain ⟨apicId, j, here⟩ := calls
    obtain ⟨k, rfl⟩ := number here
    have own : s.localApicIds 0 = myApicId := by
      obtain ⟨i, found'⟩ := List.getElem?_of_mem member
      obtain ⟨i', found'', other, -⟩ :=
        started.place (show (s.ap apicId).number? = some (k + 1) by rw [here]; rfl)
      have index : s.bsp.index madt.localApics.length = madt.localApics.length := by rw [bsp]; rfl
      have short := (List.getElem?_eq_some_iff.mp found').1
      have short' := (List.getElem?_eq_some_iff.mp found'').1
      have different : i ≠ i' := by
        rintro rfl
        exact other (Option.some.inj (found''.symm.trans found'))
      exact called.own i found' (by rw [index]; exact short) (by omega)
    refine Boot.advances_sends started called aimed kept here (free _) own fun a j place there => ?_
    have not := past a j place there
    cases place <;> first | rfl | cases not
  by_cases waits : ∃ k apicId, s.ap apicId = .cpu (k + 1) .waitsAnswer
  · -- interrupts are off where a processor waits, but not at the target of the lowest that does
    obtain ⟨k, ⟨apicId, here⟩, lowest⟩ : ∃ k, (∃ apicId, s.ap apicId = .cpu (k + 1) .waitsAnswer) ∧
        ∀ j < k, ¬∃ apicId, s.ap apicId = .cpu (j + 1) .waitsAnswer := by
      classical
      exact ⟨Nat.find waits, Nat.find_spec waits, fun _ less => Nat.find_min waits less⟩
    refine Boot.advances_waits started called aimed kept here free running fun a place there => ?_
    have not := past a k place there
    cases place with
    | sends => exact absurd ⟨a, k, there⟩ calls
    | waitsAnswer =>
        obtain ⟨j, rfl⟩ := number there
        exact absurd ⟨a, there⟩ (lowest j (Nat.lt_succ_self j))
    | waitsTick | runs => rfl
    | _ => cases not
  by_cases tick : ∃ apicId j, s.ap apicId = .cpu j .waitsTick
  · obtain ⟨apicId, j, here⟩ := tick
    obtain ⟨k, rfl⟩ := number here
    refine Boot.advances_cpu (t := s.setAp apicId (.cpu (k + 1) (.runs .arrives))) started kept here
      (free _) ?_ aimed rfl
      rfl (fun _ _ => rfl) rfl ?_
    · simp only [Boot.stepCpu, ticks, if_true]
    · simp [Place.left, RunPlace.left]
  refine Boot.advances_meeting started met aimed kept free (fun apicId inside => ?_) incomplete
  by_cases mine : apicId = myApicId
  · exact ⟨first, by simp [Boot.meeting, mine, bsp, Bsp.runPlace?]⟩
  · have has := counted apicId inside mine
    cases here : s.ap apicId with
    | cpu j place =>
        have not := past apicId j place here
        cases place with
        | runs place => exact ⟨place, by simp [Boot.meeting, mine, here, Ap.runPlace?]⟩
        | sends => exact absurd ⟨apicId, j, here⟩ calls
        | waitsAnswer =>
            obtain ⟨k, rfl⟩ := number here
            exact absurd ⟨k, apicId, here⟩ waits
        | waitsTick => exact absurd ⟨apicId, j, here⟩ tick
        | _ => cases not
    | _ =>
        rw [here] at has
        exact absurd rfl has

theorem Boot.completes (distinct : madt.localApics.Nodup) (member : myApicId ∈ madt.localApics)
    {events : List Event} (run : Run (Boot.Step myApicId madt) (Boot.start madt) events s)
    (aimed : s.astray = false) (kept : ¬s.Lost) :
    ∃ later t, Run (Boot.Step myApicId madt) s later t ∧ t.Complete myApicId madt.localApics ∧
    t.astray = false := by
  induction total :
      s.total myApicId madt.localApics using Nat.strong_induction_on generalizing s events with
  | _ total ih =>
    by_cases complete : s.Complete myApicId madt.localApics
    · exact ⟨[], s, .start s, complete, aimed⟩
    · obtain ⟨event, t, step, aimed', kept', less⟩ :=
        Boot.advances_reached distinct member run aimed kept complete
      obtain ⟨later, u, run', complete', aimed''⟩ :=
        ih _ (total ▸ less) (run.next step) aimed' kept' rfl
      exact ⟨event :: later, u, (Run.single step).trans run', complete', aimed''⟩

/-- The boot can be brought to its end from wherever no processor was given up, and from
    nowhere else, as long as no call went to the wrong processor. -/
theorem boot_completes_iff (distinct : madt.localApics.Nodup) (member : myApicId ∈ madt.localApics)
    {events : List Event} (run : Run (Boot.Step myApicId madt) (Boot.start madt) events s)
    (aimed : s.astray = false) :
    (∃ later t, Run (Boot.Step myApicId madt) s later t ∧ t.Complete myApicId madt.localApics ∧
      t.astray = false ∧
      t.crashed = false) ↔ ¬s.Lost := by
  refine ⟨?_, fun kept => ?_⟩
  · rintro ⟨later, t, run', complete, -⟩ lost
    have started : Started myApicId madt.localApics s := (Boot.met distinct member run).1
    have lost' : Started myApicId madt.localApics t ∧ t.Lost :=
      run'.invariant (P := fun s => Started myApicId madt.localApics s ∧ s.Lost) ⟨started, lost⟩
        fun _ _ _ h step => ⟨h.1.step distinct member step, h.2.step h.1 step⟩
    exact lost'.2.incomplete member complete
  · obtain ⟨later, t, run', complete, aimed'⟩ := Boot.completes distinct member run aimed kept
    exact ⟨later, t, run', complete, aimed',
      (Boot.called distinct member (run.trans run') aimed').crashed⟩

theorem boot_completes_iff_late :
    ∃ s, late.foldlM (Boot.after? 3 secondFirst) (Boot.start secondFirst) = some s ∧
      ((∃ later t, Run (Boot.Step 3 secondFirst) s later t ∧ t.Complete 3 [5, 3] ∧
        t.astray = false ∧
        t.crashed = false) ↔ ¬s.Lost) := by
  have run : Run (Boot.Step 3 secondFirst) (Boot.start secondFirst) late _ := .of_foldlM rfl
  exact ⟨_, rfl, boot_completes_iff (by decide) (by decide) run rfl⟩

end Progress

end Mykonos.Smp.Bringup
