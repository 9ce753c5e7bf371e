import Mykonos.Smp.Rendezvous

/-! # Each processor calls the one before it

A processor that comes up calls the one numbered before it, and goes on when it is answered.
It reads the APIC of its target from an array, into which the target may not have written
yet. As long as no call went to the wrong processor, each is on its way, found or answered.
-/

namespace Mykonos.Smp.Bringup

open Lib
open Startup (number)

/-- The processor has written its APIC. -/
def Place.stored : Place → Bool
  | .counted | .storesId => false
  | _ => true

/-- The callback of the processor is in the mailbox. -/
def Place.offered : Place → Bool
  | .clearsAnswer | .sends | .waitsAnswer | .withdraws => true
  | _ => false

/-- A call, by where its caller is and what is known of it at the target. -/
structure Line (place : Place) (callback callerCanReturn checked interrupt : Bool) : Prop where
  offers : callback = place.offered
  sent : interrupt = true → place = .waitsAnswer ∧ callerCanReturn = false ∧ checked = false
  found : checked = true → place = .waitsAnswer ∧ callerCanReturn = false
  waits : place = .waitsAnswer → callerCanReturn = true ∨ checked = true ∨ interrupt = true
  cleared : place = .sends → callerCanReturn = false

/-- All calls, when none went astray. -/
structure Called (myApicId : Nat) (localApics : List Nat) (s : Boot) : Prop where
  own : ∀ j, localApics[j]? = some myApicId → j < s.bsp.index localApics.length →
    1 < localApics.length → s.localApicIds 0 = myApicId
  ids : ∀ apicId k place, s.ap apicId = .cpu k place → place.stored = true →
    s.localApicIds k = apicId
  line : ∀ target apicId k place, s.number? myApicId target = some k →
    s.ap apicId = .cpu (k + 1) place →
    Line place (s.callback k) (s.callerCanReturn k) (s.checked k) (s.interrupt target)
  idle : ∀ target k, s.number? myApicId target = some k →
    (∀ apicId, (s.ap apicId).number? ≠ some (k + 1)) → s.callback k = false ∧ s.checked k = false ∧
    s.interrupt target = false
  off : ∀ target, s.number? myApicId target = none → s.interrupt target = false
  unseen : ∀ k, (∀ target, s.number? myApicId target ≠ some k) →
    s.callback k = false ∧ s.checked k = false
  crashed : s.crashed = false

section Calls

variable {myApicId : Nat} {madt : Madt} {s t : Boot}

theorem Called.start : Called myApicId madt.localApics (Boot.start madt) := by
  refine ⟨fun j here less more => ?_, nofun, nofun, fun _ _ _ _ => ⟨rfl, rfl, rfl⟩, fun _ _ => rfl,
    fun _ _ => ⟨rfl, rfl⟩, rfl⟩
  rw [show (Boot.start madt).bsp = .entry 0 from if_pos more] at less
  exact absurd less (Nat.not_lt_zero j)

/-- Two places that are the same to a call. -/
def Alike (place place' : Place) : Prop :=
  place.offered = place'.offered ∧ (place = .waitsAnswer ↔ place' = .waitsAnswer) ∧
    (place = .sends ↔ place' = .sends)

theorem Line.alike {place place' : Place} {callback answer checked interrupt : Bool}
    (h : Line place callback answer checked interrupt) (alike : Alike place' place) :
    Line place' callback answer checked interrupt :=
  ⟨h.offers.trans alike.1.symm, fun set => ⟨alike.2.1.mpr (h.sent set).1, (h.sent set).2⟩,
    fun set => ⟨alike.2.1.mpr (h.found set).1, (h.found set).2⟩,
    fun waits => h.waits (alike.2.1.mp waits), fun sends => h.cleared (alike.2.2.mp sends)⟩

/-- What is the same after a step that only has to do with the calls to one target. -/
structure Only (myApicId : Nat) (k : Nat) (s t : Boot) : Prop where
  number : ∀ apicId, t.number? myApicId apicId = s.number? myApicId apicId
  place : ∀ apicId j place, t.ap apicId = .cpu (j + 1) place → j ≠ k →
    ∃ place', s.ap apicId = .cpu (j + 1) place' ∧ Alike place place'
  callback : ∀ j, j ≠ k → t.callback j = s.callback j
  callerCanReturn : ∀ j, j ≠ k → t.callerCanReturn j = s.callerCanReturn j
  checked : ∀ j, j ≠ k → t.checked j = s.checked j
  interrupt : ∀ apicId, s.number? myApicId apicId ≠ some k → t.interrupt apicId = s.interrupt apicId

/-- Then only those calls have to be looked at. -/
theorem Called.only (h : Called myApicId madt.localApics s) {k : Nat} (only : Only myApicId k s t)
    (numbers : ∀ apicId, (t.ap apicId).number? = (s.ap apicId).number?)
    (line : ∀ target apicId place, s.number? myApicId target = some k → t.ap apicId =
      .cpu (k + 1) place → Line place (t.callback k) (t.callerCanReturn k) (t.checked k)
        (t.interrupt target))
    (idle : ∀ target, s.number? myApicId target = some k →
      (∀ apicId, (s.ap apicId).number? ≠ some (k + 1)) →
      t.callback k = false ∧ t.checked k = false ∧ t.interrupt target = false)
    (unseen : (∀ target, s.number? myApicId target ≠ some k) → t.callback k =
      false ∧ t.checked k = false)
    (crashed : t.crashed = false)
    (own : ∀ j, madt.localApics[j]? = some myApicId → j < t.bsp.index madt.localApics.length →
      1 < madt.localApics.length → t.localApicIds 0 = myApicId)
    (ids : ∀ apicId k place, t.ap apicId = .cpu k place → place.stored = true →
      t.localApicIds k = apicId) :
    Called myApicId madt.localApics t := by
  refine ⟨own, ids, fun target apicId j place has here => ?_, fun target j has nobody => ?_,
    fun target none => ?_, fun j absent => ?_, crashed⟩
  · rw [only.number] at has
    by_cases same : j = k
    · subst same
      exact line target apicId place has here
    · obtain ⟨place', before, alike⟩ := only.place apicId j place here same
      rw [only.callback j same, only.callerCanReturn j same, only.checked j same,
        only.interrupt target]
      · exact (h.line target apicId j place' has before).alike alike
      · rw [has]
        exact fun equal => same (Option.some.inj equal)
  · rw [only.number] at has
    simp only [numbers] at nobody
    by_cases same : j = k
    · subst same
      exact idle target has nobody
    · rw [only.callback j same, only.checked j same, only.interrupt target]
      · exact h.idle target j has nobody
      · rw [has]
        exact fun equal => same (Option.some.inj equal)
  · rw [only.number] at none
    rw [only.interrupt target]
    · exact h.off target none
    · rw [none]
      nofun
  · simp only [only.number] at absent
    by_cases same : j = k
    · subst same
      exact unseen absent
    · rw [only.callback j same, only.checked j same]
      exact h.unseen j absent

/-- A step that no call has to do with. -/
theorem Called.frame (h : Called myApicId madt.localApics s)
    (number : ∀ apicId, t.number? myApicId apicId = s.number? myApicId apicId)
    (numbers : ∀ apicId, (t.ap apicId).number? = (s.ap apicId).number?)
    (place : ∀ apicId k place, t.ap apicId = .cpu k place → ∃ place', s.ap apicId = .cpu k place' ∧
      Alike place place')
    (callback : t.callback = s.callback) (answer : t.callerCanReturn = s.callerCanReturn)
    (checked : t.checked = s.checked) (interrupt : t.interrupt = s.interrupt)
    (crashed : t.crashed = s.crashed)
    (own : ∀ j, madt.localApics[j]? = some myApicId → j < t.bsp.index madt.localApics.length →
      1 < madt.localApics.length → t.localApicIds 0 = myApicId)
    (ids : ∀ apicId k place, t.ap apicId = .cpu k place → place.stored = true →
      t.localApicIds k = apicId) :
    Called myApicId madt.localApics t := by
  refine h.only (k := 0) ⟨number, fun apicId j place' here _ => place apicId (j + 1) place' here,
    fun _ _ => by rw [callback], fun _ _ => by rw [answer], fun _ _ => by rw [checked],
    fun _ _ => by rw [interrupt]⟩
    numbers
    (fun target apicId place' has here => ?_) (fun target has nobody => ?_) (fun absent => ?_)
    (crashed.trans h.crashed)
    own ids
  · obtain ⟨before, there, alike⟩ := place apicId _ place' here
    rw [callback, answer, checked, interrupt]
    exact (h.line target apicId 0 before has there).alike alike
  · rw [callback, checked, interrupt]
    exact h.idle target 0 has nobody
  · rw [callback, checked]
    exact h.unseen 0 absent

theorem number?_same (numbers : ∀ apicId, (t.ap apicId).number? = (s.ap apicId).number?)
    (apicId : Nat) :
    t.number? myApicId apicId = s.number? myApicId apicId := by
  unfold Boot.number?
  rw [numbers]

theorem numbers_update {apicId : Nat} {ap : Ap} (changed : t.ap = Function.update s.ap apicId ap)
    (same : ap.number? = (s.ap apicId).number?) (a : Nat) :
    (t.ap a).number? = (s.ap a).number? := by
  rw [changed]
  by_cases this : a = apicId
  · subst this
    rw [Function.update_self, same]
  · rw [Function.update_of_ne this]

/-- The first processor goes on, and may send something to a processor without a number. -/
theorem Called.bsp_frame (h : Called myApicId madt.localApics s) (apicId : Nat) {ap : Ap}
    (changed : t.ap = Function.update s.ap apicId ap) (uncounted : ap = s.ap apicId ∨
      ap.number? = none ∧ (s.ap apicId).number? = none)
    (callback : t.callback = s.callback) (answer : t.callerCanReturn = s.callerCanReturn)
    (checked : t.checked = s.checked) (interrupt : t.interrupt = s.interrupt)
    (crashed : t.crashed = s.crashed)
    (own : ∀ j, madt.localApics[j]? = some myApicId → j < t.bsp.index madt.localApics.length →
      1 < madt.localApics.length → t.localApicIds 0 = myApicId)
    (ids : ∀ k, 1 ≤ k → t.localApicIds k = s.localApicIds k)
    (positive : ∀ apicId k, (s.ap apicId).number? = some k → 1 ≤ k) :
    Called myApicId madt.localApics t := by
  have numbers : ∀ a, (t.ap a).number? = (s.ap a).number? := by
    refine numbers_update changed ?_
    rcases uncounted with same | ⟨new, old⟩
    · rw [same]
    · rw [new, old]
  have place : ∀ a k p, t.ap a = .cpu k p → s.ap a = .cpu k p := by
    intro a k p here
    rw [changed] at here
    by_cases this : a = apicId
    · subst this
      rw [Function.update_self] at here
      rcases uncounted with same | ⟨new, -⟩
      · exact same.symm.trans here
      · rw [here] at new
        cases new
    · rwa [Function.update_of_ne this] at here
  refine h.frame (number?_same numbers) numbers (fun a k p here => ⟨p, place a k p here, rfl,
    Iff.rfl, Iff.rfl⟩)
    callback answer checked interrupt crashed own fun a k p here stored => ?_
  have there := place a k p here
  rw [ids k (positive a k (by rw [there]; rfl))]
  exact h.ids a k p there stored

theorem Called.bsp (h : Called myApicId madt.localApics s)
    (started : Started myApicId madt.localApics s) {heard : Bool}
    (taken : s.stepBsp myApicId madt heard = some t) : Called myApicId madt.localApics t := by
  have positive : ∀ apicId k, (s.ap apicId).number? = some k → 1 ≤ k := by
    intro apicId k counted
    obtain ⟨j, -, -, rfl, -⟩ := started.place counted
    unfold number
    omega
  have now := started.now
  have same : ∀ {a : Nat}, s.ap = Function.update s.ap a (s.ap a) :=
    fun {a} => (Function.update_eq_self a s.ap).symm
  have stays : ∀ {n : Nat}, s.bsp.index madt.localApics.length = n →
    ∀ j, madt.localApics[j]? = some myApicId → j < n →
      1 < madt.localApics.length → s.localApicIds 0 = myApicId := by
    rintro n rfl
    exact h.own
  cases here : s.bsp with
  | entry i =>
      simp only [Boot.stepBsp, here] at taken
      cases found : madt.localApics[i]? with
      | none =>
          simp only [found, Option.some.injEq] at taken
          subst taken
          have passed := List.getElem?_eq_none_iff.mp found
          exact h.bsp_frame 0 same (.inl rfl) rfl rfl rfl rfl rfl (fun j at' less more =>
            stays (n := i) (by rw [here]; rfl) j at' (Nat.lt_of_lt_of_le less passed) more)
              (fun _ _ => rfl) positive
      | some apicId =>
          simp only [found] at taken
          split_ifs at taken with other
          · cases taken
            exact h.bsp_frame 0 same (.inl rfl) rfl rfl rfl rfl rfl
              (stays (n := i) (by rw [here]; rfl)) (fun _ _ => rfl) positive
          · cases taken
            refine h.bsp_frame 0 same (.inl rfl) rfl rfl rfl rfl rfl (fun _ _ _ _ => ?_)
              (fun k one => ?_)
              positive
            · have mine : apicId = myApicId := by_contra other
              subst mine
              exact Function.update_self 0 _ s.localApicIds
            · exact Function.update_of_ne (Nat.ne_of_gt one) _ _
  | startCpu i apicId place =>
      rw [here] at now
      obtain ⟨found, other, -, start⟩ := now
      have own : ∀ {bsp : Bsp}, bsp.index madt.localApics.length = i ∨ bsp = .entry (i + 1) → ∀ j,
          madt.localApics[j]? = some myApicId → j < bsp.index madt.localApics.length →
          1 < madt.localApics.length → s.localApicIds 0 = myApicId := by
        rintro bsp (index | rfl) j at' less more
        · rw [index] at less
          exact stays (n := i) (by rw [here]; rfl) j at' less more
        · refine stays (n := i) (by rw [here]; rfl) j at'
            (Nat.lt_of_le_of_ne (Nat.le_of_lt_succ less) ?_) more
          rintro rfl
          exact other (Option.some.inj (found.symm.trans at'))
      simp only [Boot.stepBsp, here, Option.some.injEq] at taken
      subst taken
      cases place with
      | reads =>
          exact h.bsp_frame 0 same (.inl rfl) rfl rfl rfl rfl rfl (own (.inl rfl))
            (fun _ _ => rfl) positive
      | sendsInit previous =>
          refine h.bsp_frame _ rfl (.inr ⟨?_, ?_⟩) rfl rfl rfl rfl rfl (own (.inl rfl))
            (fun _ _ => rfl) positive
          · rw [start.1]
            cases heard <;> rfl
          · rw [start.1]
            rfl
      | sendsSipi previous | sendsAgain previous =>
          refine h.bsp_frame _ rfl ?_ rfl rfl rfl rfl rfl (own (.inl rfl)) (fun _ _ => rfl) positive
          unfold Ap.sipi
          split_ifs with waits
          · exact .inr ⟨rfl, by rw [waits.2]; rfl⟩
          · exact .inl rfl
      | checks previous | returns previous =>
          refine h.bsp_frame 0 same (.inl rfl) rfl rfl rfl rfl rfl (own ?_)
            (fun _ _ => rfl) positive
          dsimp only [Boot.stepStart]
          split_ifs
          · exact .inr rfl
          · exact .inl rfl
      | polls previous =>
          exact h.bsp_frame 0 same (.inl rfl) rfl rfl rfl rfl rfl (own (.inl rfl))
            (fun _ _ => rfl) positive
  | panicked i apicId => simp only [Boot.stepBsp, here, reduceCtorEq] at taken
  | initsTask i apicId =>
      simp only [Boot.stepBsp, here, Option.some.injEq] at taken
      subst taken
      exact h.bsp_frame 0 same (.inl rfl) rfl rfl rfl rfl rfl (stays (n := i) (by rw [here]; rfl))
        (fun _ _ => rfl) positive
  | restores | setsTick | enablesIrqs =>
      simp only [Boot.stepBsp, here, Option.some.injEq] at taken
      subst taken
      exact h.bsp_frame 0 same (.inl rfl) rfl rfl rfl rfl rfl (stays (by rw [here]; rfl))
        (fun _ _ => rfl)
        positive
  | runs place =>
      simp only [Boot.stepBsp, here, Option.map_eq_some_iff] at taken
      obtain ⟨next, -, rfl⟩ := taken
      exact h.bsp_frame 0 same (.inl rfl) rfl rfl rfl rfl rfl (stays (by rw [here]; rfl))
        (fun _ _ => rfl)
        positive

/-- A processor counts itself. -/
theorem Called.counts (h : Called myApicId madt.localApics s)
    (started : Started myApicId madt.localApics s) {apicId : Nat} (other : apicId ≠ myApicId)
    (before : (s.ap apicId).number? = none)
    (changed : t.ap = Function.update s.ap apicId (.cpu s.runningCpus .counted))
    (bsp : t.bsp = s.bsp) (localApicIds : t.localApicIds = s.localApicIds)
    (callback : t.callback = s.callback) (answer : t.callerCanReturn = s.callerCanReturn)
    (checked : t.checked = s.checked) (interrupt : t.interrupt = s.interrupt)
    (crashed : t.crashed = s.crashed) : Called myApicId madt.localApics t := by
  have new : (t.ap apicId).number? = some s.runningCpus := by
    rw [changed, Function.update_self]
    rfl
  have old : ∀ {a}, a ≠ apicId → t.ap a = s.ap a :=
    fun this => by rw [changed, Function.update_of_ne this]
  have old? : ∀ {a}, a ≠ apicId → t.number? myApicId a = s.number? myApicId a := by
    intro a this
    unfold Boot.number?
    rw [old this]
  have new? : t.number? myApicId apicId = some s.runningCpus := by
    rw [Boot.number?, if_neg other, new]
  have fresh : ∀ a k, s.runningCpus ≤ k → s.number? myApicId a ≠ some k := by
    intro a k large has
    unfold Boot.number? at has
    split_ifs at has
    · cases has
      obtain ⟨m, -, few⟩ := started.tasks
      have level := started.level rfl
      unfold Boot.Level number at level
      rcases level with ⟨count, -⟩ | ⟨-, -, -, -, -, count⟩ <;> omega
    · obtain ⟨-, -, -, -, less⟩ := started.place has
      exact absurd less (Nat.not_lt.mpr large)
  have fresh' : ∀ a k, s.runningCpus ≤ k → (s.ap a).number? ≠ some k := by
    intro a k large has
    obtain ⟨-, -, -, -, less⟩ := started.place has
    exact absurd less (Nat.not_lt.mpr large)
  have outside : s.number? myApicId apicId = none := by
    rw [Boot.number?, if_neg other, before]
  refine ⟨?_, fun a k p here stored => ?_, fun target a k p has here => ?_,
    fun target k has nobody => ?_, fun target none => ?_, fun k absent => ?_,
    crashed.trans h.crashed⟩
  · rw [bsp, localApicIds]
    exact h.own
  · by_cases this : a = apicId
    · subst this
      rw [changed, Function.update_self] at here
      cases here
      cases stored
    · rw [localApicIds]
      exact h.ids a k p (old this ▸ here) stored
  · rw [callback, answer, checked, interrupt]
    by_cases this : a = apicId
    · subst this
      rw [changed, Function.update_self] at here
      obtain ⟨count, rfl⟩ := Ap.cpu.inj here
      have elsewhere : target ≠ a := by
        rintro rfl
        rw [new?] at has
        cases has
        omega
      obtain ⟨noCallback, notChecked, noInterrupt⟩ := h.idle target k (old? elsewhere ▸ has)
        fun b => fresh' b (k + 1) (Nat.le_of_eq count)
      rw [noCallback, notChecked, noInterrupt]
      exact ⟨rfl, by simp, by simp, by simp, by simp⟩
    · have there : s.ap a = .cpu (k + 1) p := old this ▸ here
      have elsewhere : target ≠ apicId := by
        rintro rfl
        rw [new?] at has
        cases has
        exact fresh' a _ (Nat.le_succ _) (by rw [there]; rfl)
      exact h.line target a k p (old? elsewhere ▸ has) there
  · rw [callback, checked, interrupt]
    by_cases this : target = apicId
    · subst this
      rw [new?] at has
      cases has
      obtain ⟨noCallback, notChecked⟩ := h.unseen s.runningCpus fun a => fresh a _ (Nat.le_refl _)
      exact ⟨noCallback, notChecked, h.off target outside⟩
    · refine h.idle target k (old? this ▸ has) fun a counted => ?_
      by_cases that : a = apicId
      · subst that
        rw [before] at counted
        cases counted
      · exact nobody a (old that ▸ counted)
  · have this : target ≠ apicId := by
      rintro rfl
      rw [new?] at none
      cases none
    rw [interrupt]
    exact h.off target (old? this ▸ none)
  · rw [callback, checked]
    refine h.unseen k fun a has => ?_
    have this : a ≠ apicId := by
      rintro rfl
      rw [outside] at has
      cases has
    exact absent a (old? this ▸ has)

/-- A processor that has its number goes on. -/
theorem Called.cpu (h : Called myApicId madt.localApics s)
    (started : Started myApicId madt.localApics s) {apicId k : Nat} {place place' : Place}
    (here : s.ap apicId = .cpu (k + 1) place)
    (changed : t.ap = Function.update s.ap apicId (.cpu (k + 1) place')) (bsp : t.bsp = s.bsp)
    (ids : ∀ j, j ≠ k + 1 → t.localApicIds j = s.localApicIds j)
    (mine : place'.stored = true → t.localApicIds (k + 1) = apicId)
    (callback : ∀ j, j ≠ k → t.callback j = s.callback j)
    (answer : ∀ j, j ≠ k → t.callerCanReturn j = s.callerCanReturn j)
    (checked : t.checked = s.checked)
    (interrupt : ∀ a, s.number? myApicId a ≠ some k → t.interrupt a = s.interrupt a)
    (crashed : t.crashed = s.crashed) (line : ∀ target, s.number? myApicId target = some k →
      Line place (s.callback k) (s.callerCanReturn k) (s.checked k) (s.interrupt target) →
      Line place' (t.callback k) (t.callerCanReturn k) (s.checked k) (t.interrupt target)) :
    Called myApicId madt.localApics t := by
  have numbered := started.numbered
  have counted : (s.ap apicId).number? = some (k + 1) := by
    rw [here]
    rfl
  have unique : ∀ b, (s.ap b).number? = some (k + 1) → b = apicId := by
    intro b counted'
    obtain ⟨-, -, other, -⟩ := started.place counted
    obtain ⟨-, -, other', -⟩ := started.place counted'
    exact numbered.unique b apicId (k + 1) ((if_neg other').trans counted')
      ((if_neg other).trans counted)
  have target : ∃ target, s.number? myApicId target = some k := by
    obtain ⟨-, -, -, -, less⟩ := started.place counted
    rcases Nat.eq_zero_or_pos k with rfl | positive
    · exact ⟨myApicId, if_pos rfl⟩
    · obtain ⟨a, counted⟩ := numbered.gapless k positive (Nat.lt_of_succ_lt less)
      obtain ⟨-, -, other, -⟩ := started.place counted
      exact ⟨a, (if_neg other).trans counted⟩
  have old : ∀ a j p, t.ap a = .cpu j p → a ≠ apicId → s.ap a = .cpu j p := by
    intro a j p there this
    rwa [changed, Function.update_of_ne this] at there
  have numbers := numbers_update changed (counted.symm ▸ rfl)
  refine h.only (k := k) ⟨number?_same numbers, fun a j p there that => ?_, callback, answer,
    fun _ _ => by rw [checked], interrupt⟩ numbers (fun a b p has there => ?_)
    (fun a has nobody => absurd counted (nobody apicId))
    (fun absent => ?_) (crashed.trans h.crashed) ?_ fun a j p there set => ?_
  · refine ⟨p, old a _ p there ?_, rfl, Iff.rfl, Iff.rfl⟩
    rintro rfl
    rw [changed, Function.update_self] at there
    exact that (Nat.succ.inj (Ap.cpu.inj there).1).symm
  · by_cases this : b = apicId
    · subst this
      rw [changed, Function.update_self] at there
      cases there
      rw [checked]
      exact line a has (h.line a b k place has here)
    · exact absurd (unique b (by rw [old b _ p there this]; rfl)) this
  · obtain ⟨a, has⟩ := target
    exact absurd has (absent a)
  · rw [bsp, ids 0 (Nat.succ_ne_zero k).symm]
    exact h.own
  · by_cases this : a = apicId
    · subst this
      rw [changed, Function.update_self] at there
      cases there
      exact mine set
    · have there' := old a j p there this
      rw [ids j]
      · exact h.ids a j p there' set
      · rintro rfl
        exact this (unique a (by rw [there']; rfl))

theorem Called.stepCpu (h : Called myApicId madt.localApics s)
    (started : Started myApicId madt.localApics s) {apicId k : Nat} {place : Place}
    (here : s.ap apicId = .cpu (k + 1) place)
    (taken : s.stepCpu myApicId madt apicId (k + 1) place = some t) (aimed : t.astray = false) :
    Called myApicId madt.localApics t := by
  cases place with
  | counted =>
      cases taken
      exact h.cpu started here rfl rfl (fun _ _ => rfl) nofun (fun _ _ => rfl) (fun _ _ => rfl) rfl
        (fun _ _ => rfl) rfl
        fun _ _ line => line.alike ⟨rfl, by simp, by simp⟩
  | storesId =>
      cases taken
      exact h.cpu started here rfl rfl (fun j other => Function.update_of_ne other _ _)
        (fun _ => Function.update_self (k + 1) _ s.localApicIds) (fun _ _ => rfl)
        (fun _ _ => rfl) rfl
        (fun _ _ => rfl) rfl
        fun _ _ line => line.alike ⟨rfl, by simp, by simp⟩
  | enablesIrqs | acquires | releases =>
      cases taken
      exact h.cpu started here rfl rfl (fun _ _ => rfl) (fun _ => h.ids apicId _ _ here rfl)
        (fun _ _ => rfl) (fun _ _ => rfl) rfl (fun _ _ => rfl) rfl fun _ _ line =>
          line.alike ⟨rfl, by simp, by simp⟩
  | storesCallback =>
      cases taken
      refine h.cpu started here rfl rfl (fun _ _ => rfl) (fun _ => h.ids apicId _ _ here rfl)
        (fun j other => Function.update_of_ne other _ _) (fun _ _ => rfl) rfl (fun _ _ => rfl) rfl
        fun target _ line => ⟨Function.update_self k _ s.callback, fun set => ?_,
          fun set => ?_, nofun, nofun⟩
      · cases (line.sent set).1
      · cases (line.found set).1
  | clearsAnswer =>
      cases taken
      refine h.cpu started here rfl rfl (fun _ _ => rfl) (fun _ => h.ids apicId _ _ here rfl)
        (fun _ _ => rfl) (fun j other => Function.update_of_ne other _ _) rfl (fun _ _ => rfl) rfl
        fun target _ line => ⟨line.offers, fun set => ?_, fun set => ?_, nofun,
          fun _ => Function.update_self k _ s.callerCanReturn⟩
      · cases (line.sent set).1
      · cases (line.found set).1
  | sends =>
      cases taken
      obtain ⟨-, known⟩ := Bool.or_eq_false_iff.mp aimed
      have known : s.number? myApicId (s.localApicIds k) = some k := by
        simpa using known
      refine h.cpu started here rfl rfl (fun _ _ => rfl) (fun _ => h.ids apicId _ _ here rfl)
        (fun _ _ => rfl) (fun _ _ => rfl) rfl (fun a other => Function.update_of_ne ?_ _ _) rfl
        fun target has line =>
          ⟨line.offers, fun _ => ⟨rfl, line.cleared rfl, ?_⟩, fun set => ?_,
            fun _ => .inr (.inr ?_), nofun⟩
      · rintro rfl
        exact other known
      · by_contra set
        cases (line.found (Bool.not_eq_false _ ▸ set)).1
      · cases (line.found set).1
      · obtain rfl := started.numbered.unique target _ k has known
        exact Function.update_self _ _ _
  | waitsAnswer =>
      cases taken
      refine h.cpu started here rfl rfl (fun _ _ => rfl) (fun _ => h.ids apicId _ _ here rfl)
        (fun _ _ => rfl) (fun _ _ => rfl) rfl (fun _ _ => rfl) rfl fun target has line => ?_
      dsimp only [Boot.setAp, Nat.add_sub_cancel]
      split_ifs with answered
      · refine ⟨line.offers, fun set => ?_, fun set => ?_, nofun, nofun⟩
        · exact absurd ((line.sent set).2.1.symm.trans answered) Bool.false_ne_true
        · exact absurd ((line.found set).2.symm.trans answered) Bool.false_ne_true
      · exact line
  | withdraws =>
      cases taken
      refine h.cpu started here rfl rfl (fun _ _ => rfl) (fun _ => h.ids apicId _ _ here rfl)
        (fun j other => Function.update_of_ne other _ _) (fun _ _ => rfl) rfl (fun _ _ => rfl) rfl
        fun target _ line => ⟨Function.update_self k _ s.callback, fun set => ?_,
          fun set => ?_, nofun, nofun⟩
      · cases (line.sent set).1
      · cases (line.found set).1
  | waitsTick =>
      cases taken
      refine h.cpu started here rfl rfl (fun _ _ => rfl) (fun _ => h.ids apicId _ _ here rfl)
        (fun _ _ => rfl) (fun _ _ => rfl) rfl (fun _ _ => rfl) rfl fun _ _ line => line.alike ?_
      split_ifs <;> exact ⟨rfl, by simp, by simp⟩
  | runs place =>
      simp only [Boot.stepCpu, Option.map_eq_some_iff] at taken
      obtain ⟨next, -, rfl⟩ := taken
      exact h.cpu started here rfl rfl (fun _ _ => rfl) (fun _ => h.ids apicId _ _ here rfl)
        (fun _ _ => rfl) (fun _ _ => rfl) rfl (fun _ _ => rfl) rfl fun _ _ line =>
          line.alike ⟨rfl, by simp, by simp⟩

theorem Called.receive (h : Called myApicId madt.localApics s)
    (started : Started myApicId madt.localApics s) {apicId : Nat}
    (taken : s.receive myApicId apicId = some t) : Called myApicId madt.localApics t := by
  cases has : s.number? myApicId apicId with
  | none => simp only [Boot.receive, has, reduceCtorEq] at taken
  | some k =>
      simp only [Boot.receive, has] at taken
      obtain ⟨⟨pending, -⟩, same⟩ := (Option.ite_none_right_eq_some ..).mp taken
      cases same
      refine h.only (k := k) ⟨fun _ => rfl, fun a j p here _ => ⟨p, here, rfl, Iff.rfl, Iff.rfl⟩,
        fun _ _ => rfl, fun _ _ => rfl,
        fun j other => Function.update_of_ne other _ _, fun a other => Function.update_of_ne ?_ _ _⟩
          (fun _ => rfl)
        (fun target a p has' here => ?_) (fun target has' nobody => ?_)
        (fun absent => absurd has (absent apicId)) h.crashed
        h.own h.ids
      · rintro rfl
        exact other has
      · obtain rfl := started.numbered.unique target apicId k has' has
        have line := h.line target a k p has here
        obtain ⟨waits, unanswered, -⟩ := line.sent pending
        dsimp only
        rw [Function.update_self, Function.update_self]
        refine ⟨line.offers, nofun, fun _ => ⟨waits, unanswered⟩,
          fun _ => .inr (.inl ?_), line.cleared⟩
        rw [line.offers, waits]
        rfl
      · obtain ⟨-, -, none⟩ := h.idle apicId k has nobody
        exact absurd (pending.symm.trans none) Bool.true_eq_false.mp

theorem Called.answer (h : Called myApicId madt.localApics s) {k : Nat}
    (taken : s.answer k = some t) :
    Called myApicId madt.localApics t := by
  obtain ⟨checked, same⟩ := (Option.ite_none_right_eq_some ..).mp taken
  cases same
  have target : ∃ target, s.number? myApicId target = some k := by
    by_contra absent
    exact absurd (checked.symm.trans (h.unseen k (not_exists.mp absent)).2) Bool.true_eq_false.mp
  obtain ⟨target, has⟩ := target
  have caller : ∃ apicId place, s.ap apicId = .cpu (k + 1) place := by
    by_contra nobody
    have idle := h.idle target k has fun apicId counted => by
      cases here : s.ap apicId with
      | cpu cpuNumber place =>
          rw [here] at counted
          cases counted
          exact nobody ⟨apicId, place, here⟩
      | _ =>
          rw [here] at counted
          cases counted
    exact absurd (checked.symm.trans idle.2.1) Bool.true_eq_false.mp
  obtain ⟨apicId, place, here⟩ := caller
  have line := h.line target apicId k place has here
  obtain ⟨waits, -⟩ := line.found checked
  have offered : s.callback k = true := by
    rw [line.offers, waits]
    rfl
  refine h.only (k := k) ⟨fun _ => rfl, fun a j p here _ => ⟨p, here, rfl, Iff.rfl, Iff.rfl⟩,
    fun _ _ => rfl, fun j other => ?_, fun j other => Function.update_of_ne other _ _,
    fun _ _ => rfl⟩ (fun _ => rfl) (fun target' a p has' here' =>
      ?_) (fun target' has' nobody => ?_)
    (fun absent => absurd has (absent target)) ?_ h.own
    h.ids
  · dsimp only
    rw [if_pos offered, Function.update_of_ne other]
  · have line' := h.line target' a k p has' here'
    obtain ⟨waits', -⟩ := line'.found checked
    dsimp only
    rw [if_pos offered, Function.update_self, Function.update_self]
    refine ⟨line'.offers, fun pending => ?_, nofun, fun _ => .inl rfl, fun sends => ?_⟩
    · exact absurd ((line'.sent pending).2.2.symm.trans checked) Bool.false_ne_true
    · cases waits'.symm.trans sends
  · exact absurd (by rw [here]; rfl) (nobody apicId)
  · dsimp only
    rw [h.crashed, offered]
    rfl

/-- A call that went astray stays so. -/
theorem Boot.astray_step {event : Event} (step : s.Step myApicId madt event t)
    (aimed : t.astray = false) :
    s.astray = false := by
  cases event with
  | bsp heard =>
      have step := ((Option.ite_none_left_eq_some ..).mp step).2
      cases here : s.bsp with
      | startCpu i apicId place =>
          simp only [Boot.stepBsp, here, Option.some.injEq] at step
          subst step
          cases place <;> exact aimed
      | entry i =>
          simp only [Boot.stepBsp, here] at step
          split at step
          · cases step
            exact aimed
          · split_ifs at step <;>
            · cases step
              exact aimed
      | panicked i apicId => simp only [Boot.stepBsp, here, reduceCtorEq] at step
      | runs place =>
          simp only [Boot.stepBsp, here, Option.map_eq_some_iff] at step
          obtain ⟨next, -, rfl⟩ := step
          exact aimed
      | _ =>
          simp only [Boot.stepBsp, here, Option.some.injEq] at step
          subst step
          exact aimed
  | timeout =>
      have step : s.timeout = some t := step
      unfold Boot.timeout at step
      split at step
      · cases step
        exact aimed
      · cases step
  | ap apicId =>
      obtain ⟨-, step⟩ := (Option.ite_none_left_eq_some ..).mp step
      cases here : s.ap apicId with
      | off | waitsSipi => simp only [Boot.stepAp, here, reduceCtorEq] at step
      | trampoline | higherHalf =>
          simp only [Boot.stepAp, here, Option.some.injEq] at step
          subst step
          exact aimed
      | cpu cpuNumber place =>
          simp only [Boot.stepAp, here] at step
          have step := ((Option.ite_none_left_eq_some ..).mp step).2
          cases place with
          | runs place =>
              simp only [Boot.stepCpu, Option.map_eq_some_iff] at step
              obtain ⟨next, -, rfl⟩ := step
              exact aimed
          | sends =>
              cases step
              exact (Bool.or_eq_false_iff.mp aimed).1
          | _ =>
              cases step
              exact aimed
  | receive apicId =>
      have step : s.receive myApicId apicId = some t := step
      unfold Boot.receive at step
      split at step
      · obtain ⟨-, same⟩ := (Option.ite_none_right_eq_some ..).mp step
        cases same
        exact aimed
      · cases step
  | answer cpuNumber =>
      obtain ⟨-, same⟩ := (Option.ite_none_right_eq_some ..).mp step
      cases same
      exact aimed

theorem Called.step (h : Called myApicId madt.localApics s)
    (started : Started myApicId madt.localApics s) {event : Event}
    (step : s.Step myApicId madt event t) (aimed : t.astray = false) :
    Called myApicId madt.localApics t := by
  cases event with
  | bsp heard => exact h.bsp started ((Option.ite_none_left_eq_some ..).mp step).2
  | timeout =>
      have step : s.timeout = some t := step
      unfold Boot.timeout at step
      split at step
      · rename_i here
        cases step
        refine h.bsp_frame 0 (Function.update_eq_self 0 s.ap).symm (.inl rfl) rfl rfl rfl rfl rfl ?_
          (fun _ _ => rfl)
          fun apicId k counted => ?_
        · have own := h.own
          rw [here] at own
          exact own
        · obtain ⟨j, -, -, rfl, -⟩ := started.place counted
          unfold number
          omega
      · cases step
  | receive apicId => exact h.receive started step
  | answer cpuNumber => exact h.answer step
  | ap apicId =>
      obtain ⟨other, step⟩ := (Option.ite_none_left_eq_some ..).mp step
      cases here : s.ap apicId with
      | off | waitsSipi => simp only [Boot.stepAp, here, reduceCtorEq] at step
      | trampoline =>
          simp only [Boot.stepAp, here, Option.some.injEq] at step
          subst step
          have numbers :=
            numbers_update (s := s) (t := s.setAp apicId .higherHalf) rfl (by rw [here]; rfl)
          have same : ∀ a k p, Function.update s.ap apicId .higherHalf a = .cpu k p →
              s.ap a = .cpu k p := by
            intro a k p there
            by_cases this : a = apicId
            · subst this
              rw [Function.update_self] at there
              cases there
            · rwa [Function.update_of_ne this] at there
          exact h.frame (number?_same numbers) numbers
            (fun a k p there => ⟨p, same a k p there, rfl, Iff.rfl, Iff.rfl⟩) rfl rfl
            rfl rfl rfl h.own
            fun a k p there => h.ids a k p (same a k p there)
      | higherHalf =>
          simp only [Boot.stepAp, here, Option.some.injEq] at step
          subst step
          exact h.counts started other (by rw [here]; rfl) rfl rfl rfl rfl rfl rfl rfl rfl
      | cpu cpuNumber place =>
          simp only [Boot.stepAp, here] at step
          have step := ((Option.ite_none_left_eq_some ..).mp step).2
          obtain ⟨k, rfl⟩ : ∃ k, cpuNumber = k + 1 := by
            obtain ⟨j, -, -, same, -⟩ :=
              started.place (show (s.ap apicId).number? = some cpuNumber by rw [here]; rfl)
            exact ⟨cpuNumber - 1, by unfold number at same; omega⟩
          exact h.stepCpu started here step aimed

theorem Boot.called (distinct : madt.localApics.Nodup) (member : myApicId ∈ madt.localApics)
    {events : List Event} (run : Run (Boot.Step myApicId madt) (Boot.start madt) events s)
    (aimed : s.astray = false) :
    Called myApicId madt.localApics s := by
  refine (run.invariant
    (P := fun s => Started myApicId madt.localApics s ∧
      (s.astray = false → Called myApicId madt.localApics s))
    ⟨.start member, fun _ => .start⟩ ?_).2 aimed
  rintro s event t ⟨started, called⟩ step
  exact ⟨started.step distinct member step, fun aimed =>
    (called (Boot.astray_step step aimed)).step started step aimed⟩

end Calls

end Mykonos.Smp.Bringup
