import Mykonos.Lib.Run
import Mykonos.Smp.Shootdown

/-! # Calls to other processors

`runOn` writes a callback into the mailbox of a processor, sends an interrupt and
waits for the callback to let it return. The mailbox is free for the next caller
while the callback goes on. The steps are those of any number of callers and of any
number of `receiveCall`s, several of which may be on one processor.
-/

namespace Mykonos.Smp

open Lib

/-- Where a call of `runOn` is. -/
inductive Stage where
  | unused
  | acquiring
  /-- Before the write of `callback`. -/
  | storing
  /-- Before `callerCanReturn` is cleared. -/
  | clearing
  | sending
  | waiting
  /-- Before `callback` is reset. -/
  | withdrawing
  | releasing
  | returned
  deriving Repr, DecidableEq

/-- The caller has the lock of the mailbox. -/
def Stage.held : Stage → Bool
  | .unused | .acquiring | .returned => false
  | .storing | .clearing | .sending | .waiting | .withdrawing | .releasing => true

/-- Where an interrupt handler is in `receiveCall`, and on which processor. -/
inductive Handler where
  | none
  | entered (cpu : Nat)
  /-- Has seen a callback that is not null. -/
  | checked (cpu : Nat)
  /-- In the callback of the call, before `letCallerReturn`. -/
  | running (cpu call : Nat)
  /-- After `letCallerReturn`. -/
  | leaving (cpu call : Nat)
  /-- Has called through null. -/
  | crashed (cpu : Nat)
  deriving Repr, DecidableEq

/-- The mailboxes, with the call that holds each lock and the call whose callback each
    holds. `executed` are the processors on which the callback of a call was run,
    `answered` how often it let its caller return. -/
structure Calls where
  cpus : Nat
  lock : Nat → Option Nat
  callback : Nat → Option Nat
  callerCanReturn : Nat → Bool
  ipis : Nat → Nat
  target : Nat → Nat
  stage : Nat → Stage
  handler : Nat → Handler
  executed : Nat → List Nat
  answered : Nat → Nat

namespace Calls

inductive Event where
  | runOn (call caller target : Nat)
  /-- The caller takes its next step. -/
  | caller (call : Nat)
  | interrupt (cpu handler : Nat)
  /-- The handler takes its next step. -/
  | receiver (handler : Nat)
  deriving Repr, DecidableEq

def setStage (s : Calls) (call : Nat) (stage : Stage) : Calls :=
  { s with stage := Function.update s.stage call stage }

def setHandler (s : Calls) (h : Nat) (handler : Handler) : Calls :=
  { s with handler := Function.update s.handler h handler }

def stepCaller (s : Calls) (call : Nat) : Option Calls :=
  let cpuNumber := s.target call
  match s.stage call with
  | .unused => none
  | .acquiring =>
      if cpuNumber < maxCpus then
        match s.lock cpuNumber with
        | none =>
            some ({ s with
              lock := Function.update s.lock cpuNumber (some call) }.setStage call .storing)
        | some _ => none
      else some (s.setStage call .returned)
  | .storing =>
      some ({ s with
        callback := Function.update s.callback cpuNumber (some call) }.setStage call .clearing)
  | .clearing =>
      some ({ s with
        callerCanReturn := Function.update s.callerCanReturn cpuNumber false }.setStage call
          .sending)
  | .sending =>
      some ({ s with
        ipis := Function.update s.ipis cpuNumber (s.ipis cpuNumber + 1) }.setStage call .waiting)
  | .waiting => if s.callerCanReturn cpuNumber then some (s.setStage call .withdrawing) else none
  | .withdrawing =>
      some ({ s with
        callback := Function.update s.callback cpuNumber none }.setStage call .releasing)
  | .releasing =>
      some ({ s with lock := Function.update s.lock cpuNumber none }.setStage call .returned)
  | .returned => none

def stepReceiver (s : Calls) (h : Nat) : Option Calls :=
  match s.handler h with
  | .none => none
  | .entered cpu =>
      match s.callback cpu with
      | none => some (s.setHandler h .none)
      | some _ => some (s.setHandler h (.checked cpu))
  | .checked cpu =>
      match s.callback cpu with
      | none => some (s.setHandler h (.crashed cpu))
      | some call =>
          some ({ s with
            executed := Function.update s.executed call (s.executed call ++ [cpu])
              }.setHandler h (.running cpu call))
  | .running cpu call =>
      some ({ s with
        callerCanReturn := Function.update s.callerCanReturn cpu true
        answered :=
          Function.update s.answered call (s.answered call + 1) }.setHandler h (.leaving cpu call))
  | .leaving _ _ => some (s.setHandler h .none)
  | .crashed _ => none

def after? (s : Calls) : Event → Option Calls
  | .runOn call caller target =>
      if s.stage call = .unused ∧ caller < s.cpus ∧ target < s.cpus ∧ target ≠ caller then
        some ({ s with target := Function.update s.target call target }.setStage call .acquiring)
      else none
  | .caller call => s.stepCaller call
  | .interrupt cpu h =>
      if 0 < s.ipis cpu ∧ s.handler h = .none then
        some ({ s with ipis := Function.update s.ipis cpu (s.ipis cpu - 1) }.setHandler h
          (.entered cpu))
      else none
  | .receiver h => s.stepReceiver h

def Step (s : Calls) (event : Event) (t : Calls) : Prop :=
  s.after? event = some t

def started (cpus : Nat) : Calls where
  cpus := cpus
  lock _ := none
  callback _ := none
  callerCanReturn _ := false
  ipis _ := 0
  target _ := 0
  stage _ := .unused
  handler _ := .none
  executed _ := []
  answered _ := 0

/-! ## The mailbox as a rendezvous -/

/-- What goes on at one mailbox: one call at a time, which rings, is taken by one
    handler, runs and is answered. -/
inductive Exchange where
  | free
  | prepared (call : Nat)
  | ringing (call : Nat)
  | taken (call handler : Nat)
  | running (call handler : Nat)
  | answered (call : Nat)
  deriving Repr, DecidableEq

def Exchange.call : Exchange → Option Nat
  | .free => none
  | .prepared call | .ringing call | .taken call _ | .running call _ | .answered call => some call

/-- The handler that has yet to answer. -/
def Exchange.handler : Exchange → Option Nat
  | .taken _ h | .running _ h => some h
  | .free | .prepared _ | .ringing _ | .answered _ => none

/-- What the exchange at a processor looks like in the mailbox, the caller and the
    handler. -/
def Exchange.Shown (s : Calls) (cpu : Nat) : Exchange → Prop
  | .free => s.lock cpu = none ∧ s.callback cpu = none ∧ s.ipis cpu = 0
  | .prepared call =>
      s.lock cpu = some call ∧ s.ipis cpu = 0 ∧ s.executed call = [] ∧ s.answered call = 0 ∧
        (s.stage call = .storing ∧ s.callback cpu = none ∨ s.stage call = .clearing ∧
          s.callback cpu = some call ∨
          s.stage call = .sending ∧ s.callback cpu = some call ∧ s.callerCanReturn cpu = false)
  | .ringing call =>
      s.lock cpu = some call ∧ s.callback cpu = some call ∧ s.ipis cpu = 1 ∧ s.executed call = [] ∧
        s.answered call = 0 ∧ s.stage call = .waiting ∧ s.callerCanReturn cpu = false
  | .taken call h =>
      s.lock cpu = some call ∧ s.callback cpu = some call ∧ s.ipis cpu = 0 ∧ s.executed call = [] ∧
        s.answered call = 0 ∧ s.stage call = .waiting ∧ s.callerCanReturn cpu = false ∧
        (s.handler h = .entered cpu ∨ s.handler h = .checked cpu)
  | .running call h =>
      s.lock cpu = some call ∧ s.callback cpu = some call ∧ s.ipis cpu = 0 ∧
        s.executed call = [cpu] ∧
        s.answered call = 0 ∧ s.stage call = .waiting ∧ s.callerCanReturn cpu = false ∧
        s.handler h = .running cpu call
  | .answered call =>
      s.lock cpu = some call ∧ s.ipis cpu = 0 ∧ s.executed call = [cpu] ∧ s.answered call = 1 ∧
        s.callerCanReturn cpu = true ∧
        ((s.stage call = .waiting ∨ s.stage call = .withdrawing) ∧ s.callback cpu = some call ∨
          s.stage call = .releasing ∧ s.callback cpu = none)

/-- Every call and every handler is part of the exchange at its processor, or has
    nothing to do with any. -/
structure Kept (s : Calls) (exchange : Nat → Exchange) : Prop where
  shown : ∀ cpu, (exchange cpu).Shown s cpu
  aimed : ∀ cpu call, (exchange cpu).call = some call → s.target call = cpu
  held : ∀ call, (s.stage call).held = true → (exchange (s.target call)).call = some call
  early : ∀ call, s.stage call = .unused ∨ s.stage call = .acquiring →
    s.executed call = [] ∧ s.answered call = 0
  late : ∀ call, s.stage call = .returned → s.executed call = [s.target call] ∧ s.answered call = 1
  below : ∀ call, s.stage call ≠ .unused → s.target call < maxCpus
  opened : ∀ h cpu, s.handler h = .entered cpu ∨ s.handler h = .checked cpu →
    ∃ call, exchange cpu = .taken call h
  busy : ∀ h cpu call, s.handler h = .running cpu call → exchange cpu = .running call h
  sound : ∀ h cpu, s.handler h ≠ .crashed cpu

/-- The exchange at a processor does not depend on what goes on at another one. -/
theorem Exchange.Shown.frame {s t : Calls} {cpu : Nat} {e : Exchange} (h : e.Shown s cpu)
    (mailbox : t.lock cpu = s.lock cpu ∧ t.callback cpu = s.callback cpu ∧
      t.callerCanReturn cpu = s.callerCanReturn cpu ∧ t.ipis cpu = s.ipis cpu)
    (calls : ∀ call, e.call = some call →
      t.stage call = s.stage call ∧ t.executed call = s.executed call ∧ t.answered call =
        s.answered call)
    (handlers : ∀ h, e.handler = some h → t.handler h = s.handler h) : e.Shown t cpu := by
  obtain ⟨lock, callback, callerCanReturn, ipis⟩ := mailbox
  cases e with
  | free => simpa only [Shown, lock, callback, ipis] using h
  | prepared call | ringing call | answered call =>
      obtain ⟨stage, executed, answered⟩ := calls call rfl
      simpa only [Shown, lock, callback, callerCanReturn, ipis, stage, executed, answered] using h
  | taken call k | running call k =>
      obtain ⟨stage, executed, answered⟩ := calls call rfl
      simpa only [Shown, lock, callback, callerCanReturn, ipis, stage, executed, answered,
        handlers k rfl] using h

namespace Kept

variable {s t : Calls} {exchange : Nat → Exchange} {call h : Nat}

/-- A caller goes on, and the exchange at its target with it. -/
theorem moves (kept : Kept s exchange) (call : Nat) (e : Exchange) (target : t.target = s.target)
    (handler : t.handler = s.handler)
    (mailboxes : ∀ cpu, cpu ≠ s.target call → t.lock cpu = s.lock cpu ∧ t.callback cpu =
      s.callback cpu ∧
      t.callerCanReturn cpu = s.callerCanReturn cpu ∧ t.ipis cpu = s.ipis cpu)
    (calls : ∀ other, other ≠ call → t.stage other = s.stage other ∧ t.executed other =
      s.executed other ∧
      t.answered other = s.answered other)
    (alone : ∀ other, (exchange (s.target call)).call = some other → other = call)
    (quiet : (exchange (s.target call)).handler = none)
    (used : s.stage call ≠ .unused) (past : t.stage call ≠ .unused ∧ t.stage call ≠ .acquiring)
    (shown : e.Shown t (s.target call))
    (mine : ∀ other, e.call = some other ↔ other = call ∧ (t.stage call).held = true)
    (last : t.stage call = .returned → t.executed call = [s.target call] ∧ t.answered call = 1) :
    Kept t (Function.update exchange (s.target call) e) := by
  refine ⟨fun cpu => ?_, ?_, ?_, ?_, ?_, ?_, ?_, ?_, ?_⟩
  · by_cases here : cpu = s.target call
    · subst here
      simpa using shown
    · rw [Function.update_of_ne here]
      refine (kept.shown cpu).frame (mailboxes cpu here) (fun other theirs => calls other ?_)
        (fun k _ => by rw [handler])
      rintro rfl
      exact here (kept.aimed cpu other theirs).symm
  · intro cpu other theirs
    rw [target]
    by_cases here : cpu = s.target call
    · subst here
      rw [Function.update_self] at theirs
      rw [((mine other).mp theirs).1]
    · rw [Function.update_of_ne here] at theirs
      exact kept.aimed cpu other theirs
  · intro other held
    rw [target]
    by_cases same : other = call
    · subst same
      simp [mine, held]
    · rw [(calls other same).1] at held
      have theirs := kept.held other held
      have elsewhere : s.target other ≠ s.target call :=
        fun meet => same (alone other (meet ▸ theirs))
      rwa [Function.update_of_ne elsewhere]
  · intro other early
    by_cases same : other = call
    · grind
    · obtain ⟨stage, executed, answered⟩ := calls other same
      rw [executed, answered]
      exact kept.early other (stage ▸ early)
  · intro other late
    rw [target]
    by_cases same : other = call
    · grind
    · obtain ⟨stage, executed, answered⟩ := calls other same
      rw [executed, answered]
      exact kept.late other (stage ▸ late)
  · intro other late
    rw [target]
    apply kept.below
    grind
  · intro k cpu awake
    rw [handler] at awake
    obtain ⟨other, taken⟩ := kept.opened k cpu awake
    have elsewhere : cpu ≠ s.target call := by
      rintro rfl
      simp [taken, Exchange.handler] at quiet
    exact ⟨other, by rwa [Function.update_of_ne elsewhere]⟩
  · intro k cpu other running
    rw [handler] at running
    have shows := kept.busy k cpu other running
    have elsewhere : cpu ≠ s.target call := by
      rintro rfl
      simp [shows, Exchange.handler] at quiet
    rwa [Function.update_of_ne elsewhere]
  · simpa [handler] using kept.sound

/-- The exchange that a stage of the caller belongs to. -/
theorem prepared (kept : Kept s exchange) (call : Nat)
    (stage : s.stage call = .storing ∨ s.stage call = .clearing ∨ s.stage call = .sending) :
    exchange (s.target call) = .prepared call := by
  have shown := kept.shown (s.target call)
  have mine := kept.held call (by grind [Stage.held])
  cases at_target : exchange (s.target call) <;> grind [Exchange.Shown, Exchange.call]

theorem answered (kept : Kept s exchange) (call : Nat)
    (stage : s.stage call = .withdrawing ∨ s.stage call = .releasing ∨
      s.stage call = .waiting ∧ s.callerCanReturn (s.target call) = true) :
    exchange (s.target call) = .answered call := by
  have shown := kept.shown (s.target call)
  have mine := kept.held call (by grind [Stage.held])
  cases at_target : exchange (s.target call) <;> grind [Exchange.Shown, Exchange.call]

theorem caller (kept : Kept s exchange) (taken : s.stepCaller call = some t) :
    ∃ exchange', Kept t exchange' := by
  unfold stepCaller setStage at taken
  have shown := kept.shown (s.target call)
  cases stage : s.stage call with
  | unused | returned => simp [stage] at taken
  | acquiring =>
      have early := kept.early call (.inr stage)
      simp only [stage, kept.below call (by simp [stage]), if_true] at taken
      cases lock : s.lock (s.target call) with
      | some other => simp [lock] at taken
      | none =>
          simp only [lock, Option.some.injEq] at taken
          subst taken
          have free : exchange (s.target call) = .free := by
            cases at_target : exchange (s.target call) <;> grind [Exchange.Shown]
          refine ⟨_, kept.moves call (.prepared call) rfl rfl ?_ ?_ ?_ ?_ ?_ ?_ ?_ ?_ ?_⟩
          all_goals grind [Exchange.call, Exchange.handler, Exchange.Shown, Stage.held]
  | storing | clearing =>
      have here := kept.prepared call (by simp [stage])
      simp only [stage, Option.some.injEq] at taken
      subst taken
      refine ⟨_, kept.moves call (.prepared call) rfl rfl ?_ ?_ ?_ ?_ ?_ ?_ ?_ ?_ ?_⟩
      all_goals grind [Exchange.call, Exchange.handler, Exchange.Shown, Stage.held]
  | sending =>
      have here := kept.prepared call (by simp [stage])
      simp only [stage, Option.some.injEq] at taken
      subst taken
      refine ⟨_, kept.moves call (.ringing call) rfl rfl ?_ ?_ ?_ ?_ ?_ ?_ ?_ ?_ ?_⟩
      all_goals grind [Exchange.call, Exchange.handler, Exchange.Shown, Stage.held]
  | waiting =>
      simp only [stage] at taken
      split at taken
      · rename_i canReturn
        have here := kept.answered call (by simp [stage, canReturn])
        obtain rfl := Option.some.inj taken
        refine ⟨_, kept.moves call (.answered call) rfl rfl ?_ ?_ ?_ ?_ ?_ ?_ ?_ ?_ ?_⟩
        all_goals grind [Exchange.call, Exchange.handler, Exchange.Shown, Stage.held]
      · cases taken
  | withdrawing =>
      have here := kept.answered call (by simp [stage])
      simp only [stage, Option.some.injEq] at taken
      subst taken
      refine ⟨_, kept.moves call (.answered call) rfl rfl ?_ ?_ ?_ ?_ ?_ ?_ ?_ ?_ ?_⟩
      all_goals grind [Exchange.call, Exchange.handler, Exchange.Shown, Stage.held]
  | releasing =>
      have here := kept.answered call (by simp [stage])
      simp only [stage, Option.some.injEq] at taken
      subst taken
      refine ⟨_, kept.moves call .free rfl rfl ?_ ?_ ?_ ?_ ?_ ?_ ?_ ?_ ?_⟩
      all_goals grind [Exchange.call, Exchange.handler, Exchange.Shown, Stage.held]

theorem stage_held (kept : Kept s exchange) {cpu : Nat} (here : (exchange cpu).call = some call) :
    (s.stage call).held = true := by
  have shown := kept.shown cpu
  cases at_cpu : exchange cpu <;> grind [Exchange.Shown, Exchange.call, Stage.held]

/-- A call that has not begun or has returned is part of no exchange. -/
theorem outside (kept : Kept s exchange) (cpu call : Nat) (away : (s.stage call).held = false) :
    (exchange cpu).call ≠ some call := by
  intro here
  cases (kept.stage_held here).symm.trans away

/-- A handler that has something to answer is where its processor is. -/
theorem handler_at (kept : Kept s exchange) {cpu : Nat} (here : (exchange cpu).handler = some h) :
    s.handler h = .entered cpu ∨ s.handler h = .checked cpu ∨ ∃ call, s.handler h =
      .running cpu call := by
  have shown := kept.shown cpu
  cases at_cpu : exchange cpu <;> grind [Exchange.Shown, Exchange.handler]

/-- A handler goes on, and the exchange at its processor with it. -/
theorem handles (kept : Kept s exchange) (cpu h : Nat) (e : Exchange) (target : t.target = s.target)
    (stage : t.stage = s.stage)
    (mailboxes : ∀ other, other ≠ cpu → t.lock other = s.lock other ∧ t.callback other =
      s.callback other ∧
      t.callerCanReturn other = s.callerCanReturn other ∧ t.ipis other = s.ipis other)
    (calls : ∀ other, (exchange cpu).call ≠ some other →
      t.executed other = s.executed other ∧ t.answered other = s.answered other)
    (handlers : ∀ k, k ≠ h → t.handler k = s.handler k)
    (alone : ∀ k, (exchange cpu).handler = some k → k = h)
    (here : ∀ other, s.handler h = .entered other ∨ s.handler h = .checked other ∨
      (∃ call, s.handler h = .running other call) → other = cpu)
    (shown : e.Shown t cpu) (same : e.call = (exchange cpu).call)
    (opened : ∀ other, t.handler h = .entered other ∨ t.handler h = .checked other →
      other = cpu ∧ ∃ call, e = .taken call h)
    (busy : ∀ other call, t.handler h = .running other call → other = cpu ∧ e = .running call h)
    (sound : ∀ other, t.handler h ≠ .crashed other) : Kept t (Function.update exchange cpu e) := by
  have call_eq (other : Nat) :
      (Function.update exchange cpu e other).call = (exchange other).call := by
    by_cases at_cpu : other = cpu
    · subst at_cpu
      simp [same]
    · rw [Function.update_of_ne at_cpu]
  refine ⟨fun other => ?_, ?_, ?_, ?_, ?_, ?_, ?_, ?_, ?_⟩
  · by_cases at_cpu : other = cpu
    · subst at_cpu
      simpa using shown
    · rw [Function.update_of_ne at_cpu]
      refine (kept.shown other).frame (mailboxes other at_cpu) (fun call theirs => ?_)
        (fun k theirs => handlers k ?_)
      · rw [stage]
        refine ⟨rfl, calls call fun ours => at_cpu ?_⟩
        rw [← kept.aimed other call theirs, kept.aimed cpu call ours]
      · rintro rfl
        exact at_cpu (here other (kept.handler_at theirs))
  · intro other call theirs
    rw [target]
    exact kept.aimed other call (call_eq other ▸ theirs)
  · intro call held
    rw [target, call_eq]
    exact kept.held call (stage ▸ held)
  · intro call early
    rw [stage] at early
    have outside := kept.outside cpu call (by grind [Stage.held])
    rw [(calls call outside).1, (calls call outside).2]
    exact kept.early call early
  · intro call late
    rw [stage] at late
    have outside := kept.outside cpu call (by rw [late, Stage.held])
    rw [target, (calls call outside).1, (calls call outside).2]
    exact kept.late call late
  · intro call used
    rw [target]
    exact kept.below call (stage ▸ used)
  · intro k other awake
    by_cases mine : k = h
    · subst mine
      obtain ⟨rfl, call, rfl⟩ := opened other awake
      exact ⟨call, by simp⟩
    · rw [handlers k mine] at awake
      obtain ⟨call, taken⟩ := kept.opened k other awake
      have elsewhere : other ≠ cpu := by
        rintro rfl
        exact mine (alone k (by simp [taken, Exchange.handler]))
      exact ⟨call, by rwa [Function.update_of_ne elsewhere]⟩
  · intro k other call running
    by_cases mine : k = h
    · subst mine
      obtain ⟨rfl, rfl⟩ := busy other call running
      simp
    · rw [handlers k mine] at running
      have taken := kept.busy k other call running
      have elsewhere : other ≠ cpu := by
        rintro rfl
        exact mine (alone k (by simp [taken, Exchange.handler]))
      rwa [Function.update_of_ne elsewhere]
  · intro k other
    by_cases mine : k = h
    · subst mine
      exact sound other
    · rw [handlers k mine]
      exact kept.sound k other

theorem interrupt (kept : Kept s exchange) {cpu : Nat} (rings : 0 < s.ipis cpu)
    (free : s.handler h = .none) :
    ∃ exchange', Kept ({ s with ipis := Function.update s.ipis cpu (s.ipis cpu - 1) }.setHandler h
      (.entered cpu))
      exchange' := by
  unfold setHandler
  have shown := kept.shown cpu
  cases at_cpu : exchange cpu with
  | ringing call =>
      refine ⟨_, kept.handles cpu h (.taken call h) rfl rfl ?_ ?_ ?_ ?_ ?_ ?_ ?_ ?_ ?_ ?_⟩
      all_goals grind [Exchange.call, Exchange.handler, Exchange.Shown]
  | free | prepared call | taken call k | running call k | answered call => grind [Exchange.Shown]

/-- The handler has not answered or has nothing to do with the exchanges any more. -/
theorem receiver (kept : Kept s exchange) (taken : s.stepReceiver h = some t) :
    ∃ exchange', Kept t exchange' := by
  unfold stepReceiver setHandler at taken
  cases handler : s.handler h with
  | none | crashed cpu => simp [handler] at taken
  | entered cpu =>
      obtain ⟨call, at_cpu⟩ := kept.opened h cpu (.inl handler)
      have shown := kept.shown cpu
      have callback : s.callback cpu = some call := by grind [Exchange.Shown]
      simp only [handler, callback, Option.some.injEq] at taken
      subst taken
      refine ⟨_, kept.handles cpu h (.taken call h) rfl rfl ?_ ?_ ?_ ?_ ?_ ?_ ?_ ?_ ?_ ?_⟩
      all_goals grind [Exchange.call, Exchange.handler, Exchange.Shown]
  | checked cpu =>
      obtain ⟨call, at_cpu⟩ := kept.opened h cpu (.inr handler)
      have shown := kept.shown cpu
      have callback : s.callback cpu = some call := by grind [Exchange.Shown]
      simp only [handler, callback, Option.some.injEq] at taken
      subst taken
      refine ⟨_, kept.handles cpu h (.running call h) rfl rfl ?_ ?_ ?_ ?_ ?_ ?_ ?_ ?_ ?_ ?_⟩
      all_goals grind [Exchange.call, Exchange.handler, Exchange.Shown]
  | running cpu call =>
      have at_cpu := kept.busy h cpu call handler
      have shown := kept.shown cpu
      simp only [handler, Option.some.injEq] at taken
      subst taken
      refine ⟨_, kept.handles cpu h (.answered call) rfl rfl ?_ ?_ ?_ ?_ ?_ ?_ ?_ ?_ ?_ ?_⟩
      all_goals grind [Exchange.call, Exchange.handler, Exchange.Shown]
  | leaving cpu call =>
      simp only [handler, Option.some.injEq] at taken
      subst taken
      refine ⟨exchange, fun cpu => ?_, kept.aimed, kept.held, kept.early, kept.late,
        kept.below, ?_, ?_, ?_⟩
      · refine (kept.shown cpu).frame ⟨rfl, rfl, rfl, rfl⟩ (fun _ _ => ⟨rfl, rfl, rfl⟩)
          fun k theirs => ?_
        have busy := kept.handler_at theirs
        grind
      · grind [kept.opened]
      · grind [kept.busy]
      · grind [kept.sound]

/-- A new call is not part of any exchange yet. -/
theorem runOn (kept : Kept s exchange) {target : Nat} (unused : s.stage call = .unused)
    (below : target < maxCpus) :
    Kept ({ s with target := Function.update s.target call target }.setStage call .acquiring)
      exchange := by
  unfold setStage
  have outside (cpu other : Nat) (theirs : (exchange cpu).call = some other) : other ≠ call := by
    rintro rfl
    exact kept.outside cpu _ (by rw [unused, Stage.held]) theirs
  refine ⟨fun cpu => ?_, fun cpu other theirs => ?_, fun other held => ?_, fun other early => ?_,
    fun other late => ?_, fun other used => ?_, kept.opened, kept.busy, kept.sound⟩
  · refine (kept.shown cpu).frame ⟨rfl, rfl, rfl, rfl⟩ (fun other theirs => ?_) fun _ _ => rfl
    simp [outside cpu other theirs]
  · simpa [outside cpu other theirs] using kept.aimed cpu other theirs
  · grind [kept.held, Stage.held]
  · grind [kept.early]
  · grind [kept.late]
  · by_cases same : other = call
    · subst same
      simpa using below
    · simp only [Function.update_of_ne same] at used ⊢
      exact kept.below other used

theorem step (kept : Kept s exchange) (few : s.cpus ≤ maxCpus) {event : Event}
    (taken : s.Step event t) :
    ∃ exchange', Kept t exchange' := by
  unfold Step after? at taken
  cases event with
  | runOn call caller target =>
      simp only at taken
      split at taken
      · rename_i fresh
        obtain rfl := Option.some.inj taken
        exact ⟨exchange, kept.runOn fresh.1 (Nat.lt_of_lt_of_le fresh.2.2.1 few)⟩
      · cases taken
  | caller call => exact kept.caller taken
  | interrupt cpu h =>
      simp only at taken
      split at taken
      · rename_i rings
        obtain rfl := Option.some.inj taken
        exact kept.interrupt rings.1 rings.2
      · cases taken
  | receiver h => exact kept.receiver taken

end Kept

theorem Step.cpus {s t : Calls} {event : Event} (taken : s.Step event t) : t.cpus = s.cpus := by
  unfold Step after? stepCaller stepReceiver setStage setHandler at taken
  grind

theorem started_kept (cpus : Nat) : Kept (started cpus) fun _ => .free := by
  refine ⟨fun _ => ⟨rfl, rfl, rfl⟩, ?_, ?_, fun _ _ => ⟨rfl, rfl⟩, ?_, ?_, ?_, ?_, ?_⟩
  all_goals simp [started, Exchange.call, Stage.held]

/-- A call that has returned was run by one handler, on its target, which let it
    return; no callback is run twice, elsewhere than on its target or after it was
    withdrawn, and no handler calls through null. -/
theorem callbacks_run_once {cpus : Nat} (few : cpus ≤ maxCpus) {events : List Event} {s : Calls}
    (run : Run Step (started cpus) events s) :
    (∀ call, s.stage call = .returned → s.executed call = [s.target call] ∧ s.answered call = 1) ∧
      (∀ call, s.answered call ≤ (s.executed call).length ∧
        (s.executed call = [] ∨ s.executed call = [s.target call])) ∧
      (∀ h cpu call, s.handler h = .running cpu call →
        s.target call = cpu ∧ s.callback cpu = some call ∧ s.stage call = .waiting) ∧
      ∀ h cpu, s.handler h ≠ .crashed cpu := by
  obtain ⟨_, exchange, kept⟩ :=
    run.invariant (P := fun s => s.cpus ≤ maxCpus ∧ ∃ exchange, Kept s exchange)
    ⟨few, _, started_kept cpus⟩ fun _ _ _ ⟨few, _, kept⟩ taken =>
      ⟨taken.cpus ▸ few, kept.step few taken⟩
  refine ⟨kept.late, fun call => ?_, fun h cpu call running => ?_, kept.sound⟩
  · by_cases held : (s.stage call).held = true
    · have shown := kept.shown (s.target call)
      have mine := kept.held call held
      cases at_target : exchange (s.target call) <;> grind [Exchange.Shown, Exchange.call]
    · have early := kept.early call
      have late := kept.late call
      cases stage : s.stage call <;> simp_all [Stage.held]
  · have at_cpu := kept.busy h cpu call running
    have shown := kept.shown cpu
    rw [at_cpu] at shown
    exact ⟨kept.aimed cpu call (by rw [at_cpu]; rfl), shown.2.1, shown.2.2.2.2.2.1⟩

/-- Two processors call a third one. The first handler is still in its callback when
    the second call is made and returns. -/
theorem callbacks_run_once_overlapping :
    ∃ s, Run Step (started 3) [.runOn 0 1 0, .caller 0, .caller 0, .caller 0, .caller 0,
        .interrupt 0 0, .receiver 0, .receiver 0, .receiver 0, .runOn 1 2 0, .caller 0,
        .caller 0, .caller 0, .caller 1, .caller 1, .caller 1, .caller 1, .interrupt 0 1,
        .receiver 1, .receiver 1, .receiver 1, .caller 1, .caller 1, .caller 1] s ∧
      s.handler 0 = .leaving 0 0 ∧ s.stage 1 = .returned ∧ s.executed 1 = [0] ∧
      s.answered 1 = 1 := by
  have computed : ∃ s, [Event.runOn 0 1 0, .caller 0, .caller 0, .caller 0, .caller 0,
      .interrupt 0 0, .receiver 0, .receiver 0, .receiver 0, .runOn 1 2 0, .caller 0,
      .caller 0, .caller 0, .caller 1, .caller 1, .caller 1, .caller 1, .interrupt 0 1,
      .receiver 1, .receiver 1, .receiver 1, .caller 1, .caller 1, .caller 1].foldlM
      after? (started 3) = some s ∧
      s.handler 0 = .leaving 0 0 ∧ s.stage 1 = .returned ∧ s.target 1 = 0 :=
    ⟨_, rfl, by decide +kernel⟩
  obtain ⟨s, replayed, leaving, returned, target⟩ := computed
  have run : Run Step _ _ s := Run.of_foldlM replayed
  obtain ⟨executed, answered⟩ := (callbacks_run_once (by decide) run).1 1 returned
  exact ⟨s, run, leaving, returned, target ▸ executed, answered⟩

end Calls

end Mykonos.Smp
