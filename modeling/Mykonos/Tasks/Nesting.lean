import Mathlib.Logic.Function.Basic
import Mykonos.Lib.Run

/-! # Spinlocks inside each other

`Spinlock::acquire` and `release` on one processor, with its interrupt flag. Each lock saves
the flag that its owner found. Between two steps other processors, and interrupt handlers
that return, may change the locks that this processor does not hold.
-/

namespace Mykonos.Tasks.Nesting

open Lib

structure Spinlock where
  lock : UInt8 := 0
  enableIrqs : Bool := false
  deriving Repr, DecidableEq

inductive Call (ι : Type) where
  | acquire (l : ι)
  | release (l : ι)
  deriving Repr, DecidableEq

/-- The steps of the calls. `saved` is their local variable. -/
inductive Op (ι : Type) where
  /-- `saved = cpu::localIrqState()`. -/
  | localIrqState
  | disableLocalIrqs
  /-- The loop around the compare and swap. -/
  | compareAndSwap (l : ι)
  /-- `enableIrqs = saved`. -/
  | save (l : ι)
  /-- `saved = enableIrqs`. -/
  | load (l : ι)
  /-- `__atomic_store_n(&lock, 0, __ATOMIC_SEQ_CST)`. -/
  | store (l : ι)
  /-- `if (saved)`. -/
  | enableLocalIrqs
  deriving Repr, DecidableEq

variable {ι : Type}

def Call.code : Call ι → List (Op ι)
  | .acquire l => [.localIrqState, .disableLocalIrqs, .compareAndSwap l, .save l]
  | .release l => [.load l, .store l, .enableLocalIrqs]

/-- The step that takes the lock, or gives it back. -/
def Call.write : Call ι → Op ι
  | .acquire l => .compareAndSwap l
  | .release l => .store l

/-- A processor in the code of a call, with the calls that it makes afterwards. `held` are the
    locks that it has taken, the last one first. -/
structure State (ι : Type) where
  irqs : Bool
  saved : Bool
  locks : ι → Spinlock
  held : List ι
  code : List (Op ι)
  calls : List (Call ι)

section Code

variable [DecidableEq ι]

namespace State

def setLock (s : State ι) (l : ι) (lock : Spinlock) : State ι :=
  { s with locks := Function.update s.locks l lock }

def execute (s : State ι) : Op ι → Option (State ι)
  | .localIrqState => some { s with saved := s.irqs }
  | .disableLocalIrqs => some { s with irqs := false }
  | .compareAndSwap l =>
      if (s.locks l).lock = 0 then
        some { s.setLock l { s.locks l with lock := 1 } with held := l :: s.held }
      else none
  | .save l => some (s.setLock l { s.locks l with enableIrqs := s.saved })
  | .load l => some { s with saved := (s.locks l).enableIrqs }
  | .store l => some { s.setLock l { s.locks l with lock := 0 } with held := s.held.erase l }
  | .enableLocalIrqs => some { s with irqs := s.saved || s.irqs }

inductive Event (ι : Type) where
  | step
  /-- Another processor changes a lock. -/
  | other (l : ι) (lock : Spinlock)
  deriving Repr, DecidableEq

def after? (s : State ι) : Event ι → Option (State ι)
  | .step =>
      match s.code with
      | op :: code => { s with code := code }.execute op
      | [] =>
          match s.calls with
          | call :: calls => some { s with code := call.code, calls := calls }
          | [] => none
  | .other l lock => if l ∈ s.held then none else some (s.setLock l lock)

def Step (s : State ι) (event : Event ι) (t : State ι) : Prop :=
  s.after? event = some t

/-- The processor is about to make the calls. -/
structure Starts (s : State ι) (calls : List (Call ι)) : Prop where
  calls : s.calls = calls
  code : s.code = []
  held : s.held = []

end State

/-- The locks that are held after the calls, if they are well bracketed: no lock is acquired
    that is held, and the lock that was acquired last is released first. -/
def nest : List ι → List (Call ι) → Option (List ι)
  | held, [] => some held
  | held, .acquire l :: calls => if l ∈ held then none else nest (l :: held) calls
  | [], .release _ :: _ => none
  | last :: held, .release l :: calls => if l = last then nest held calls else none

/-- The calls so far: those that the processor is back from, and the one that it is in once
    that one has written the lock. -/
inductive State.Past (s : State ι) (calls past : List (Call ι)) : Prop where
  | between (parts : calls = past ++ s.calls) (code : s.code = [])
  | unwritten {call : Call ι} (parts : calls = past ++ call :: s.calls)
      (code : s.code <:+ call.code) (writes : call.write ∈ s.code)
  | written {call : Call ι} {earlier : List (Call ι)} (last : past = earlier ++ [call])
      (parts : calls = past ++ s.calls) (code : s.code <:+ call.code) (inside : s.code ≠ [])
      (writes : call.write ∉ s.code)

end Code

/-- Behind the write the call is one of the calls so far. -/
theorem State.Past.behind {s : State ι} {calls past : List (Call ι)} {call : Call ι}
    (parts : calls = past ++ call :: s.calls) (code : s.code <:+ call.code) (inside : s.code ≠ [])
    (writes : call.write ∉ s.code) : s.Past calls (past ++ [call]) := by
  refine .written rfl ?_ code inside writes
  rw [parts, List.append_assoc]
  rfl

/-- The interrupt flag that belongs to the locks that are held. -/
def flag (irqs : Bool) (held : List ι) : Bool :=
  held.isEmpty && irqs

/-- Each lock that is held has saved the flag from before. -/
def Kept (irqs : Bool) (locks : ι → Spinlock) : List ι → Prop
  | [] => True
  | l :: held => l ∉ held ∧ locks l = ⟨1, flag irqs held⟩ ∧ Kept irqs locks held

theorem Kept.congr {irqs : Bool} {locks locks' : ι → Spinlock} {held : List ι}
    (kept : Kept irqs locks held) (same : ∀ l ∈ held, locks' l = locks l) :
    Kept irqs locks' held := by
  induction held with
  | nil => trivial
  | cons l held ih =>
      obtain ⟨here, others⟩ := List.forall_mem_cons.mp same
      exact ⟨kept.1, here.trans kept.2.1, ih kept.2.2 others⟩

theorem Kept.locked {irqs : Bool} {locks : ι → Spinlock} {held : List ι}
    (kept : Kept irqs locks held) {l : ι} (member : l ∈ held) : (locks l).lock = 1 := by
  induction held with
  | nil => cases member
  | cons last held ih =>
      rcases List.mem_cons.mp member with rfl | later
      · rw [kept.2.1]
      · exact ih kept.2.2 later

variable [DecidableEq ι]

theorem nest_append (held : List ι) (first second : List (Call ι)) :
    nest held (first ++ second) = (nest held first).bind fun held => nest held second := by
  induction first generalizing held with
  | nil => rfl
  | cons call first ih =>
      rw [List.cons_append]
      cases call with
      | acquire l =>
          rw [nest, nest]
          split
          · rfl
          · exact ih _
      | release l =>
          cases held with
          | nil => rfl
          | cons last held =>
              rw [nest, nest]
              split
              · exact ih _
              · rfl

/-- A lock that is not held may change. -/
theorem Kept.update {irqs : Bool} {locks : ι → Spinlock} {held : List ι}
    (kept : Kept irqs locks held) {l : ι} (free : l ∉ held) (lock : Spinlock) :
    Kept irqs (Function.update locks l lock) held := by
  refine kept.congr fun other member => ?_
  refine Function.update_of_ne ?_ _ _
  rintro rfl
  exact free member

variable {irqs : Bool} {calls : List (Call ι)} {s t : State ι}

/-- Where the processor is, with the calls that are behind it. -/
inductive Position (irqs : Bool) (calls : List (Call ι)) (s : State ι) : Prop where
  | between {past : List (Call ι)} (parts : calls = past ++ s.calls)
      (nested : nest [] past = some s.held) (code : s.code = []) (on : s.irqs = flag irqs s.held)
      (kept : Kept irqs s.locks s.held)
  | acquire {past : List (Call ι)} {l : ι} (parts : calls = past ++ .acquire l :: s.calls)
      (nested : nest [] past = some s.held) (free : l ∉ s.held)
      (code : s.code = (Call.acquire l).code) (on : s.irqs = flag irqs s.held)
      (kept : Kept irqs s.locks s.held)
  | found {past : List (Call ι)} {l : ι} (parts : calls = past ++ .acquire l :: s.calls)
      (nested : nest [] past = some s.held) (free : l ∉ s.held)
      (code : s.code = [.disableLocalIrqs, .compareAndSwap l, .save l])
      (on : s.irqs = flag irqs s.held) (saved : s.saved = flag irqs s.held)
      (kept : Kept irqs s.locks s.held)
  | disabled {past : List (Call ι)} {l : ι} (parts : calls = past ++ .acquire l :: s.calls)
      (nested : nest [] past = some s.held) (free : l ∉ s.held)
      (code : s.code = [.compareAndSwap l, .save l]) (off : s.irqs = false)
      (saved : s.saved = flag irqs s.held) (kept : Kept irqs s.locks s.held)
  | taken {past : List (Call ι)} {l : ι} {held : List ι}
      (parts : calls = past ++ .acquire l :: s.calls) (nested : nest [] past = some held)
      (free : l ∉ held) (has : s.held = l :: held) (code : s.code = [.save l])
      (off : s.irqs = false) (saved : s.saved = flag irqs held) (locked : (s.locks l).lock = 1)
      (kept : Kept irqs s.locks held)
  | release {past : List (Call ι)} {l : ι} {held : List ι}
      (parts : calls = past ++ .release l :: s.calls) (nested : nest [] past = some (l :: held))
      (has : s.held = l :: held) (code : s.code = (Call.release l).code)
      (off : s.irqs = false) (kept : Kept irqs s.locks (l :: held))
  | loaded {past : List (Call ι)} {l : ι} {held : List ι}
      (parts : calls = past ++ .release l :: s.calls) (nested : nest [] past = some (l :: held))
      (has : s.held = l :: held) (code : s.code = [.store l, .enableLocalIrqs])
      (off : s.irqs = false) (saved : s.saved = flag irqs held)
      (kept : Kept irqs s.locks (l :: held))
  | stored {past : List (Call ι)} {l : ι} (parts : calls = past ++ .release l :: s.calls)
      (nested : nest [] past = some (l :: s.held)) (code : s.code = [.enableLocalIrqs])
      (off : s.irqs = false) (saved : s.saved = flag irqs s.held) (kept : Kept irqs s.locks s.held)

theorem nest_acquire {held : List ι} {l : ι} {later : List (Call ι)}
    (bracketed : (nest held (.acquire l :: later)).isSome) : l ∉ held := by
  intro member
  rw [nest, if_pos member] at bracketed
  cases bracketed

theorem nest_release {held : List ι} {l : ι} {later : List (Call ι)}
    (bracketed : (nest held (.release l :: later)).isSome) : ∃ rest, held = l :: rest := by
  cases held with
  | nil => cases bracketed
  | cons last held =>
      rw [nest] at bracketed
      split at bracketed
      · rename_i same
        exact ⟨held, same ▸ rfl⟩
      · cases bracketed

/-- What the next call of a well bracketed sequence finds. -/
theorem nest_next {past : List (Call ι)} {held : List ι} {call : Call ι} {later : List (Call ι)}
    (bracketed : (nest [] calls).isSome) (parts : calls = past ++ call :: later)
    (nested : nest [] past = some held) :
    (nest held (call :: later)).isSome := by
  rwa [parts, nest_append, nested] at bracketed

theorem Position.other {l : ι} {lock : Spinlock} (position : Position irqs calls s)
    (free : l ∉ s.held) :
    Position irqs calls (s.setLock l lock) := by
  cases position with
  | between parts nested code on kept => exact .between parts nested code on (kept.update free lock)
  | acquire parts nested free' code on kept =>
      exact .acquire parts nested free' code on (kept.update free lock)
  | found parts nested free' code on saved kept =>
      exact .found parts nested free' code on saved (kept.update free lock)
  | disabled parts nested free' code off saved kept =>
      exact .disabled parts nested free' code off saved (kept.update free lock)
  | taken parts nested free' has code off saved locked kept =>
      rw [has, List.mem_cons, not_or] at free
      refine .taken parts nested free' has code off saved ?_ (kept.update free.2 lock)
      have other : Function.update s.locks l lock _ = s.locks _ :=
        Function.update_of_ne (Ne.symm free.1) ..
      exact (congrArg Spinlock.lock other).trans locked
  | release parts nested has code off kept =>
      exact .release parts nested has code off (kept.update (has ▸ free) lock)
  | loaded parts nested has code off saved kept =>
      exact .loaded parts nested has code off saved (kept.update (has ▸ free) lock)
  | stored parts nested code off saved kept =>
      exact .stored parts nested code off saved (kept.update free lock)

theorem Position.step (position : Position irqs calls s) (bracketed : (nest [] calls).isSome)
    (stepped : s.after? .step = some t) : Position irqs calls t := by
  cases position with
  | between parts nested code on kept =>
      simp only [State.after?, code] at stepped
      cases behind : s.calls with
      | nil =>
          rw [behind] at stepped
          cases stepped
      | cons call later =>
          rw [behind] at stepped parts
          obtain rfl := Option.some.inj stepped
          have next := nest_next bracketed parts nested
          cases call with
          | acquire l => exact .acquire parts nested (nest_acquire next) rfl on kept
          | release l =>
              obtain ⟨held, has⟩ := nest_release next
              refine .release parts (has ▸ nested) has rfl ?_ (has ▸ kept)
              rw [has] at on
              exact on
  | acquire parts nested free code on kept =>
      simp only [State.after?, code, Call.code, State.execute] at stepped
      obtain rfl := Option.some.inj stepped
      exact .found parts nested free rfl on on kept
  | found parts nested free code on saved kept =>
      simp only [State.after?, code, State.execute] at stepped
      obtain rfl := Option.some.inj stepped
      exact .disabled parts nested free rfl rfl saved kept
  | disabled parts nested free code off saved kept =>
      simp only [State.after?, code, State.execute, State.setLock] at stepped
      obtain ⟨_, taken⟩ := Option.ite_none_right_eq_some.mp stepped
      obtain rfl := Option.some.inj taken
      refine .taken parts nested free rfl rfl off saved ?_ (kept.update free _)
      dsimp only
      rw [Function.update_self]
  | @taken past l held parts nested free has code off saved locked kept =>
      simp only [State.after?, code, State.execute, State.setLock] at stepped
      obtain rfl := Option.some.inj stepped
      have nested' : nest [] (past ++ [.acquire l]) = some (l :: held) := by
        rw [nest_append, nested, Option.bind_some, nest, if_neg free, nest]
      refine .between (by rw [parts, List.append_assoc]; rfl) (has ▸ nested') rfl ?_ ?_
      · rw [has]
        exact off
      · rw [has]
        refine ⟨free, ?_, kept.update free _⟩
        dsimp only
        rw [Function.update_self, locked, saved]
  | release parts nested has code off kept =>
      simp only [State.after?, code, Call.code, State.execute] at stepped
      obtain rfl := Option.some.inj stepped
      refine .loaded parts nested has rfl off ?_ kept
      rw [kept.2.1]
  | @loaded past l held parts nested has code off saved kept =>
      simp only [State.after?, code, State.execute, State.setLock] at stepped
      obtain rfl := Option.some.inj stepped
      obtain ⟨free, _, kept⟩ := kept
      have rest : s.held.erase l = held := by rw [has, List.erase_cons_head]
      refine .stored parts ?_ rfl off ?_ ?_
      · rw [nested, rest]
      · rw [rest]
        exact saved
      · rw [rest]
        exact kept.update free _
  | @stored past l parts nested code off saved kept =>
      simp only [State.after?, code, State.execute] at stepped
      obtain rfl := Option.some.inj stepped
      have nested' : nest [] (past ++ [.release l]) = some s.held := by
        rw [nest_append, nested, Option.bind_some, nest, if_pos rfl, nest]
      refine .between (by rw [parts, List.append_assoc]; rfl) nested' rfl ?_ kept
      rw [saved, off, Bool.or_false]

/-- Every state on the way has a place in the code. -/
theorem Position.reached {events : List (State.Event ι)} (starts : s.Starts calls)
    (bracketed : (nest [] calls).isSome) (run : Run State.Step s events t) :
    Position s.irqs calls t := by
  refine run.invariant (P := fun t => Position s.irqs calls t) ?_ ?_
  · refine .between (show calls = [] ++ s.calls from starts.calls.symm) (by rw [starts.held, nest])
      starts.code ?_ ?_
    · rw [starts.held]
      rfl
    · rw [starts.held]
      trivial
  · intro u event v position stepped
    cases event with
    | step => exact position.step bracketed stepped
    | other l lock =>
        obtain ⟨free, changed⟩ := Option.ite_none_left_eq_some.mp stepped
        obtain rfl := Option.some.inj changed
        exact position.other free

theorem Position.holding (position : Position irqs calls s) {l : ι} (member : l ∈ s.held) :
    s.irqs = false ∧ (s.locks l).lock = 1 := by
  have some_lock : flag irqs s.held = false := by
    cases has : s.held with
    | nil => exact absurd (has ▸ member) List.not_mem_nil
    | cons last held => rfl
  cases position with
  | between _ _ _ on kept | acquire _ _ _ _ on kept | found _ _ _ _ on _ kept =>
      exact ⟨on.trans some_lock, kept.locked member⟩
  | disabled _ _ _ _ off _ kept | stored _ _ _ off _ kept => exact ⟨off, kept.locked member⟩
  | release _ _ has _ off kept | loaded _ _ has _ off _ kept =>
      exact ⟨off, kept.locked (has ▸ member)⟩
  | taken _ _ _ has _ off _ locked kept =>
      refine ⟨off, ?_⟩
      rcases List.mem_cons.mp (has ▸ member) with rfl | later
      · exact locked
      · exact kept.locked later

/-- The locks that are held are those that the calls so far have left. -/
theorem Position.past (position : Position irqs calls s) :
    ∃ past, s.Past calls past ∧ nest [] past = some s.held := by
  cases position with
  | @between past parts nested code on kept => exact ⟨past, .between parts code, nested⟩
  | @acquire past l parts nested free code on kept =>
      refine ⟨past, .unwritten parts (code ▸ List.suffix_refl _) ?_, nested⟩
      rw [code]
      simp [Call.code, Call.write]
  | @found past l parts nested free code on saved kept =>
      refine ⟨past, .unwritten parts ?_ ?_, nested⟩ <;> rw [code]
      · exact List.suffix_cons ..
      · simp [Call.write]
  | @disabled past l parts nested free code off saved kept =>
      refine ⟨past, .unwritten parts ?_ ?_, nested⟩ <;> rw [code]
      · exact ⟨[.localIrqState, .disableLocalIrqs], rfl⟩
      · simp [Call.write]
  | @taken past l held parts nested free has code off saved locked kept =>
      have left : nest [] (past ++ [.acquire l]) = some s.held := by
        rw [nest_append, nested, has, Option.bind_some, nest, if_neg free, nest]
      refine ⟨_, .behind parts ?_ ?_ ?_, left⟩ <;> rw [code]
      · exact ⟨[.localIrqState, .disableLocalIrqs, .compareAndSwap l], rfl⟩
      · exact List.cons_ne_nil _ _
      · simp [Call.write]
  | @release past l held parts nested has code off kept =>
      refine ⟨past, .unwritten parts (code ▸ List.suffix_refl _) ?_, has ▸ nested⟩
      rw [code]
      simp [Call.code, Call.write]
  | @loaded past l held parts nested has code off saved kept =>
      refine ⟨past, .unwritten parts ?_ ?_, has ▸ nested⟩ <;> rw [code]
      · exact List.suffix_cons ..
      · simp [Call.write]
  | @stored past l parts nested code off saved kept =>
      have left : nest [] (past ++ [.release l]) = some s.held := by
        rw [nest_append, nested, Option.bind_some, nest, if_pos rfl, nest]
      refine ⟨_, .behind parts ?_ ?_ ?_, left⟩ <;> rw [code]
      · exact ⟨[.load l, .store l], rfl⟩
      · exact List.cons_ne_nil _ _
      · simp [Call.write]

/-- Between two calls the locks that the calls left are held. -/
theorem Position.resting (position : Position irqs calls s) (code : s.code = []) :
    ∃ past, calls = past ++ s.calls ∧ nest [] past = some s.held ∧ s.irqs = flag irqs s.held := by
  cases position with
  | between parts nested _ on _ => exact ⟨_, parts, nested, on⟩
  | acquire _ _ _ there | found _ _ _ there | disabled _ _ _ there | taken _ _ _ _ there
  | release _ _ _ there
  | loaded _ _ _ there | stored _ _ there => cases code.symm.trans there

/-- The processor goes on, unless it waits for a lock that it does not hold. -/
theorem Position.progress (position : Position irqs calls s)
    (unfinished : s.code ≠ [] ∨ s.calls ≠ []) :
    (∃ t, s.Step .step t) ∨ ∃ l ∉ s.held, s.code.head? = some (.compareAndSwap l) ∧
    (s.locks l).lock ≠ 0 := by
  simp only [State.Step, State.after?]
  cases position with
  | between _ _ code _ _ =>
      rw [code] at unfinished ⊢
      obtain ⟨call, later, behind⟩ :=
        List.exists_cons_of_ne_nil (unfinished.resolve_left (not_not.mpr rfl))
      rw [behind]
      exact .inl ⟨_, rfl⟩
  | @disabled past l _ _ free code _ _ _ =>
      rw [code]
      by_cases open_lock : (s.locks l).lock = 0
      · exact .inl ⟨_, if_pos open_lock⟩
      · exact .inr ⟨l, free, rfl, open_lock⟩
  | acquire _ _ _ code | found _ _ _ code | taken _ _ _ _ code | release _ _ _ code
  | loaded _ _ _ code
  | stored _ _ code =>
      rw [code]
      exact .inl ⟨_, rfl⟩

/-- What is acquired around well bracketed calls and released behind them. -/
theorem nest_around {held : List ι} {l : ι} {inner : List (Call ι)} (free : l ∉ held)
    (balanced : nest (l :: held) inner = some (l :: held)) :
    nest held (.acquire l :: (inner ++ [.release l])) = some held := by
  rw [nest, if_neg free, nest_append, balanced, Option.bind_some, nest, if_pos rfl, nest]

/-- Of well bracketed calls those locks are held that the calls so far have left. Interrupts
    are off while one is, and behind a `release` the interrupt flag is what it was in front
    of the `acquire` that belongs to it. The processor waits only for locks that it does not
    hold. -/
theorem irqs_nested {u : State ι} {before after : List (State.Event ι)} (starts : s.Starts calls)
    (bracketed : (nest [] calls).isSome) (first : Run State.Step s before u)
    (second : Run State.Step u after t) :
    (∃ past, t.Past calls past ∧ nest [] past = some t.held) ∧
    (∀ l ∈ t.held, t.irqs = false ∧ (t.locks l).lock = 1) ∧
    (t.code = [] → t.irqs = flag s.irqs t.held) ∧
    (∀ l inner, u.code = [] → u.calls = .acquire l :: (inner ++ .release l :: t.calls) →
      nest (l :: u.held) inner = some (l :: u.held) → t.code = [] →
      t.irqs = u.irqs ∧ t.held = u.held) ∧
    (t.code ≠ [] ∨ t.calls ≠ [] → (∃ v, t.Step .step v) ∨
      ∃ l ∉ t.held, t.code.head? = some (.compareAndSwap l) ∧ (t.locks l).lock ≠ 0) := by
  have early := Position.reached starts bracketed first
  have late := Position.reached starts bracketed (first.trans second)
  refine ⟨late.past, fun l => late.holding, fun resting => ?_,
    fun l inner resting parts balanced resting' => ?_, late.progress⟩
  · obtain ⟨-, -, -, on⟩ := late.resting resting
    exact on
  obtain ⟨past, split, nested, on⟩ := early.resting resting
  obtain ⟨past', split', nested', on'⟩ := late.resting resting'
  have free : l ∉ u.held := nest_acquire (nest_next bracketed (parts ▸ split) nested)
  have body : u.calls = (.acquire l :: (inner ++ [.release l])) ++ t.calls := by
    rw [parts, List.cons_append, List.append_assoc]
    rfl
  have same : past' = past ++ .acquire l :: (inner ++ [.release l]) := by
    rw [split, body, ← List.append_assoc] at split'
    exact (List.append_cancel_right split').symm
  rw [same, nest_append, nested, Option.bind_some, nest_around free balanced] at nested'
  have held := Option.some.inj nested'
  exact ⟨by rw [on, on', held], held.symm⟩

/-- Two locks inside each other, with interrupts on. -/
def twoLocks : State Nat where
  irqs := true
  saved := false
  locks := fun _ => {}
  held := []
  code := []
  calls := [.acquire 0, .acquire 1, .release 1, .release 0]

theorem irqs_nested_twice :
    ∃ t, Run State.Step twoLocks (List.replicate 18 .step) t ∧ t.calls = [] ∧ t.irqs = true ∧
    t.held = [] := by
  have ends : ((List.replicate 18 State.Event.step).foldlM State.after? twoLocks).any
      (fun t => t.code == [] && t.calls == []) = true := by decide +kernel
  obtain ⟨t, replayed, checked⟩ := (Option.any_eq_true _ _).mp ends
  simp only [Bool.and_eq_true, beq_iff_eq] at checked
  have run : Run State.Step twoLocks _ t := Run.of_foldlM replayed
  have parts :
      twoLocks.calls = .acquire 0 :: ([.acquire 1, .release 1] ++ .release 0 :: t.calls) := by
    rw [checked.2]
    rfl
  obtain ⟨irqs, held⟩ :=
    (irqs_nested ⟨rfl, rfl, rfl⟩ (by decide) (.start twoLocks) run).2.2.2.1 0 _ rfl parts
    (by decide) checked.1
  exact ⟨t, run, checked.2, irqs, held⟩

end Mykonos.Tasks.Nesting
