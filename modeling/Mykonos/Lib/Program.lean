import Mathlib.Tactic.Common

/-! # Programs that make calls

A program is a tree of calls: each call is answered by a number, and what comes next
depends on the answer. The same program can be followed with given answers, which
shows the calls it makes, or be run on a machine that carries the calls out.
-/

namespace Mykonos.Lib

/-- `later` is a program that has used up its fuel before coming to an end. -/
inductive Program (C α : Type) where
  | done (a : α)
  | later
  | call (c : C) (next : Nat → Program C α)

namespace Program

variable {C α β : Type}

def bind : Program C α → (α → Program C β) → Program C β
  | done a, f => f a
  | later, _ => later
  | call c next, f => call c fun answer => (next answer).bind f

instance : Monad (Program C) where
  pure := done
  bind := bind

def perform (c : C) : Program C Nat := call c done

/-- A counted loop that passes on a state. -/
def loop {σ : Type} (body : Nat → σ → Program C σ) : Nat → Nat → σ → Program C σ
  | 0, _, s => pure s
  | count + 1, i, s => body i s >>= loop body count (i + 1)

/-! ## Following a program with given answers -/

section Answers

variable (answers : C → Nat)

/-- The result, if the program comes to one. -/
def value : Program C α → Option α
  | done a => some a
  | later => none
  | call c next => (next (answers c)).value

/-- The calls, in order. -/
def calls : Program C α → List C
  | done _ => []
  | later => []
  | call c next => c :: (next (answers c)).calls

@[simp] theorem value_pure (a : α) : (pure a : Program C α).value answers = some a := rfl

@[simp] theorem value_later : (later : Program C α).value answers = none := rfl

@[simp] theorem value_perform (c : C) : (perform c).value answers = some (answers c) := rfl

@[simp] theorem value_bind (x : Program C α) (f : α → Program C β) :
    (x >>= f).value answers = (x.value answers).bind fun a => (f a).value answers := by
  induction x with
  | done a => rfl
  | later => rfl
  | call c next ih => exact ih (answers c)

@[simp] theorem calls_pure (a : α) : (pure a : Program C α).calls answers = [] := rfl

@[simp] theorem calls_later : (later : Program C α).calls answers = [] := rfl

@[simp] theorem calls_perform (c : C) : (perform c).calls answers = [c] := rfl

theorem mem_calls_bind {c : C} {x : Program C α} {f : α → Program C β} :
    c ∈ (x >>= f).calls answers ↔
      c ∈ x.calls answers ∨ ∃ a, x.value answers = some a ∧ c ∈ (f a).calls answers := by
  induction x with
  | done a =>
      show c ∈ (f a).calls answers ↔ c ∈ [] ∨ ∃ b, some a = some b ∧ c ∈ (f b).calls answers
      simp
  | later => simp [calls, value, Bind.bind, bind]
  | call d next ih =>
      have rest := ih (answers d)
      show c ∈ d :: ((next (answers d)) >>= f).calls answers ↔ _
      rw [List.mem_cons, rest]
      simp only [calls, value, List.mem_cons, or_assoc]

/-- Every call that is made has the property. -/
def All (P : C → Prop) (x : Program C α) : Prop := ∀ c ∈ x.calls answers, P c

variable {answers} {P : C → Prop}

@[simp] theorem all_pure (a : α) : (pure a : Program C α).All answers P := by simp [All]

@[simp] theorem all_later : (later : Program C α).All answers P := by simp [All]

@[simp] theorem all_perform (c : C) : (perform c).All answers P ↔ P c := by simp [All]

@[simp] theorem all_bind (x : Program C α) (f : α → Program C β) :
    (x >>= f).All answers P ↔ x.All answers P ∧ ∀ a, x.value answers = some a →
    (f a).All answers P := by
  simp only [All, mem_calls_bind]
  constructor
  · intro all
    exact ⟨fun c made => all c (.inl made), fun a result c made => all c (.inr ⟨a, result, made⟩)⟩
  · rintro ⟨first, second⟩ c (made | ⟨a, result, made⟩)
    · exact first c made
    · exact second a result c made

section Loops

variable {σ : Type} {body : Nat → σ → Program C σ} {count i : Nat} {s : σ}

theorem value_loop_isSome (ends : ∀ j s, ((body j s).value answers).isSome) :
    ((loop body count i s).value answers).isSome := by
  induction count generalizing i s with
  | zero => rfl
  | succ count ih =>
      obtain ⟨s', found⟩ := Option.isSome_iff_exists.mp (ends i s)
      rw [loop, value_bind, found]
      exact ih

theorem all_loop (all : ∀ j < count, ∀ s, (body (i + j) s).All answers P) :
    (loop body count i s).All answers P := by
  induction count generalizing i s with
  | zero => exact all_pure s
  | succ count ih =>
      rw [loop, all_bind]
      refine ⟨all 0 (Nat.succ_pos count) s, fun s' _ => ih fun j below => ?_⟩
      rw [Nat.add_assoc, Nat.add_comm 1]
      exact all (j + 1) (Nat.succ_lt_succ below)

/-- The loop comes to every round. -/
theorem all_of_all_loop (ends : ∀ j s, ((body j s).value answers).isSome)
    (all : (loop body count i s).All answers P) {j : Nat} (below : j < count) :
    ∃ s, (body (i + j) s).All answers P := by
  induction count generalizing i s j with
  | zero => exact absurd below (Nat.not_lt_zero j)
  | succ count ih =>
      rw [loop, all_bind] at all
      cases j with
      | zero => exact ⟨s, all.1⟩
      | succ j =>
          obtain ⟨s', found⟩ := Option.isSome_iff_exists.mp (ends i s)
          rw [← Nat.add_assoc, Nat.add_right_comm]
          exact ih (all.2 s' found) (Nat.lt_of_succ_lt_succ below)

end Loops

/-- The second program has the result of the first, if that comes to one. -/
def Extends (answers : C → Nat) (x y : Program C α) : Prop :=
  ∀ a, x.value answers = some a → y.value answers = some a

theorem Extends.refl (x : Program C α) : Extends answers x x := fun _ result => result

theorem Extends.later (x : Program C α) : Extends answers .later x := fun _ result => nomatch result

theorem Extends.bind {x y : Program C α} {f g : α → Program C β} (first : Extends answers x y)
    (second : ∀ a, Extends answers (f a) (g a)) : Extends answers (x >>= f) (y >>= g) := by
  intro b result
  rw [value_bind] at result ⊢
  obtain ⟨a, found, rest⟩ := Option.bind_eq_some_iff.mp result
  rw [first a found]
  exact second a b rest

/-- Only the answers to the calls that are made matter. -/
theorem value_congr {answers' : C → Nat} {x : Program C α}
    (same : x.All answers fun c => answers' c = answers c) :
    x.value answers' = x.value answers := by
  induction x with
  | done a => rfl
  | later => rfl
  | call c next ih =>
      have first : answers' c = answers c := same c List.mem_cons_self
      rw [value, value, first]
      exact ih (answers c) fun d made => same d (List.mem_cons_of_mem c made)

end Answers

/-! ## Running a program -/

section Running

variable {m : Type → Type} [Monad m] (carry : C → m Nat)

/-- Carry out the calls one after the other. -/
def exec : Program C α → m (Option α)
  | done a => pure (some a)
  | later => pure none
  | call c next => do
      let answer ← carry c
      (next answer).exec

end Running

section States

variable {σ : Type} (carry : C → StateT σ Option Nat)

/-- Carried out from the first state, the program comes to the result in the second. -/
def Runs (x : Program C α) (s : σ) (a : α) (t : σ) : Prop := x.exec carry s = some (some a, t)

variable {carry} {s t : σ} {a : α}

@[simp] theorem runs_pure {b : α} : (pure a : Program C α).Runs carry s b t ↔ a = b ∧ s = t := by
  show some (some a, s) = some (some b, t) ↔ _
  simp

@[simp] theorem not_runs_later : ¬(later : Program C α).Runs carry s a t := by
  show ¬some (none, s) = some (some a, t)
  simp

theorem runs_call {c : C} {next : Nat → Program C α} :
    (call c next).Runs carry s a t ↔ ∃ answer u, carry c s = some (answer, u) ∧
    (next answer).Runs carry u a t := by
  show ((carry c s).bind fun step => (next step.1).exec carry step.2) = some (some a, t) ↔ _
  simp only [Option.bind_eq_some_iff, Prod.exists, Runs]

@[simp] theorem runs_perform {c : C} {answer : Nat} :
    (perform c).Runs carry s answer t ↔ carry c s = some (answer, t) := by
  rw [perform, runs_call]
  constructor
  · rintro ⟨answer', u, carried, rest⟩
    obtain ⟨rfl, rfl⟩ := runs_pure.mp rest
    exact carried
  · exact fun carried => ⟨answer, t, carried, runs_pure.mpr ⟨rfl, rfl⟩⟩

@[simp] theorem runs_bind {x : Program C α} {f : α → Program C β} {b : β} :
    (x >>= f).Runs carry s b t ↔ ∃ a u, x.Runs carry s a u ∧ (f a).Runs carry u b t := by
  induction x generalizing s with
  | done a =>
      show (f a).Runs carry s b t ↔ ∃ a' u, (pure a : Program C α).Runs carry s a' u ∧
        (f a').Runs carry u b t
      simp
  | later =>
      show (later : Program C β).Runs carry s b t ↔
        ∃ a u, (later : Program C α).Runs carry s a u ∧ _
      simp
  | call c next ih =>
      show (call c fun answer => next answer >>= f).Runs carry s b t ↔ _
      simp only [runs_call, ih]
      constructor
      · rintro ⟨answer, u, carried, a, v, first, second⟩
        exact ⟨a, v, ⟨answer, u, carried, first⟩, second⟩
      · rintro ⟨a, v, ⟨answer, u, carried, first⟩, second⟩
        exact ⟨answer, u, carried, a, v, first, second⟩

/-- Runs are found by carrying the program out. -/
theorem exists_runs {x : Program C α} {test : α → Bool} {outcome : Bool}
    (ends : ((x.exec carry s).map fun step => step.1.map test) = some (some outcome)) :
    ∃ a t, x.Runs carry s a t ∧ test a = outcome := by
  obtain ⟨⟨result, t⟩, done, tested⟩ := Option.map_eq_some_iff.mp ends
  obtain ⟨a, rfl, passed⟩ := Option.map_eq_some_iff.mp tested
  exact ⟨a, t, done, passed⟩

end States

end Program

end Mykonos.Lib
