import Mathlib.Logic.Function.Basic
import Mykonos.Lib.Run

/-! # Histories of shared objects

Several callers use one object, each making a call, having it served and returning from it.
Outside only the calls and the returns are seen. A machine that takes many steps for a call
stands for one that serves it at once when every history of the first is one of the second.
-/

namespace Mykonos.Lib

variable {σ τ α β ε : Type*}

/-- What is seen of a run. -/
def history (visible : α → Option ε) (labels : List α) : List ε :=
  labels.filterMap visible

@[simp] theorem history_nil (visible : α → Option ε) : history visible [] = [] := rfl

theorem history_append (visible : α → Option ε) (first second : List α) :
    history visible (first ++ second) = history visible first ++ history visible second :=
  List.filterMap_append

/-- Each event may follow what was seen before it. -/
def Proper (Follows : List ε → ε → Prop) (seen : List ε) : Prop :=
  ∀ before event after, seen = before ++ event :: after → Follows before event

namespace Proper

variable {Follows : List ε → ε → Prop} {seen more : List ε}

theorem left (h : Proper Follows (seen ++ more)) : Proper Follows seen := by
  intro before event after parts
  apply h before event (after ++ more)
  rw [parts, List.append_assoc, List.cons_append]

theorem last {event : ε} (h : Proper Follows (seen ++ [event])) : Follows seen event :=
  h seen event [] rfl

theorem nil : Proper Follows [] := by
  intro before event after parts
  simp at parts

theorem snoc {event : ε} (h : Proper Follows seen) (next : Follows seen event) :
    Proper Follows (seen ++ [event]) := by
  intro before other after parts
  rcases List.eq_nil_or_concat after with rfl | ⟨init, final, rfl⟩
  · obtain ⟨rfl, same⟩ := List.append_inj' parts rfl
    cases same
    exact next
  · rw [List.concat_eq_append, ← List.cons_append, ← List.append_assoc] at parts
    obtain ⟨rfl, -⟩ := List.append_inj' parts rfl
    exact h before other init rfl

end Proper

section Simulation

variable {step : σ → α → σ → Prop} {step' : τ → β → τ → Prop} {visible : α → Option ε}
  {visible' : β → Option ε} {Follows : List ε → ε → Prop} {R : List ε → σ → τ → Prop}

/-- A relation between two machines that each step of the first keeps, with steps of the
    second that show the same, carries the histories of the first over to the second. The
    relation may depend on what was seen, and the callers keep to what may follow. -/
theorem Run.simulate
    (kept : ∀ seen s t label s', R seen s t → step s label s' →
      (∀ e ∈ visible label, Follows seen e) → ∃ labels' t', Run step' t labels' t' ∧
        history visible' labels' = history visible [label] ∧
        R (seen ++ history visible [label]) s' t')
    {s s' : σ} {t : τ} {seen : List ε} {labels : List α} (run : Run step s labels s')
    (related : R seen s t) (proper : Proper Follows (seen ++ history visible labels)) :
    ∃ labels' t', Run step' t labels' t' ∧ history visible' labels' = history visible labels ∧
      R (seen ++ history visible labels) s' t' := by
  induction run with
  | start => exact ⟨[], t, .start t, rfl, by simpa using related⟩
  | @next mid final labels label before last ih =>
      rw [history_append, ← List.append_assoc] at proper ⊢
      obtain ⟨labels', u, run', same, related'⟩ := ih proper.left
      have follows : ∀ e ∈ visible label, Follows (seen ++ history visible labels) e := by
        intro e shown
        have one : history visible [label] = [e] := List.filterMap_cons_some shown
        rw [one] at proper
        exact proper.last
      obtain ⟨more, v, later, same', related''⟩ := kept _ _ _ _ _ related' last follows
      refine ⟨labels' ++ more, v, run'.trans later, ?_, related''⟩
      rw [history_append, same, same', ← history_append]

end Simulation

section Objects

variable {κ ρ ν : Type*}

/-- What a caller of an object sees of it. -/
inductive Event (κ ρ ν : Type*) where
  | calls (caller : κ) (request : ρ)
  | returns (caller : κ) (reply : ν)
  deriving Repr, DecidableEq

/-- Where a caller is with its call. -/
inductive Pending (ρ ν : Type*) where
  | idle
  | called (request : ρ)
  | answered (reply : ν)
  deriving Repr, DecidableEq

/-- An object that serves each request at once, and its callers. -/
structure Atomic (κ σ ρ ν : Type*) where
  object : σ
  pending : κ → Pending ρ ν

/-- The object with no call made yet. -/
def Atomic.fresh (κ ρ ν : Type*) (object : σ) : Atomic κ σ ρ ν :=
  ⟨object, fun _ => .idle⟩

/-- A request is served somewhere between its call and its return, all of it in one step that
    is not seen. -/
inductive Atomic.Step [DecidableEq κ] (serve : σ → ρ → σ × ν) :
    Atomic κ σ ρ ν → Option (Event κ ρ ν) → Atomic κ σ ρ ν → Prop where
  | calls {s : Atomic κ σ ρ ν} {caller : κ} (request : ρ) (free : s.pending caller = .idle) :
      Step serve s (some (.calls caller request)) ⟨s.object,
        Function.update s.pending caller (.called request)⟩
  | serves {s : Atomic κ σ ρ ν} {caller : κ} {request : ρ}
      (waiting : s.pending caller = .called request) :
      Step serve s none
        ⟨(serve s.object request).1,
          Function.update s.pending caller (.answered (serve s.object request).2)⟩
  | returns {s : Atomic κ σ ρ ν} {caller : κ} {reply : ν}
      (ready : s.pending caller = .answered reply) :
      Step serve s (some (.returns caller reply)) ⟨s.object, Function.update s.pending caller .idle⟩

/-- The calls and returns are those of an object that serves each request at once, and comes
    to the value given. -/
def Linearizable [DecidableEq κ] (serve : σ → ρ → σ × ν) (start : σ) (seen : List (Event κ ρ ν))
    (final : σ) : Prop :=
  ∃ labels pending, Run (Atomic.Step serve) (.fresh κ ρ ν start) labels ⟨final, pending⟩ ∧
    history id labels = seen

end Objects

end Mykonos.Lib
