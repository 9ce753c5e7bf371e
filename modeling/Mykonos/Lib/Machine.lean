import Mathlib.Logic.Basic
import Mathlib.Tactic.TypeStar

/-! # Machines with answers

A machine takes one operation after the other and answers each. One machine stands for
another when a relation between their states is kept by every operation that may be made,
with the same answer on both sides.
-/

namespace Mykonos.Lib

variable {σ τ α β : Type*}

/-- The state after the operations, and their answers. -/
def answers (step : σ → α → σ × β) : σ → List α → σ × List β
  | s, [] => (s, [])
  | s, op :: ops =>
      let rest := answers step (step s op).1 ops
      (rest.1, (step s op).2 :: rest.2)

/-- Each operation may be made in the state that it is made in. -/
def Allowed (step : σ → α → σ × β) (may : σ → α → Prop) : σ → List α → Prop
  | _, [] => True
  | s, op :: ops => may s op ∧ Allowed step may (step s op).1 ops

section Simulation

variable {step : σ → α → σ × β} {step' : τ → α → τ × β} {may : τ → α → Prop} {R : σ → τ → Prop}

theorem answers_simulate
    (kept : ∀ s t op, R s t → may t op → (step s op).2 = (step' t op).2 ∧
      R (step s op).1 (step' t op).1)
    {ops : List α} {s : σ} {t : τ} (related : R s t) (allowed : Allowed step' may t ops) :
    (answers step s ops).2 = (answers step' t ops).2 ∧
    R (answers step s ops).1 (answers step' t ops).1 := by
  induction ops generalizing s t with
  | nil => exact ⟨rfl, related⟩
  | cons op ops ih =>
      obtain ⟨now, later⟩ := allowed
      obtain ⟨same, next⟩ := kept s t op related now
      obtain ⟨answered, final⟩ := ih next later
      exact ⟨congrArg₂ List.cons same answered, final⟩

end Simulation

end Mykonos.Lib
