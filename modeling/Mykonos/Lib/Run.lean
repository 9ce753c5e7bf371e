import Mathlib.Data.List.Basic

/-! # Runs of labelled transition relations

A run is a finite sequence of labelled steps. Invariants are proved once per
step and lifted to every state a run can reach.
-/

namespace Mykonos.Lib

/-- The states joined by a finite sequence of labelled steps. Runs grow at the
    end, so every prefix of a run is a run. -/
inductive Run {σ α : Type*} (step : σ → α → σ → Prop) : σ → List α → σ → Prop where
  | start (s : σ) : Run step s [] s
  | next {s t u : σ} {labels : List α} {label : α} :
      Run step s labels t → step t label u → Run step s (labels ++ [label]) u

namespace Run

variable {σ α : Type*} {step : σ → α → σ → Prop}

theorem single {s t : σ} {label : α} (h : step s label t) : Run step s [label] t :=
  .next (.start s) h

theorem trans {s t u : σ} {first second : List α}
    (left : Run step s first t) (right : Run step t second u) : Run step s (first ++ second) u := by
  induction right with
  | start => simpa only [List.append_nil] using left
  | next _ last ih => simpa only [List.append_assoc] using Run.next ih last

/-- Every state on the way is reached by a run. -/
theorem split {s t : σ} {labels first second : List α} (run : Run step s labels t)
    (parts : labels = first ++ second) :
    ∃ mid, Run step s first mid ∧ Run step mid second t := by
  induction run generalizing second with
  | start =>
      obtain ⟨rfl, rfl⟩ := List.append_eq_nil_iff.mp parts.symm
      exact ⟨_, .start _, .start _⟩
  | next before last ih =>
      rcases List.eq_nil_or_concat second with rfl | ⟨init, other, rfl⟩
      · rw [List.append_nil] at parts
        exact ⟨_, parts ▸ .next before last, .start _⟩
      · rw [List.concat_eq_append, ← List.append_assoc] at parts
        obtain ⟨earlier, same⟩ := List.append_inj' parts rfl
        cases same
        obtain ⟨mid, left, right⟩ := ih earlier
        exact ⟨mid, left, List.concat_eq_append ▸ right.next last⟩

theorem eq_of_nil {s t : σ} {labels : List α} (run : Run step s labels t) (empty : labels = []) :
    s = t := by
  cases run with
  | start => rfl
  | next _ _ => simp at empty

theorem step_of_single {s t : σ} {label : α} {labels : List α} (run : Run step s labels t)
    (one : labels = [label]) :
    step s label t := by
  cases run with
  | start => cases one
  | next before last =>
      rw [← List.nil_append [label]] at one
      obtain ⟨empty, same⟩ := List.append_inj' one rfl
      cases same
      exact before.eq_of_nil empty ▸ last

theorem uncons {s t : σ} {label : α} {labels : List α} (run : Run step s (label :: labels) t) :
    ∃ mid, step s label mid ∧ Run step mid labels t := by
  have parts : label :: labels = [label] ++ labels := rfl
  obtain ⟨mid, first, rest⟩ := run.split parts
  exact ⟨mid, first.step_of_single rfl, rest⟩

/-- A property of the first state that every step keeps holds along the run. -/
theorem invariant {P : σ → Prop} {s t : σ} {labels : List α} (run : Run step s labels t)
    (initial : P s) (kept : ∀ s label t, P s → step s label t → P t) : P t := by
  induction run with
  | start => exact initial
  | next _ last ih => exact kept _ _ _ ih last

/-- A run all of whose labels meet a guard is a run of the guarded relation. -/
theorem guarded {Q : α → Prop} {s t : σ} {labels : List α} (run : Run step s labels t)
    (allowed : ∀ label ∈ labels, Q label) :
    Run (fun s label t => Q label ∧ step s label t) s labels t := by
  induction run with
  | start => exact .start _
  | next _ last ih =>
      exact .next (ih fun label member => allowed label (by simp [member]))
        ⟨allowed _ (by simp), last⟩

theorem mono {other : σ → α → σ → Prop} {s t : σ} {labels : List α} (run : Run step s labels t)
    (weaker : ∀ s label t, step s label t → other s label t) : Run other s labels t := by
  induction run with
  | start => exact .start _
  | next _ last ih => exact .next ih (weaker _ _ _ last)

/-- A run of a partial function, computed step by step. -/
theorem of_foldlM {f : σ → α → Option σ} {s t : σ} {labels : List α}
    (h : labels.foldlM f s = some t) :
    Run (fun s label t => f s label = some t) s labels t := by
  induction labels generalizing s with
  | nil =>
      obtain rfl := Option.some.inj h
      exact .start _
  | cons label rest ih =>
      obtain ⟨mid, first, later⟩ := Option.bind_eq_some_iff.mp h
      exact (single first).trans (ih later)

/-- The same for a run in which every step meets a condition on the state before it. -/
theorem of_foldlM_guarded {f : σ → α → Option σ} {G : σ → α → Prop}
    [∀ s label, Decidable (G s label)] {s t : σ} {labels : List α}
    (h : labels.foldlM (fun s label => if G s label then f s label else none) s = some t) :
    Run (fun s label t => G s label ∧ f s label = some t) s labels t := by
  refine (of_foldlM h).mono fun _ _ _ taken => ?_
  simpa [Option.ite_none_right_eq_some] using taken

end Run

end Mykonos.Lib
