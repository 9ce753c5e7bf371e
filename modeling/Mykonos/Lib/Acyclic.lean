import Mathlib.Data.Finite.Prod
import Mathlib.Data.Fintype.Card
import Mathlib.Logic.Relation

/-! # Relations without cycles

A relation that grows only by edges that cannot lead back stays without cycles. Where
only finitely many elements can be reached and none of them lies on a cycle, every way
comes to an end.
-/

namespace Mykonos.Lib

open Relation

variable {α : Type*} {R R' : α → α → Prop}

def Acyclic (R : α → α → Prop) : Prop :=
  ∀ a, ¬TransGen R a a

/-- A way back is one of old edges if no new edge leads back. -/
theorem transGen_old (new : ∀ a b, R' a b → R a b ∨ ¬ReflTransGen R' b a) {a b : α}
    (path : TransGen R' a b) (back : ReflTransGen R' b a) : TransGen R a b := by
  induction path with
  | single edge => exact .single ((new _ _ edge).resolve_right (not_not_intro back))
  | tail path edge ih =>
      have closes := back.trans path.to_reflTransGen
      exact (ih (.head edge back)).tail ((new _ _ edge).resolve_right (not_not_intro closes))

theorem Acyclic.grow (h : Acyclic R) (new : ∀ a b, R' a b → R a b ∨ ¬ReflTransGen R' b a) :
    Acyclic R' :=
  fun a cycle => h a (transGen_old new cycle .refl)

/-- Nothing is reached from where no edge leaves. -/
theorem not_reach_of_sink {a b : α} (sink : ∀ c, ¬R b c) (apart : b ≠ a) : ¬ReflTransGen R b a := by
  intro path
  cases path.cases_head with
  | inl same => exact apart same
  | inr step =>
      obtain ⟨c, edge, _⟩ := step
      exact sink c edge

/-- With finitely many targets and no cycle within reach, every way from an element
    ends. -/
theorem acc_of_no_cycle {targets : Set α} [Finite targets]
    (closed : ∀ a b, R a b → b ∈ targets) {a : α}
    (noCycle : ∀ b, ReflTransGen R a b → ¬TransGen R b b) : Acc (flip R) a := by
  let ahead : {b : targets // ReflTransGen R a b} → {b : targets // ReflTransGen R a b} → Prop :=
    fun y x => TransGen R x.1.1 y.1.1
  have trans : IsTrans _ ahead := ⟨fun _ _ _ first second => second.trans first⟩
  have irrefl : Std.Irrefl ahead := ⟨fun x => noCycle x.1.1 x.2⟩
  have wellFounded : WellFounded ahead := Finite.wellFounded_of_trans_of_irrefl ahead
  have reached : ∀ x : {b : targets // ReflTransGen R a b}, Acc (flip R) x.1.1 := by
    intro x
    induction x using wellFounded.induction with
    | h x ih => exact ⟨_, fun c edge => ih ⟨⟨c, closed _ c edge⟩, x.2.tail edge⟩ (.single edge)⟩
  exact ⟨_, fun c edge => reached ⟨⟨c, closed a c edge⟩, .single edge⟩⟩

end Mykonos.Lib
