import Mathlib.Data.List.Pairwise
import Mathlib.Data.List.Count
import Mathlib.Data.Set.Card
import Mathlib.Order.CompletePartialOrder
import Mathlib.Order.Interval.Set.Basic

/-! # Lists of cells as covers of a point set

A list of cells is read through the number of cells that hold each point. The
reading is additive, so an operation that splits, joins or permutes cells is
specified by one equation, and pairwise disjointness is the bound one.
-/

namespace Mykonos.Lib

section Cover

variable {α β : Type*} (cells : β → Set α)

open Classical in
/-- How many cells of the list hold the point. -/
noncomputable def multiplicity (l : List β) (x : α) : Nat :=
  (l.map fun b => if x ∈ cells b then 1 else 0).sum

/-- The points held by some cell. -/
def covered (l : List β) : Set α := {x | ∃ b ∈ l, x ∈ cells b}

@[simp] theorem multiplicity_nil (x : α) : multiplicity cells [] x = 0 := rfl

open Classical in
@[simp] theorem multiplicity_cons (b : β) (l : List β) (x : α) :
    multiplicity cells (b :: l) x = (if x ∈ cells b then 1 else 0) + multiplicity cells l x := by
  simp [multiplicity]

@[simp] theorem multiplicity_append (l k : List β) (x : α) :
    multiplicity cells (l ++ k) x = multiplicity cells l x + multiplicity cells k x := by
  simp [multiplicity]

@[simp] theorem covered_nil : covered cells [] = ∅ := by
  simp [covered]

@[simp] theorem covered_cons (b : β) (l : List β) :
    covered cells (b :: l) = cells b ∪ covered cells l := by
  ext x
  simp [covered]

theorem covered_congr {other : β → Set α} {l : List β} (same : ∀ b ∈ l, cells b = other b) :
    covered cells l = covered other l := by
  ext x
  exact exists_congr fun b => and_congr_right fun member => by rw [same b member]

theorem multiplicity_pos {l : List β} {x : α} :
    0 < multiplicity cells l x ↔ x ∈ covered cells l := by
  induction l with
  | nil => simp
  | cons b l ih =>
      by_cases inside : x ∈ cells b
      · simp [inside]
      · simpa [inside] using ih

theorem multiplicity_eq_zero {l : List β} {x : α} :
    multiplicity cells l x = 0 ↔ x ∉ covered cells l := by
  rw [← multiplicity_pos, Nat.pos_iff_ne_zero, not_not]

/-- No point is held twice exactly when the cells are pairwise disjoint. -/
theorem pairwise_disjoint_iff {l : List β} :
    l.Pairwise (fun b c => Disjoint (cells b) (cells c)) ↔ ∀ x, multiplicity cells l x ≤ 1 := by
  induction l with
  | nil => simp
  | cons b l ih =>
      rw [List.pairwise_cons, ih]
      constructor
      · rintro ⟨apart, rest⟩ x
        by_cases inside : x ∈ cells b
        · have outside : x ∉ covered cells l := by
            rintro ⟨c, member, held⟩
            exact Set.disjoint_left.mp (apart c member) inside held
          simp [inside, (multiplicity_eq_zero cells).mpr outside]
        · simpa [inside] using rest x
      · intro single
        refine ⟨fun c member => Set.disjoint_left.mpr fun x inside held => ?_, fun x => ?_⟩
        · have twice := single x
          have again : 0 < multiplicity cells l x := (multiplicity_pos cells).mpr ⟨c, member, held⟩
          simp only [multiplicity_cons, inside, if_true] at twice
          omega
        · have bound := single x
          rw [multiplicity_cons] at bound
          omega

end Cover

/-! ## Maximal runs of numbers -/

/-- The first points of the maximal runs of consecutive numbers in the set. -/
def runStarts (s : Set Nat) : Set Nat := {a | a ∈ s ∧ ∀ b, b + 1 = a → b ∉ s}

/-- The set is made of at most `n` maximal runs. -/
def RunsAtMost (n : Nat) (s : Set Nat) : Prop := (runStarts s).encard ≤ n

theorem RunsAtMost.of_list {n : Nat} {s : Set Nat} (l : List Nat) (short : l.length ≤ n)
    (listed : ∀ a ∈ runStarts s, a ∈ l) : RunsAtMost n s := by
  classical
  have bound : (runStarts s).encard ≤ ((l.toFinset : Set Nat)).encard :=
    Set.encard_le_encard fun a member => by simpa using listed a member
  refine bound.trans ?_
  rw [Set.encard_coe_eq_coe_finsetCard]
  exact_mod_cast (List.toFinset_card_le l).trans short

theorem RunsAtMost.length_le {n : Nat} {s : Set Nat} (h : RunsAtMost n s) (l : List Nat)
    (distinct : l.Nodup) (starts : ∀ a ∈ l, a ∈ runStarts s) : l.length ≤ n := by
  classical
  have bound : ((l.toFinset : Set Nat)).encard ≤ (runStarts s).encard :=
    Set.encard_le_encard fun a member => starts a (by simpa using member)
  rw [Set.encard_coe_eq_coe_finsetCard, List.toFinset_card_of_nodup distinct] at bound
  exact_mod_cast bound.trans h

/-! ## Grants from a pool

A ledger records which points a pool may still hold and which sets it has
granted. Granting, adding and withdrawing keep every two live grants apart.
-/

/-- `available` holds the points whose latest entry is an addition; `live` holds
    the granted sets of which no point has been added again. -/
structure Ledger (α : Type*) where
  available : Set α
  live : List (Set α)

namespace Ledger

variable {α : Type*}

def initial : Ledger α := ⟨∅, []⟩

open Classical in
/-- Points come back: every grant they belonged to stops being live. -/
noncomputable def add (ledger : Ledger α) (points : Set α) : Ledger α :=
  ⟨ledger.available ∪ points, ledger.live.filter (fun grant => Disjoint grant points)⟩

def grant (ledger : Ledger α) (points : Set α) : Ledger α :=
  ⟨ledger.available \ points, points :: ledger.live⟩

def withdraw (ledger : Ledger α) (points : Set α) : Ledger α :=
  ⟨ledger.available \ points, ledger.live⟩

/-- What a pool holding `free` owes to its ledger. -/
structure Accounts (ledger : Ledger α) (free : Set α) : Prop where
  held : free ⊆ ledger.available
  apart : ledger.live.Pairwise Disjoint
  outside : ∀ grant ∈ ledger.live, Disjoint grant ledger.available

namespace Accounts

variable {ledger : Ledger α} {free next points : Set α}

theorem initial : (Ledger.initial : Ledger α).Accounts ∅ :=
  ⟨Set.empty_subset _, List.Pairwise.nil, by simp [Ledger.initial]⟩

theorem shrink (h : ledger.Accounts free) (smaller : next ⊆ free) : ledger.Accounts next :=
  ⟨smaller.trans h.held, h.apart, h.outside⟩

theorem add (h : ledger.Accounts free) (bound : next ⊆ free ∪ points) :
    (ledger.add points).Accounts next := by
  refine ⟨bound.trans (Set.union_subset_union_left _ h.held), h.apart.filter _, ?_⟩
  intro grant member
  obtain ⟨listed, apart⟩ := List.mem_filter.mp member
  exact Set.disjoint_union_right.mpr ⟨h.outside grant listed, by simpa using apart⟩

theorem grant (h : ledger.Accounts free) (taken : points ⊆ free) (bound : next ⊆ free \ points) :
    (ledger.grant points).Accounts next := by
  refine ⟨bound.trans (Set.sdiff_subset_sdiff_left h.held), ?_, ?_⟩
  · refine List.pairwise_cons.mpr ⟨fun other member => ?_, h.apart⟩
    exact ((h.outside other member).mono_right (taken.trans h.held)).symm
  · intro other member
    rcases List.mem_cons.mp member with rfl | listed
    · exact Set.disjoint_sdiff_right
    · exact (h.outside other listed).mono_right Set.sdiff_subset

theorem withdraw (h : ledger.Accounts free) (bound : next ⊆ free \ points) :
    (ledger.withdraw points).Accounts next :=
  ⟨bound.trans (Set.sdiff_subset_sdiff_left h.held), h.apart,
    fun other listed => (h.outside other listed).mono_right Set.sdiff_subset⟩

end Accounts

end Ledger

end Mykonos.Lib
