import Mathlib.Data.List.Chain
import Mathlib.Data.List.Nodup

/-! # Queues threaded through their elements

The elements of a threaded queue hold the links themselves: the queue is two
ends and the map from an element to the one behind it. Any number of queues
may share one such map, as long as no element is in two of them.
-/

namespace Mykonos.Lib

variable {α : Type*}

/-- Following the links from the first end up to the last one visits the list.
    The link of the last element says nothing. -/
structure Threaded (next : α → Option α) (head tail : Option α) (l : List α) : Prop where
  first : head = l.head?
  last : tail = l.getLast?
  linked : l.IsChain fun a b => next a = some b
  nodup : l.Nodup

namespace Threaded

variable {next next' : α → Option α} {head tail : Option α} {l : List α} {a b x : α}

theorem empty (next : α → Option α) : Threaded next none none ([] : List α) :=
  ⟨rfl, rfl, .nil, .nil⟩

theorem single (next : α → Option α) (x : α) : Threaded next (some x) (some x) [x] :=
  ⟨rfl, rfl, .singleton x, List.nodup_singleton x⟩

theorem eq_nil (h : Threaded next none tail l) : l = [] :=
  List.head?_eq_none_iff.mp h.first.symm

theorem eq_cons (h : Threaded next (some a) tail l) : ∃ rest, l = a :: rest := by
  cases l with
  | nil => cases h.first
  | cons b rest =>
      cases h.first
      exact ⟨rest, rfl⟩

/-- Links of other elements do not matter. -/
theorem frame (h : Threaded next head tail l) (same : ∀ a ∈ l, next' a = next a) :
    Threaded next' head tail l := by
  refine ⟨h.first, h.last, ?_, h.nodup⟩
  exact h.linked.imp_of_mem_imp fun a _ member _ link => (same a member).trans link

section Updates

variable [DecidableEq α]

theorem append (h : Threaded next head (some a) l) (absent : x ∉ l) :
    Threaded (Function.update next a (some x)) head (some x) (l ++ [x]) := by
  obtain ⟨front, rfl⟩ := List.getLast?_eq_some_iff.mp h.last.symm
  have distinct := h.nodup
  have earlier : ∀ b ∈ front, Function.update next a (some x) b = next b := by
    intro b member
    apply Function.update_of_ne
    grind
  obtain ⟨linked, _, joined⟩ := List.isChain_append.mp h.linked
  refine ⟨?_, by simp, ?_, by grind⟩
  · rw [h.first]
    cases front <;> simp
  · apply List.IsChain.append
    · apply List.IsChain.append (linked.imp_of_mem_imp fun b _ member _ link =>
        (earlier b member).trans link)
      · exact .singleton a
      · intro b last c same
        exact (earlier b (List.mem_of_getLast? last)).trans (joined b last c same)
    · exact .singleton x
    · simp

theorem prepend (h : Threaded next (some a) tail l) (absent : x ∉ l) :
    Threaded (Function.update next x (some a)) (some x) tail (x :: l) := by
  obtain ⟨rest, rfl⟩ := h.eq_cons
  have kept : Threaded (Function.update next x (some a)) (some a) tail (a :: rest) :=
    h.frame fun b member => Function.update_of_ne (by grind) _ _
  refine ⟨rfl, ?_, ?_, List.nodup_cons.mpr ⟨absent, h.nodup⟩⟩
  · rw [h.last, List.getLast?_cons_cons]
  · exact .cons_cons (Function.update_self _ _ _) kept.linked

/-- Dropping the first element leaves the ends that its link and the last
    element give. -/
theorem tail_cons (h : Threaded next (some a) tail (a :: l)) :
    if tail = some a then l = [] else Threaded next (next a) tail l := by
  cases l with
  | nil => simp [h.last]
  | cons b rest =>
      have distinct := h.nodup
      have last := h.last
      rw [List.getLast?_cons_cons] at last
      have behind : tail ≠ some a := by
        intro same
        rw [same] at last
        exact (List.nodup_cons.mp distinct).1 (List.mem_of_getLast? last.symm)
      rw [if_neg behind]
      cases h.linked with
      | cons_cons link linked => exact ⟨link, last, linked, (List.nodup_cons.mp distinct).2⟩

/-- The ends and the links determine the list. -/
theorem unique {other : List α} (h : Threaded next head tail l)
    (h' : Threaded next head tail other) : l = other := by
  induction l generalizing head other with
  | nil =>
      obtain rfl := h.first
      exact h'.eq_nil.symm
  | cons a rest ih =>
      obtain rfl := h.first
      obtain ⟨rest', rfl⟩ := h'.eq_cons
      have left := h.tail_cons
      have right := h'.tail_cons
      split at left
      · rename_i alone
        rw [if_pos alone] at right
        rw [left, right]
      · rename_i more
        rw [if_neg more] at right
        rw [ih left right]

end Updates

end Threaded

end Mykonos.Lib
