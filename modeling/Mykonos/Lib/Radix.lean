import Mathlib.Data.List.Induction
import Mathlib.Logic.Function.Basic

/-! # Radix trees in a shared node store

Nodes live in one store and refer to each other by name. A path of indices leads
from the root through the slots it names. When distinct paths lead to distinct
nodes, planting a blank node in an empty slot adds exactly one path.
-/

namespace Mykonos.Lib

section Radix

variable {ν ε : Type*} (child : ε → Option ν)

/-- Follow a path of slot indices. -/
def descend (slots : ν → Nat → ε) : ν → List Nat → Option ν
  | node, [] => some node
  | node, i :: rest => (child (slots node i)).bind fun next => descend slots next rest

variable {child} {slots next : ν → Nat → ε} {root : ν}

@[simp] theorem descend_nil : descend child slots root [] = some root := rfl

theorem descend_append (path rest : List Nat) :
    descend child slots root (path ++ rest) =
      (descend child slots root path).bind fun node => descend child slots node rest := by
  induction path generalizing root with
  | nil => rfl
  | cons i path ih =>
      simp only [List.cons_append, descend, Option.bind_assoc]
      exact Option.bind_congr fun node _ => ih

theorem descend_snoc (path : List Nat) (i : Nat) :
    descend child slots root (path ++ [i]) =
      (descend child slots root path).bind fun node => child (slots node i) := by
  rw [descend_append]
  refine Option.bind_congr fun node _ => ?_
  simp [descend]

/-- A slot of the root that leads back to the root can be passed for free. -/
theorem descend_loop {i : Nat} (loop : child (slots root i) = some root) (path : List Nat) :
    descend child slots root (i :: path) = descend child slots root path := by
  simp only [descend, loop, Option.bind_some]

variable {P : List Nat → Prop}

/-- Stores that agree on every slot the paths pass have the same paths. -/
theorem descend_congr (shorter : ∀ path i, P (path ++ [i]) → P path)
    (same : ∀ path i node, P (path ++ [i]) → descend child slots root path = some node →
      child (next node i) = child (slots node i))
    {path : List Nat} (allowed : P path) :
    descend child next root path = descend child slots root path := by
  induction path using List.reverseRecOn with
  | nil => rfl
  | append_singleton path i ih =>
      rw [descend_snoc, descend_snoc, ih (shorter path i allowed)]
      exact Option.bind_congr fun node here => same path i node allowed here

/-- The store after a blank node has been planted in one slot. -/
def plant [DecidableEq ν] (slots : ν → Nat → ε) (parent : ν) (i : Nat) (link : ε) (fresh : ν)
    (blank : ε) : ν → Nat → ε :=
  Function.update (Function.update slots parent (Function.update (slots parent) i link)) fresh
    fun _ => blank

theorem descend_plant [DecidableEq ν] (shorter : ∀ path i, P (path ++ [i]) → P path)
    (unique : ∀ path other node, P path → P other → descend child slots root path = some node →
      descend child slots root other = some node → path = other)
    {trunk : List Nat} {parent fresh : ν} {i : Nat} {link blank : ε} (allowed : P trunk)
    (here : descend child slots root trunk = some parent) (empty : child (slots parent i) = none)
    (unused : ∀ path, P path → descend child slots root path ≠ some fresh)
    (linked : child link = some fresh) (bare : child blank = none) {path : List Nat}
    (inside : P path) :
    descend child (plant slots parent i link fresh blank) root path =
      if path = trunk ++ [i] then some fresh else descend child slots root path := by
  induction path using List.reverseRecOn with
  | nil => simp
  | append_singleton path j ih =>
      have before := shorter path j inside
      rw [descend_snoc, descend_snoc, ih before]
      by_cases reached : path = trunk ++ [i]
      · have longer : path ++ [j] ≠ trunk ++ [i] := by
          intro same
          have := congrArg List.length same
          simp [reached] at this
        have absent : descend child slots root path = none := by
          rw [reached, descend_snoc, here, Option.bind_some, empty]
        rw [if_pos reached, if_neg longer, absent, Option.bind_some, Option.bind_none]
        simp [plant, bare]
      · rw [if_neg reached]
        cases node : descend child slots root path with
        | none =>
            have other : path ++ [j] ≠ trunk ++ [i] := by
              intro same
              have trunk_eq := List.append_inj_left' same rfl
              rw [trunk_eq, here] at node
              exact Option.some_ne_none _ node
            rw [if_neg other, Option.bind_none, Option.bind_none]
        | some found =>
            have old : found ≠ fresh := fun same => unused path before (same ▸ node)
            simp only [Option.bind_some, plant, Function.update_of_ne old]
            by_cases meets : path ++ [j] = trunk ++ [i]
            · obtain ⟨rfl, index⟩ := List.append_inj' meets rfl
              obtain rfl : j = i := by simpa using index
              obtain rfl : found = parent := Option.some.inj (node.symm.trans here)
              rw [if_pos meets, Function.update_self, Function.update_self, linked]
            · rw [if_neg meets]
              by_cases sibling : found = parent
              · obtain rfl := sibling
                have slot : j ≠ i := by
                  rintro rfl
                  exact meets (congrArg (· ++ [j])
                    (unique path trunk found before allowed node here))
                rw [Function.update_self, Function.update_of_ne slot]
              · rw [Function.update_of_ne sibling]

end Radix

end Mykonos.Lib
