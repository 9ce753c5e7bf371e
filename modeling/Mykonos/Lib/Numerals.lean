import Mathlib.Data.Nat.Digits.Lemmas

/-! # Numerals

The digits of a number, of which zero has one. Written with the highest digit first they
give the number back and begin with a zero only if they are that of zero.
-/

namespace Mykonos.Lib

/-- The digits of the number, the lowest first. -/
def lowDigits (base value : Nat) : List Nat :=
  if value = 0 then [0] else Nat.digits base value

/-- The digits of the number, the highest first. -/
def numeral (base value : Nat) : List Nat :=
  (lowDigits base value).reverse

/-- The number that the digits stand for, the highest first. -/
def numeralValue (base : Nat) (digits : List Nat) : Nat :=
  digits.foldl (fun value digit => value * base + digit) 0

variable {base value : Nat}

theorem lowDigits_eq (least : 1 < base) (value : Nat) :
    lowDigits base value = value % base ::
      if value / base = 0 then [] else lowDigits base (value / base) := by
  by_cases zero : value = 0
  · rw [zero, Nat.zero_mod, Nat.zero_div, if_pos rfl]
    rfl
  · rw [lowDigits, if_neg zero, Nat.digits_def' least (Nat.pos_of_ne_zero zero)]
    split
    · rename_i last
      rw [last, Nat.digits_zero]
    · rename_i more
      rw [lowDigits, if_neg more]

theorem lowDigits_ne_nil (least : 1 < base) (value : Nat) : lowDigits base value ≠ [] := by
  rw [lowDigits_eq least]
  exact List.cons_ne_nil _ _

theorem lowDigits_lt (least : 1 < base) {digit : Nat} (member : digit ∈ lowDigits base value) :
    digit < base := by
  rw [lowDigits] at member
  split at member
  · rw [List.mem_singleton] at member
    omega
  · exact Nat.digits_lt_base least member

theorem lowDigits_length_le (least : 1 < base) {count : Nat} (positive : 0 < count)
    (small : value < base ^ count) :
    (lowDigits base value).length ≤ count := by
  rw [lowDigits]
  split
  · exact positive
  · exact (Nat.digits_length_le_iff least value).mpr small

theorem ofDigits_lowDigits (base value : Nat) :
    Nat.ofDigits base (lowDigits base value) = value := by
  rw [lowDigits]
  split
  · rename_i zero
    rw [Nat.ofDigits_singleton, zero]
  · exact Nat.ofDigits_digits base value

theorem numeralValue_reverse (base : Nat) (digits : List Nat) :
    numeralValue base digits.reverse = Nat.ofDigits base digits := by
  rw [numeralValue, List.foldl_reverse, Nat.ofDigits_eq_foldr]
  congr 1
  funext digit value
  rw [Nat.mul_comm, Nat.add_comm, Nat.cast_id]

/-- A numeral gives its number back. -/
theorem numeralValue_numeral (base value : Nat) :
    numeralValue base (numeral base value) = value := by
  rw [numeral, numeralValue_reverse, ofDigits_lowDigits]

/-- Only the numeral of zero begins with a zero. -/
theorem numeral_of_head (leading : (numeral base value).head? = some 0) :
    numeral base value = [0] := by
  by_cases zero : value = 0
  · rw [zero]
    rfl
  · rw [numeral, lowDigits, if_neg zero, List.head?_reverse,
      List.getLast?_eq_getLast_of_ne_nil (Nat.digits_ne_nil_iff_ne_zero.mpr zero)] at leading
    exact absurd (Option.some.inj leading) (Nat.getLast_digit_ne_zero base zero)

end Mykonos.Lib
