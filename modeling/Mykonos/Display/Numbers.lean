import Mykonos.Display.Sheet
import Mykonos.Lib.Numerals

/-! # Printing numbers

`print` for a number writes the digits into a buffer on the stack, the lowest first, and
reverses them there. What is printed is the numeral.
-/

namespace Mykonos.Display

open Lib Util

def ascii (c : Char) : UInt8 :=
  UInt8.ofNat c.toNat

/-- The bytes of a string literal. -/
def literal (text : String) : List UInt8 :=
  text.toList.map ascii

def alphabet : List UInt8 :=
  literal "0123456789abcdefghijklmnopqrstuvwxyzABCDEFGHIJKLMNOPQRSTUVWXYZ+/"

def Buffer.read (buffer : Buffer) (index : Nat) : Option UInt8 :=
  if index < buffer.size then some (buffer.bytes index) else none

namespace Console

/-- The loop that writes the digits, with the count that it leaves behind. It has room for so
    many of them. -/
def writeDigits (base : Nat) : Nat → Nat → Nat → Buffer → Option (Buffer × Nat)
  | 0, _, _, _ => none
  | room + 1, value, i, buffer => do
      let buffer ← buffer.write i (← alphabet[value % base]?)
      if value / base ≠ 0 then writeDigits base room (value / base) (i + 1) buffer
      else some (buffer, i + 1)

/-- The loop that reverses the digits. -/
def reverseDigits («end» : Nat) : Nat → Nat → Buffer → Option Buffer
  | 0, _, buffer => some buffer
  | count + 1, i, buffer => do
      let temp ← buffer.read i
      let buffer ← buffer.write i (← buffer.read (minus «end» i))
      let buffer ← buffer.write (minus «end» i) temp
      reverseDigits «end» count (i + 1) buffer

/-- The text of a number, over the bytes that happen to be on the stack. Without a base there
    are no digits. -/
def formatNumber (stack : Nat → UInt8) (value base : Nat) : Option (List UInt8) :=
  if base = 0 then none
  else do
    let buffer : Buffer := ⟨stack, 8 * 8 + 1⟩
    let (buffer, count) ← writeDigits base buffer.size value 0 buffer
    let buffer ← buffer.write count 0
    let buffer ← reverseDigits (minus count 1) (count / 2) 0 buffer
    let length ← buffer.strlen 0
    some (bytesAt buffer.bytes 0 length)

/-- `print` for a number. -/
def printNumber {δ : Type} (screen : Screen δ) (fresh stack : Nat → UInt8) (s : Console δ)
    (value base : Nat) :
    Option (Console δ) := do
  print screen fresh s (← formatNumber stack value base)

end Console

/-- The character of a digit. -/
def digitCharacter (digit : Nat) : UInt8 :=
  alphabet.getD digit 0

/-- The number that a text stands for. -/
def readNumber (base : Nat) (text : List UInt8) : Option Nat :=
  (text.mapM fun c => alphabet.idxOf? c).map (numeralValue base)

theorem digitCharacter_spec {digit : Nat} (below : digit < 64) :
    alphabet[digit]? = some (digitCharacter digit) ∧
      alphabet.idxOf? (digitCharacter digit) = some digit ∧ digitCharacter digit ≠ 0 := by
  have all : ∀ digit < 64, alphabet[digit]? = some (digitCharacter digit) ∧
      alphabet.idxOf? (digitCharacter digit) = some digit ∧ digitCharacter digit ≠ 0 := by
    decide +kernel
  exact all digit below

theorem mapM_digitCharacter {digits : List Nat} (below : ∀ digit ∈ digits, digit < 64) :
    (digits.map digitCharacter).mapM (fun c => alphabet.idxOf? c) = some digits := by
  induction digits with
  | nil => rfl
  | cons digit digits ih =>
      obtain ⟨first, rest⟩ := List.forall_mem_cons.mp below
      rw [List.map_cons, List.mapM_cons, (digitCharacter_spec first).2.1, ih rest]
      rfl

namespace Console

theorem writeDigits_eq {base room value i : Nat} {buffer : Buffer} (least : 1 < base)
    (most : base ≤ 64) (enough : (lowDigits base value).length ≤ room)
    (inside : i + (lowDigits base value).length ≤ buffer.size) :
    writeDigits base room value i buffer =
      some (⟨overwrite buffer.bytes i ((lowDigits base value).map digitCharacter), buffer.size⟩,
        i + (lowDigits base value).length) := by
  induction room generalizing value i buffer with
  | zero =>
      exact absurd (List.length_eq_zero_iff.mp (Nat.le_zero.mp enough))
        (lowDigits_ne_nil least value)
  | succ room ih =>
      have digit : value % base < 64 := Nat.lt_of_lt_of_le (Nat.mod_lt _ (by omega)) most
      rw [lowDigits_eq least, List.length_cons] at enough inside
      rw [writeDigits, (digitCharacter_spec digit).1, lowDigits_eq least, Option.bind_eq_bind,
        Option.bind_some, Buffer.write, if_pos (by omega), Option.bind_eq_bind, Option.bind_some]
      by_cases last : value / base = 0
      · rw [if_neg (not_not.mpr last), if_pos last]
        rfl
      · rw [if_neg last] at enough inside
        have total (n : Nat) : i + 1 + n = i + (n + 1) := by omega
        rw [if_pos last, if_neg last, ih (by omega) (by dsimp only; omega), List.map_cons,
          overwrite_cons i _ (List.map digitCharacter (lowDigits base (value / base))),
          List.length_cons, total]

/-- The digits between the two ends change places. -/
theorem reverseDigits_eq {last count i : Nat} {buffer : Buffer} (half : 2 * (i + count) ≤ last + 1)
    (inside : last < buffer.size) (small : last < 2 ^ 32) :
    ∃ bytes, reverseDigits last count i buffer = some ⟨bytes, buffer.size⟩ ∧
      ∀ k, bytes k = if k ≤ last ∧
      (i ≤ k ∧ k < i + count ∨ i ≤ last - k ∧ last - k < i + count) then
        buffer.bytes (last - k) else buffer.bytes k := by
  induction count generalizing i buffer with
  | zero =>
      refine ⟨buffer.bytes, rfl, fun k => ?_⟩
      rw [if_neg (by omega)]
  | succ count ih =>
      have other : minus last i = last - i := minus_eq (by omega) small
      rw [reverseDigits, Buffer.read, if_pos (by omega), Buffer.read, other, if_pos (by omega)]
      simp only [Option.bind_eq_bind, Option.bind_some]
      rw [Buffer.write, if_pos (by omega), Option.bind_some, Buffer.write,
        if_pos (by dsimp only; omega), Option.bind_some]
      obtain ⟨bytes, swapped, reversed⟩ := @ih (i + 1)
        ⟨overwrite (overwrite buffer.bytes i [buffer.bytes (last - i)]) (last - i) [buffer.bytes i],
          buffer.size⟩
        (by omega) inside
      refine ⟨bytes, swapped, fun k => ?_⟩
      have written (k : Nat) :
          overwrite (overwrite buffer.bytes i [buffer.bytes (last - i)]) (last - i)
            [buffer.bytes i] k =
          if k = last - i then buffer.bytes i
          else if k = i then buffer.bytes (last - i) else buffer.bytes k := by
        by_cases upper : k = last - i
        · rw [if_pos upper, upper, overwrite, if_pos (Nat.le_refl _), Nat.sub_self]
          rfl
        · rw [if_neg upper, overwrite_of_outside (by rw [List.length_singleton]; omega)]
          by_cases lower : k = i
          · rw [if_pos lower, lower, overwrite, if_pos (Nat.le_refl _), Nat.sub_self]
            rfl
          · rw [if_neg lower, overwrite_of_outside (by rw [List.length_singleton]; omega)]
      dsimp only at reversed
      rw [reversed, written, written]
      split_ifs <;> first | omega | rfl | (congr 1; omega)

theorem reverseDigits_text {text : List UInt8} {memory : Nat → UInt8} {size : Nat}
    (written : bytesAt memory 0 text.length = text) (ends : memory text.length = 0)
    (positive : 0 < text.length) (inside : text.length < size) (small : size < 2 ^ 32) :
    ∃ bytes, reverseDigits (text.length - 1) (text.length / 2) 0 ⟨memory, size⟩ =
      some ⟨bytes, size⟩ ∧
      bytesAt bytes 0 text.length = text.reverse ∧ bytes text.length = 0 := by
  obtain ⟨bytes, reversed, places⟩ :=
    @reverseDigits_eq (text.length - 1) (text.length / 2) 0 ⟨memory, size⟩ (by omega)
    (by dsimp only; omega) (by omega)
  dsimp only at places
  refine ⟨bytes, reversed, ?_, ?_⟩
  · have read (j : Nat) (below : j < text.length) : text[j]? = some (memory j) := by
      have byte := @bytesAt_getElem? memory 0 text.length j
      rwa [written, if_pos below, Nat.zero_add] at byte
    apply List.ext_getElem?
    intro k
    rw [bytesAt_getElem?, Nat.zero_add]
    split
    · rename_i below
      rw [List.getElem?_reverse below, read _ (by omega), places]
      split
      · rfl
      · congr 2
        omega
    · exact (List.getElem?_eq_none (by rw [List.length_reverse]; omega)).symm
  · rw [places, if_neg (by omega), ends]

/-- The text of a number is its numeral. -/
theorem formatNumber_eq (stack : Nat → UInt8) {value base : Nat} (small : value < 2 ^ 64)
    (least : 1 < base) (most : base ≤ 64) :
    formatNumber stack value base = some ((numeral base value).map digitCharacter) := by
  have length : (lowDigits base value).length ≤ 64 :=
    lowDigits_length_le least (by decide) (Nat.lt_of_lt_of_le small (Nat.pow_le_pow_left least 64))
  have positive := List.length_pos_of_ne_nil (lowDigits_ne_nil least value)
  have character : ∀ digit ∈ lowDigits base value, digitCharacter digit ≠ 0 := fun digit member =>
    (digitCharacter_spec (Nat.lt_of_lt_of_le (lowDigits_lt least member) most)).2.2
  have digits :=
    @writeDigits_eq base 65 value 0 ⟨stack, 65⟩ least most (by omega) (by dsimp only; omega)
  have same : ((lowDigits base value).map digitCharacter).length = (lowDigits base value).length :=
    List.length_map ..
  rw [← same] at length positive digits
  have plain : (0 : UInt8) ∉ (lowDigits base value).map digitCharacter := by
    rw [List.mem_map]
    rintro ⟨digit, member, zero⟩
    exact character digit member zero
  rw [numeral, List.map_reverse]
  generalize (lowDigits base value).map digitCharacter = text at length positive plain digits
  have other : minus text.length 1 = text.length - 1 := minus_eq positive (by omega)
  have written :
      bytesAt (overwrite (overwrite stack 0 text) text.length [0]) 0 text.length = text := by
    rw [bytesAt_overwrite_of_outside (.inl (by omega)), bytesAt_overwrite_self]
  have ends : overwrite (overwrite stack 0 text) text.length [0] text.length = 0 := by
    rw [overwrite, if_pos (Nat.le_refl _), Nat.sub_self]
    rfl
  obtain ⟨bytes, reversed, read, ends'⟩ :=
    reverseDigits_text written ends positive (show text.length < 65 by omega)
    (by decide)
  have measured : Buffer.strlen ⟨bytes, 65⟩ 0 = some text.length := by
    rw [Buffer.strlen, Fs.strlen_eq_some_iff, Nat.zero_add, read, List.mem_reverse]
    exact ⟨by dsimp only; omega, ends', plain⟩
  rw [formatNumber, if_neg (by omega)]
  simp only [Nat.reduceMul, Nat.reduceAdd, digits, Option.bind_eq_bind, Option.bind_some,
    Nat.zero_add, other]
  rw [Buffer.write, if_pos (by dsimp only; omega), Option.bind_some, reversed,
    Option.bind_some, measured, Option.bind_some, read]

end Console

theorem readNumber_numeral {value base : Nat} (least : 1 < base) (most : base ≤ 64) :
    readNumber base ((numeral base value).map digitCharacter) = some value := by
  have below : ∀ digit ∈ numeral base value, digit < 64 := by
    intro digit member
    rw [numeral, List.mem_reverse] at member
    exact Nat.lt_of_lt_of_le (lowDigits_lt least member) most
  rw [readNumber, mapM_digitCharacter below, Option.map_some, numeralValue_numeral]

theorem numeral_leading_zero {value base : Nat} (least : 1 < base) (most : base ≤ 64)
    (leading : ((numeral base value).map digitCharacter).head? = some (digitCharacter 0)) :
    (numeral base value).map digitCharacter = [digitCharacter 0] := by
  rw [List.head?_map, Option.map_eq_some_iff] at leading
  obtain ⟨digit, first, same⟩ := leading
  have member := List.mem_of_mem_head? first
  rw [numeral, List.mem_reverse] at member
  have index := (digitCharacter_spec (Nat.lt_of_lt_of_le (lowDigits_lt least member) most)).2.1
  rw [same, (digitCharacter_spec (by decide)).2.1] at index
  rw [← Option.some.inj index] at first
  rw [numeral_of_head first]
  rfl

/-- Printing a number fits the buffer and prints a text without leading zeros from which the
    number can be read, so that no other number has the same text. -/
theorem printNumber_round_trip {value base : Nat} (small : value < 2 ^ 64) (least : 2 ≤ base)
    (most : base ≤ 64) :
    ∃ text, (∀ stack, Console.formatNumber stack value base = some text) ∧
      (∀ (δ : Type) (screen : Screen δ) (fresh stack : Nat → UInt8) (s : Console δ),
        Console.printNumber screen fresh stack s value base = Console.print screen fresh s text) ∧
      text.length + 1 ≤ 65 ∧ (text.head? = some (digitCharacter 0) → text = [digitCharacter 0]) ∧
      readNumber base text = some value ∧
      ∀ value' < 2 ^ 64, ∀ stack, Console.formatNumber stack value' base = some text →
      value' = value := by
  have read := @readNumber_numeral value base least most
  refine ⟨_, fun stack => Console.formatNumber_eq stack small least most, ?_, ?_,
    numeral_leading_zero least most, read, ?_⟩
  · intro δ screen fresh stack s
    rw [Console.printNumber, Console.formatNumber_eq stack small least most]
    rfl
  · have length : (lowDigits base value).length ≤ 64 :=
      lowDigits_length_le least (by decide)
        (Nat.lt_of_lt_of_le small (Nat.pow_le_pow_left least 64))
    rw [List.length_map, numeral, List.length_reverse]
    omega
  · intro value' small' stack same
    rw [Console.formatNumber_eq stack small' least most] at same
    rw [← Option.some.inj same, readNumber_numeral least most] at read
    exact Option.some.inj read

theorem printNumber_largest :
    (2 ^ 64 - 1 < 2 ^ 64 ∧ 2 ≤ 2 ∧ 2 ≤ 64) ∧
      ∃ text, Console.formatNumber (fun _ => 255) (2 ^ 64 - 1) 2 = some text ∧
        text.length + 1 ≤ 65 ∧ readNumber 2 text = some (2 ^ 64 - 1) := by
  obtain ⟨text, printed, _, length, _, read, _⟩ :=
    @printNumber_round_trip (2 ^ 64 - 1) 2 (by decide) (by decide) (by decide)
  exact ⟨by decide, text, printed _, length, read⟩

example : Console.formatNumber (fun _ => 255) 255 16 = some [102, 102] := by decide +kernel

end Mykonos.Display
