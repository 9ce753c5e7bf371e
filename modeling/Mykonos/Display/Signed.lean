import Mykonos.Display.Printf

/-! # Printing signed numbers

`printf` hands the signed arguments of `%d` and `%l` to a function for unsigned numbers, so
that the text of a negative number stands for one that is larger by `2 ^ 64`.
-/

namespace Mykonos.Display

open Lib

/-- At a percent sign with this character behind it, `printf` prints the text for the argument
    and goes on behind the two. -/
def Emits (c : UInt8) (argument : Argument) (text : List UInt8) : Prop :=
  ∀ (memory stack : Nat → UInt8) (σ : Type) (print : σ → List UInt8 →
    Option σ) (fuel : Nat) (format : Fs.String) (behind : List UInt8) (args : List Argument) (s :
      σ), format.bytes memory = ascii '%' :: c :: behind →
      printf memory stack print (fuel + 1) format (argument :: args) s =
        (print s text).bind fun s =>
          printf memory stack print fuel ((format.subStringFrom 1).subStringFrom 1) args s

def isDecimal (c : UInt8) : Bool :=
  (ascii '0').toNat ≤ c.toNat && c.toNat ≤ (ascii '9').toNat

/-- A number written with the digits from 0 to 9. -/
def readDecimal (text : List UInt8) : Option Nat :=
  if text = [] then none else if text.all isDecimal then readNumber 10 text else none

/-- A decimal number that may have a sign. -/
def readSigned : List UInt8 → Option Int
  | [] => none
  | c :: text =>
      if c = ascii '-' then (readDecimal text).map fun n => -(n : Int)
      else if c = ascii '+' then (readDecimal text).map fun n => (n : Int)
      else (readDecimal (c :: text)).map fun n => (n : Int)

/-- The text that is printed for the argument reads as the number. -/
def RoundTrips (c : UInt8) (argument : Argument) (n : Int) : Prop :=
  ∃ text, Emits c argument text ∧ readSigned text = some n

variable {c : UInt8} {argument : Argument} {text text' : List UInt8}

/-- The format that consists of one conversion. -/
def conversionMemory (c : UInt8) : Nat → UInt8 :=
  Util.overwrite (fun _ => 0) 16 [ascii '%', c]

theorem Emits.unique (emits : Emits c argument text) (emits' : Emits c argument text') :
    text = text' := by
  have bytes : (⟨16, 2⟩ : Fs.String).bytes (conversionMemory c) = [ascii '%', c] :=
    Util.bytesAt_overwrite_self _ 16 [ascii '%', c]
  have first :=
    emits (conversionMemory c) (fun _ => 0) (List UInt8) (fun s text => some (s ++ text)) 1
      _ _ [] [] bytes
  have second :=
    emits' (conversionMemory c) (fun _ => 0) (List UInt8)
      (fun s text => some (s ++ text)) 1 _ _ [] []
    bytes
  have same := first.symm.trans second
  exact (Prod.mk.inj (Option.some.inj same)).2

theorem isDecimal_digitCharacter {digit : Nat} (below : digit < 10) :
    isDecimal (digitCharacter digit) = true := by
  have all : ∀ digit < 10, isDecimal (digitCharacter digit) = true := by decide +kernel
  exact all digit below

theorem readSigned_digits (value : Nat) : readSigned (digits 10 value) = some (value : Int) := by
  have decimal : (digits 10 value).all isDecimal = true := by
    rw [List.all_eq_true]
    intro c member
    obtain ⟨digit, inside, rfl⟩ := List.mem_map.mp member
    rw [numeral, List.mem_reverse] at inside
    exact isDecimal_digitCharacter (lowDigits_lt (by decide) inside)
  have filled : digits 10 value ≠ [] := by
    rw [digits, numeral, List.map_reverse]
    simpa using lowDigits_ne_nil (by decide) value
  have read : readDecimal (digits 10 value) = some value := by
    rw [readDecimal, if_neg filled, if_pos decimal]
    exact readNumber_numeral (by decide) (by decide)
  generalize digits 10 value = text at decimal filled read
  cases text with
  | nil => exact absurd rfl filled
  | cons c text =>
      have digit := List.all_eq_true.mp decimal c List.mem_cons_self
      have not_minus : c ≠ ascii '-' := by
        rintro rfl
        exact absurd digit (by decide)
      have not_plus : c ≠ ascii '+' := by
        rintro rfl
        exact absurd digit (by decide)
      rw [readSigned, if_neg not_minus, if_neg not_plus, read]
      rfl

/-- A number that is printed without its sign comes back where it has none. -/
theorem Emits.roundTrips_iff {value : BitVec 64}
    (emits : Emits c argument (digits 10 value.toNat)) :
    RoundTrips c argument value.toInt ↔ 0 ≤ value.toInt := by
  have small := value.isLt
  have sign : value.toInt =
      if 2 * value.toNat < 2 ^ 64 then (value.toNat : Int) else value.toNat - (2 ^ 64 : Nat) :=
    BitVec.toInt_eq_toNat_cond value
  constructor
  · rintro ⟨text, emits', read⟩
    rw [emits'.unique emits, readSigned_digits] at read
    have same := Option.some.inj read
    omega
  · intro positive
    refine ⟨_, emits, ?_⟩
    rw [readSigned_digits]
    congr 1
    split at sign
    · exact sign.symm
    · omega

theorem Emits.of_specifier
    (specified : ∀ (memory stack : Nat → UInt8) (σ : Type) (print : σ → List UInt8 → Option σ)
    (args : List Argument) (s : σ),
      specifier memory stack print c (argument :: args) s = (print s text).map fun s => (args, s)) :
    Emits c argument text := by
  intro memory stack σ print fuel format behind args s bytes
  rw [printf_percent bytes, List.getD_cons_zero, specified]
  cases print s text with
  | none => rfl
  | some s => rfl

/-- `%d` prints the number that sign extension makes of an `int`. -/
theorem emits_d (n : BitVec 32) :
    Emits (ascii 'd') (.int n) (digits 10 (n.signExtend 64).toNat) := by
  refine .of_specifier fun memory stack σ print args s => ?_
  have printed := unsignedText_eq stack (n.signExtend 64) (show 1 < 10 by decide) (by decide)
  rw [specifier, if_neg (by decide), if_neg (by decide), if_neg (by decide), if_pos rfl]
  simp only [vaInt, Option.bind_eq_bind, Option.bind_some, printed]
  cases print s (digits 10 (n.signExtend 64).toNat) with
  | none => rfl
  | some s => rfl

theorem emits_l (l : BitVec 64) : Emits (ascii 'l') (.long l) (digits 10 l.toNat) := by
  refine .of_specifier fun memory stack σ print args s => ?_
  have printed := unsignedText_eq stack l (show 1 < 10 by decide) (by decide)
  rw [specifier, if_neg (by decide), if_neg (by decide), if_neg (by decide),
    if_neg (by decide), if_pos rfl]
  simp only [vaLong, Option.bind_eq_bind, Option.bind_some, printed]
  cases print s (digits 10 l.toNat) with
  | none => rfl
  | some s => rfl

/-- The text of a signed number reads as the number exactly where it is not negative. -/
theorem signed_round_trip_iff (n : BitVec 32) (l : BitVec 64) :
    (RoundTrips (ascii 'd') (.int n) n.toInt ↔ 0 ≤ n.toInt) ∧
    (RoundTrips (ascii 'l') (.long l) l.toInt ↔ 0 ≤ l.toInt) := by
  have value : (n.signExtend 64).toInt = n.toInt := BitVec.toInt_signExtend_of_le (by decide)
  refine ⟨?_, (emits_l l).roundTrips_iff⟩
  rw [← value]
  exact (emits_d n).roundTrips_iff

theorem minus_one_as_unsigned :
    Emits (ascii 'd') (.int (-1)) (literal "18446744073709551615") ∧
    ¬ RoundTrips (ascii 'd') (.int (-1)) (-1) := by
  have emits : Emits (ascii 'd') (.int (-1)) (digits 10 (2 ^ 64 - 1)) := emits_d (-1)
  have text : digits 10 (2 ^ 64 - 1) = literal "18446744073709551615" := by decide +kernel
  refine ⟨text ▸ emits, fun reads => ?_⟩
  have extended : ((-1 : BitVec 32).signExtend 64).toInt = -1 := by decide
  exact absurd ((emits_d (-1)).roundTrips_iff.mp (extended.symm ▸ reads)) (by decide)

end Mykonos.Display
