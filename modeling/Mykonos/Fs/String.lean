import Mathlib.Data.List.GetD
import Mathlib.Data.List.TakeWhile
import Mykonos.Lib.Bytes

/-! # Strings

The memory functions of the C library and `String`, a pointer with a length over bytes
that it does not own. Each operation is described by what it does to the bytes of the
string.
-/

namespace Mykonos.Fs

open Lib

/-- The two lists are the bytes that are compared. -/
def memcmp : List UInt8 → List UInt8 → Int
  | first :: a, second :: b => if first ≠ second then first.toNat - second.toNat else memcmp a b
  | _, _ => 0

def memeq (a b : List UInt8) : Bool :=
  memcmp a b = 0

/-- The character is an `int`; zero is the null pointer. -/
def memchr (memory : Nat → UInt8) (str : Nat) (c : Int) : Nat → Nat
  | 0 => 0
  | n + 1 => if ((memory str).toNat : Int) = c then str else memchr memory (str + 1) c n

/-- The loop counts in an `int`, which bounds how often it may run. -/
def strlen (memory : Nat → UInt8) (str : Nat) : Nat → Option Nat
  | 0 => none
  | fuel + 1 => if memory str = 0 then some 0 else (strlen memory (str + 1) fuel).map (· + 1)

structure String where
  cString : Nat := 0
  length : Nat := 0
  deriving Repr, DecidableEq

namespace String

section Operations

variable (memory : Nat → UInt8)

def ofCString (cString : Nat) : Option String :=
  (strlen memory cString (2 ^ 31)).map fun length => ⟨cString, length⟩

/-- The bytes that the string refers to. -/
def bytes (s : String) : List UInt8 :=
  bytesAt memory s.cString s.length

/-- `operator[]`. -/
def get (s : String) (index : Nat) : UInt8 :=
  if index < s.length then memory (s.cString + index) else 0

def subString (s : String) (begin «end» : Nat) : String :=
  if begin > s.length ∨ begin > «end» then {} else ⟨s.cString + begin, min «end» s.length - begin⟩

/-- `subString` with one argument. -/
def subStringFrom (s : String) (begin : Nat) : String :=
  s.subString begin s.length

/-- The search begins at the second character. The character is passed on as an `int`, with
    its sign. -/
def findNext (s : String) (c : UInt8) : String :=
  if s.length = 0 then {}
  else
    let found := memchr memory (s.cString + 1) c.toInt8.toInt (s.length - 1)
    if found = 0 then {} else ⟨found, s.cString + s.length - found⟩

def findBefore (s : String) (c : UInt8) : String :=
  s.subString 0 (s.length - (s.findNext memory c).length)

def startsWith (s other : String) : Bool :=
  if s.length ≥ other.length then memeq (bytesAt memory s.cString other.length) (other.bytes memory)
  else false

/-- `operator==` with `nullptr`. -/
def isNull (s : String) : Bool :=
  s.cString = 0

/-- `operator==`. -/
def equals (s other : String) : Bool :=
  if other.length ≠ s.length then false
  else if s.length = 0 then true
  else memeq (s.bytes memory) (other.bytes memory)

end Operations

end String

theorem memcmp_eq_zero {a b : List UInt8} (same : a.length = b.length) :
    memcmp a b = 0 ↔ a = b := by
  induction a generalizing b with
  | nil =>
      cases b with
      | nil => simp [memcmp]
      | cons second b => cases same
  | cons first a ih =>
      cases b with
      | nil => cases same
      | cons second b =>
          rw [memcmp, List.cons.injEq]
          split
          · rename_i differ
            have values : first.toNat ≠ second.toNat :=
              fun equal => differ (UInt8.toNat_inj.mp equal)
            exact iff_of_false (by omega) fun both => differ both.1
          · rename_i equal
            rw [ih (Nat.succ.inj same), and_iff_right (not_not.mp equal)]

theorem memeq_iff {a b : List UInt8} (same : a.length = b.length) : memeq a b = true ↔ a = b := by
  rw [memeq, decide_eq_true_iff, memcmp_eq_zero same]

/-- A C string is measured up to its first zero byte. -/
theorem strlen_eq_some_iff {memory : Nat → UInt8} {str fuel n : Nat} :
    strlen memory str fuel = some n ↔
      n < fuel ∧ memory (str + n) = 0 ∧ 0 ∉ bytesAt memory str n := by
  induction fuel generalizing str n with
  | zero => exact iff_of_false nofun fun both => Nat.not_lt_zero n both.1
  | succ fuel ih =>
      rw [strlen]
      split
      · rename_i zero
        constructor
        · intro same
          cases same
          exact ⟨Nat.zero_lt_succ fuel, zero, List.not_mem_nil⟩
        · rintro ⟨_, _, plain⟩
          cases n with
          | zero => rfl
          | succ n =>
              rw [bytesAt, zero] at plain
              exact absurd List.mem_cons_self plain
      · rename_i filled
        rw [Option.map_eq_some_iff]
        cases n with
        | zero =>
            refine iff_of_false ?_ fun all => filled all.2.1
            rintro ⟨m, _, ⟨⟩⟩
        | succ n =>
            have here : str + (n + 1) = str + 1 + n := by omega
            rw [bytesAt, List.mem_cons, not_or, and_iff_right (Ne.symm filled), here,
              Nat.succ_lt_succ_iff, ← ih]
            constructor
            · rintro ⟨m, found, same⟩
              cases same
              exact found
            · intro found
              exact ⟨n, found, rfl⟩

/-- A text that ends with a zero byte, and has none before, is measured. -/
theorem strlen_holds {memory : Nat → UInt8} {str fuel : Nat} {text : List UInt8}
    (written : Holds memory str (text ++ [0])) (plain : 0 ∉ text) (enough : text.length < fuel) :
    strlen memory str fuel = some text.length := by
  obtain ⟨front, last⟩ := holds_append.mp written
  rw [strlen_eq_some_iff, front.bytesAt]
  exact ⟨enough, last.1, plain⟩

theorem toInt8_toInt {c : UInt8} (plain : c < 128) : c.toInt8.toInt = c.toNat :=
  BitVec.toInt_eq_toNat_of_lt (by have := UInt8.lt_iff_toNat_lt.mp plain; simp at this ⊢; omega)

/-- Where a character without a sign stands in memory. -/
theorem memchr_cases (memory : Nat → UInt8) (str n : Nat) {c : UInt8} (plain : c < 128) :
    (c ∉ bytesAt memory str n ∧ memchr memory str c.toInt8.toInt n = 0) ∨
      ∃ i < n, memory (str + i) = c ∧ c ∉ bytesAt memory str i ∧
      memchr memory str c.toInt8.toInt n = str + i := by
  rw [toInt8_toInt plain]
  induction n generalizing str with
  | zero => exact .inl ⟨List.not_mem_nil, rfl⟩
  | succ n ih =>
      simp only [memchr, bytesAt, Int.natCast_inj, UInt8.toNat_inj]
      split
      · rename_i here
        exact .inr ⟨0, Nat.zero_lt_succ n, here, List.not_mem_nil, rfl⟩
      · rename_i elsewhere
        rcases ih (str + 1) with ⟨absent, null⟩ | ⟨i, below, there, before, found⟩
        · exact .inl ⟨by simp [absent, Ne.symm elsewhere], null⟩
        · refine .inr ⟨i + 1, Nat.succ_lt_succ below, ?_, ?_, ?_⟩
          · rw [← there, Nat.add_assoc, Nat.add_comm 1]
          · rw [bytesAt]
            simp [before, Ne.symm elsewhere]
          · rw [found, Nat.add_assoc, Nat.add_comm 1]

namespace String

variable {memory : Nat → UInt8} (s : String)

@[simp] theorem bytes_length : (s.bytes memory).length = s.length :=
  bytesAt_length memory s.cString s.length

theorem bytes_split {begin : Nat} (inside : begin ≤ s.length) :
    s.bytes memory = bytesAt memory s.cString begin ++
      bytesAt memory (s.cString + begin) (s.length - begin) := by
  rw [bytes, ← bytesAt_add, Nat.add_sub_cancel' inside]

theorem bytesAt_take {begin : Nat} (inside : begin ≤ s.length) :
    bytesAt memory s.cString begin = (s.bytes memory).take begin := by
  rw [s.bytes_split inside, List.take_left' (bytesAt_length ..)]

theorem bytes_subStringFrom {begin : Nat} (inside : begin ≤ s.length) :
    (s.subStringFrom begin).bytes memory = (s.bytes memory).drop begin := by
  rw [subStringFrom, subString, if_neg (by omega), Nat.min_self, s.bytes_split inside,
    List.drop_left' (bytesAt_length ..)]
  rfl

theorem bytes_subString_zero {«end» : Nat} (inside : «end» ≤ s.length) :
    (s.subString 0 «end»).bytes memory = (s.bytes memory).take «end» := by
  rw [subString, if_neg (by omega), Nat.min_eq_left inside, ← s.bytesAt_take inside]
  rfl

theorem get_eq (index : Nat) : s.get memory index = (s.bytes memory).getD index 0 := by
  rw [get]
  split
  · rename_i inside
    rw [(holds_bytesAt memory s.cString s.length).getElem (by rwa [bytesAt_length])]
    exact (List.getD_eq_getElem _ 0 _).symm
  · rename_i outside
    exact (List.getD_eq_default _ 0 (by rw [bytes_length]; exact Nat.le_of_not_lt outside)).symm

theorem startsWith_iff (other : String) :
    s.startsWith memory other = true ↔ other.bytes memory <+: s.bytes memory := by
  rw [startsWith]
  split
  · rename_i fits
    rw [memeq_iff (by rw [bytesAt_length, bytes_length]), s.bytesAt_take fits, eq_comm,
      List.prefix_iff_eq_take, bytes_length]
  · rename_i short
    refine iff_of_false Bool.false_ne_true fun before => short ?_
    have := before.length_le
    rwa [bytes_length, bytes_length] at this

theorem equals_iff (other : String) :
    s.equals memory other = true ↔ s.bytes memory = other.bytes memory := by
  rw [equals]
  split
  · rename_i differ
    refine iff_of_false Bool.false_ne_true fun equal => differ ?_
    have lengths := congrArg List.length equal
    rwa [bytes_length, bytes_length, eq_comm] at lengths
  · rename_i same
    have same := not_not.mp same
    split
    · rename_i zero
      rw [bytes, bytes, same, zero]
      exact iff_of_true rfl rfl
    · exact memeq_iff (by rw [bytes_length, bytes_length, same])

/-- The search finds nothing when the character stands at most in front. -/
theorem findNext_isNull {c : UInt8} (plain : c < 128) :
    (s.findNext memory c).isNull = true ↔ c ∉ (s.bytes memory).tail := by
  rw [findNext]
  split
  · rename_i zero
    rw [bytes, zero]
    exact iff_of_true rfl List.not_mem_nil
  · rename_i positive
    obtain ⟨rest, length⟩ := Nat.exists_eq_succ_of_ne_zero positive
    rw [bytes, length, bytesAt, List.tail_cons, Nat.succ_sub_one]
    rcases memchr_cases memory (s.cString + 1) rest plain with ⟨absent, null⟩ |
      ⟨i, below, there, -, found⟩
    · rw [null, if_pos rfl]
      exact iff_of_true rfl absent
    · rw [found, if_neg (by omega)]
      refine iff_of_false (by simp [isNull]) (not_not.mpr ?_)
      rw [← there, (holds_bytesAt memory (s.cString + 1) rest).getElem (by rwa [bytesAt_length])]
      exact List.getElem_mem _

/-- What the search for a character beyond the first one returns. -/
theorem bytes_findNext {c : UInt8} (plain : c < 128) :
    (s.findNext memory c).bytes memory = (s.bytes memory).tail.dropWhile (· ≠ c) := by
  rw [findNext]
  split
  · rename_i zero
    rw [bytes, bytes, zero]
    rfl
  · rename_i positive
    obtain ⟨rest, length⟩ := Nat.exists_eq_succ_of_ne_zero positive
    have tail : (s.bytes memory).tail = bytesAt memory (s.cString + 1) rest := by
      rw [bytes, length, bytesAt, List.tail_cons]
    rw [tail, length, Nat.succ_sub_one]
    rcases memchr_cases memory (s.cString + 1) rest plain with ⟨absent, null⟩ |
      ⟨i, below, there, before, found⟩
    · rw [null, if_pos rfl, List.dropWhile_eq_nil_iff.mpr]
      · rfl
      · intro byte member
        exact decide_eq_true fun equal => absent (equal ▸ member)
    · rw [found, if_neg (by omega), ← Nat.add_sub_cancel' (Nat.le_of_lt below), bytesAt_add,
        List.dropWhile_append, if_pos]
      · obtain ⟨further, more⟩ := Nat.exists_eq_succ_of_ne_zero (Nat.sub_ne_zero_of_lt below)
        have count : s.cString + (i + (rest - i)).succ - (s.cString + 1 + i) = further + 1 := by
          omega
        rw [bytes, more, bytesAt, there, List.dropWhile_cons_of_neg (by simp), ← more, count,
          bytesAt, there]
      · rw [List.isEmpty_iff, List.dropWhile_eq_nil_iff]
        intro byte member
        exact decide_eq_true fun equal => before (equal ▸ member)

/-- The part in front of what the search returns. -/
theorem bytes_findBefore {c : UInt8} (plain : c < 128) :
    (s.findBefore memory c).bytes memory =
      (s.bytes memory).take 1 ++ (s.bytes memory).tail.takeWhile (· ≠ c) := by
  have found : (s.findNext memory c).length = ((s.bytes memory).tail.dropWhile (· ≠ c)).length := by
    rw [← s.bytes_findNext plain, bytes_length]
  have total : (s.bytes memory).length = s.length := s.bytes_length
  rw [findBefore, s.bytes_subString_zero (Nat.sub_le ..), found, ← total]
  cases s.bytes memory with
  | nil => rw [List.take_nil]; rfl
  | cons byte rest =>
      rw [List.tail_cons]
      generalize kept : rest.takeWhile (· ≠ c) = first
      generalize left : rest.dropWhile (· ≠ c) = second
      obtain rfl : first ++ second = rest := by
        rw [← kept, ← left, List.takeWhile_append_dropWhile]
      rw [List.length_cons, List.length_append, Nat.add_right_comm, Nat.add_sub_cancel,
        List.take_succ_cons, List.take_left]
      rfl

end String

end Mykonos.Fs
