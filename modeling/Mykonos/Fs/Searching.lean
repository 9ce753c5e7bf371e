import Mykonos.Fs.String

/-! # Searching strings

`findNext` and `findBefore` cut a string at the first place behind its front where a
character stands, and repeated calls visit all such places. `memchr` compares unsigned bytes
with an `int` that has the sign of the `char`, so that it never finds half of the characters.
-/

namespace Mykonos.Fs

open Lib

/-- No byte is a negative number. -/
theorem memchr_negative (memory : Nat → UInt8) (str n : Nat) {c : UInt8} (signed : 128 ≤ c.toNat) :
    memchr memory str c.toInt8.toInt n = 0 := by
  have negative : c.toInt8.toInt < 0 := by
    have value : c.toInt8.toInt = c.toBitVec.toInt := rfl
    have size := c.toNat_lt
    have same : c.toBitVec.toNat = c.toNat := rfl
    rw [value, BitVec.toInt_eq_toNat_cond, same, if_neg (by omega)]
    omega
  induction n generalizing str with
  | zero => rfl
  | succ n ih => rw [memchr, if_neg (by omega), ih]

namespace String

variable {memory : Nat → UInt8} {s : String} {c : UInt8}

/-- The string without its first characters. -/
def suffix (s : String) (i : Nat) : String :=
  ⟨s.cString + i, s.length - i⟩

/-- The character stands there, and not between the front and there. -/
structure First (memory : Nat → UInt8) (s : String) (c : UInt8) (i : Nat) : Prop where
  positive : 1 ≤ i
  inside : i < s.length
  here : memory (s.cString + i) = c
  before : ∀ j, 1 ≤ j → j < i → memory (s.cString + j) ≠ c

/-- Where the character stands behind the front, from left to right. -/
def occurrences (memory : Nat → UInt8) (s : String) (c : UInt8) : List Nat :=
  (List.range s.length).filter fun i => 1 ≤ i ∧ memory (s.cString + i) = c

/-- A loop that replaces the string by `findNext` until it is null, with the strings that it
    comes to. -/
def visits (memory : Nat → UInt8) (c : UInt8) : Nat → String → Option (List String)
  | 0, _ => none
  | fuel + 1, s =>
      let next := s.findNext memory c
      if next.isNull then some [] else (visits memory c fuel next).map (next :: ·)

/-- What searching for the character is meant to do. -/
structure Searches (memory : Nat → UInt8) (s : String) (c : UInt8) : Prop where
  found : ∀ i, s.First memory c i → s.findNext memory c = s.suffix i ∧ s.findBefore memory c =
    ⟨s.cString, i⟩
  missed : (∀ i, 1 ≤ i → i < s.length → memory (s.cString + i) ≠ c) →
    s.findNext memory c = {} ∧ s.findBefore memory c = s
  whole : (s.findBefore memory c).bytes memory ++ (s.findNext memory c).bytes memory =
    s.bytes memory
  visited : ∀ fuel, s.length < fuel →
    visits memory c fuel s = some ((s.occurrences memory c).map s.suffix)

/-- The `char` has no sign, or there is nothing to be found. -/
def Findable (memory : Nat → UInt8) (s : String) (c : UInt8) : Prop :=
  c.toNat < 128 ∨ ∀ i, 1 ≤ i → i < s.length → memory (s.cString + i) ≠ c

theorem First.unique {i j : Nat} (first : s.First memory c i) (other : s.First memory c j) :
    i = j := by
  rcases Nat.lt_trichotomy i j with before | same | behind
  · exact absurd first.here (other.before i first.positive before)
  · exact same
  · exact absurd other.here (first.before j other.positive behind)

/-- What the search returns, for every character. -/
theorem findNext_cases (findable : s.Findable memory c) :
    (∃ i, s.First memory c i ∧ s.findNext memory c = s.suffix i) ∨
      (∀ i, 1 ≤ i → i < s.length → memory (s.cString + i) ≠ c) ∧ s.findNext memory c = {} := by
  rw [findNext]
  by_cases empty : s.length = 0
  · rw [if_pos empty]
    exact .inr ⟨fun i _ inside => absurd inside (by omega), rfl⟩
  rw [if_neg empty]
  dsimp only
  rcases findable with plain | absent
  · have plain' : c < 128 := UInt8.lt_iff_toNat_lt.mpr plain
    rcases memchr_cases memory (s.cString + 1) (s.length - 1) plain' with ⟨absent, null⟩ |
      ⟨i, below, there, first, found⟩
    · refine .inr ⟨fun i positive inside here => absent ?_, by rw [null, if_pos rfl]⟩
      refine mem_bytesAt.mpr ⟨i - 1, by omega, ?_⟩
      rw [← here]
      congr 1
      omega
    · refine .inl ⟨i + 1, ⟨by omega, by omega, ?_, fun j positive before here => first ?_⟩, ?_⟩
      · rw [← there]
        congr 1
        omega
      · refine mem_bytesAt.mpr ⟨j - 1, by omega, ?_⟩
        rw [← here]
        congr 1
        omega
      · rw [found, if_neg (by omega), suffix, String.mk.injEq]
        omega
  · refine .inr ⟨absent, ?_⟩
    have null : memchr memory (s.cString + 1) c.toInt8.toInt (s.length - 1) = 0 := by
      by_cases plain : c.toNat < 128
      · rcases memchr_cases memory (s.cString + 1) (s.length - 1)
            (UInt8.lt_iff_toNat_lt.mpr plain) with
          ⟨_, null⟩ | ⟨i, below, there, _, _⟩
        · exact null
        · refine absurd there ?_
          rw [Nat.add_assoc]
          exact absent (1 + i) (by omega) (by omega)
      · exact memchr_negative memory _ _ (Nat.le_of_not_lt plain)
    rw [null, if_pos rfl]

theorem findBefore_suffix {i : Nat} (inside : i ≤ s.length)
    (found : s.findNext memory c = s.suffix i) :
    s.findBefore memory c = ⟨s.cString, i⟩ := by
  have rest : s.length - (s.length - i) = i := by omega
  rw [findBefore, found, suffix, rest, subString, if_neg (by omega), Nat.min_eq_left inside]
  rfl

theorem findBefore_null (missed : s.findNext memory c = {}) : s.findBefore memory c = s := by
  have length : s.length - ({} : String).length = s.length := rfl
  rw [findBefore, missed, length, subString, if_neg (by omega), Nat.min_self]
  rfl

theorem suffix_suffix (s : String) (i j : Nat) : (s.suffix i).suffix j = s.suffix (i + j) := by
  rw [suffix, suffix, suffix, Nat.add_assoc, Nat.sub_sub]

/-- The places behind the first one, as they are seen from there. -/
theorem First.occurrences {i : Nat} (first : s.First memory c i) :
    s.occurrences memory c = i :: ((s.suffix i).occurrences memory c).map (i + ·) := by
  obtain ⟨rest, length⟩ : ∃ rest, s.length = i + (rest + 1) := Nat.exists_eq_add_of_lt first.inside
  have left : s.length - i = rest + 1 := by omega
  have front : (List.range i).filter (fun j => 1 ≤ j ∧ memory (s.cString + j) = c) = [] := by
    rw [List.filter_eq_nil_iff]
    intro j below
    rw [decide_eq_true_iff]
    rintro ⟨positive, here⟩
    exact first.before j positive (List.mem_range.mp below) here
  have here : 1 ≤ i + 0 ∧ memory (s.cString + (i + 0)) = c := ⟨first.positive, first.here⟩
  have behind (j : Nat) : (1 ≤ i + (j + 1) ∧ memory (s.cString + (i + (j + 1))) = c) ↔
      1 ≤ j + 1 ∧ memory (s.cString + i + (j + 1)) = c := by
    rw [Nat.add_assoc s.cString]
    exact and_congr_left fun _ => iff_of_true (by omega) (by omega)
  rw [String.occurrences, length, List.range_add, List.filter_append, front, List.nil_append,
    List.filter_map, String.occurrences, suffix, left, List.range_succ_eq_map,
    List.filter_cons_of_pos (by exact decide_eq_true here), List.filter_cons_of_neg (by simp),
    List.filter_map, List.filter_map, List.map_cons]
  congr 3
  refine List.filter_congr fun j _ => ?_
  exact decide_eq_decide.mpr (behind j)

theorem occurrences_nil (absent : ∀ i, 1 ≤ i → i < s.length → memory (s.cString + i) ≠ c) :
    s.occurrences memory c = [] := by
  rw [occurrences, List.filter_eq_nil_iff]
  intro i inside
  rw [decide_eq_true_iff]
  rintro ⟨positive, here⟩
  exact absent i positive (List.mem_range.mp inside) here

theorem Findable.suffix (findable : s.Findable memory c) (i : Nat) :
    (s.suffix i).Findable memory c := by
  rcases findable with plain | absent
  · exact .inl plain
  · refine .inr fun j positive inside => ?_
    rw [String.suffix] at inside ⊢
    rw [Nat.add_assoc]
    exact absent (i + j) (by omega) (by dsimp only at inside; omega)

theorem visits_eq (findable : s.Findable memory c) {fuel : Nat} (enough : s.length < fuel) :
    visits memory c fuel s = some ((s.occurrences memory c).map s.suffix) := by
  induction fuel generalizing s with
  | zero => exact absurd enough (Nat.not_lt_zero _)
  | succ fuel ih =>
      rw [visits]
      rcases findNext_cases findable with ⟨i, first, found⟩ | ⟨absent, null⟩
      · have positive := first.positive
        have inside := first.inside
        have stays : (s.suffix i).isNull = false :=
          decide_eq_false (show s.cString + i ≠ 0 by omega)
        have shorter : (s.suffix i).length < fuel := show s.length - i < fuel by omega
        rw [found, stays, if_neg Bool.false_ne_true, ih (findable.suffix i) shorter,
          first.occurrences, Option.map_some, List.map_cons, List.map_map]
        congr 2
        refine List.map_congr_left fun j _ => ?_
        exact s.suffix_suffix i j
      · rw [null, occurrences_nil absent]
        rfl

example : visits (fun a => if a % 2 = 0 then 0x25 else 0x61) 0x25 8 ⟨100, 7⟩ =
    some [⟨102, 5⟩, ⟨104, 3⟩, ⟨106, 1⟩] := by decide +kernel

theorem bytes_prefix_suffix {i : Nat} (inside : i ≤ s.length) :
    bytes memory ⟨s.cString, i⟩ ++ (s.suffix i).bytes memory = s.bytes memory :=
  (s.bytes_split inside).symm

theorem findNext_signed (memory : Nat → UInt8) (s : String) (signed : 128 ≤ c.toNat) :
    s.findNext memory c = {} := by
  rw [findNext, memchr_negative memory _ _ signed]
  split
  · rfl
  · rfl

/-- A character with a sign is not visited where it stands. -/
theorem not_searches {i : Nat} (signed : 128 ≤ c.toNat) (positive : 1 ≤ i) (inside : i < s.length)
    (here : memory (s.cString + i) = c) : ¬ s.Searches memory c := by
  intro searches
  have visited := searches.visited (s.length + 1) (Nat.lt_succ_self _)
  have none : visits memory c (s.length + 1) s = some [] := by
    rw [visits, findNext_signed memory s signed]
    rfl
  rw [none, Option.some.injEq, eq_comm, List.map_eq_nil_iff, occurrences,
    List.filter_eq_nil_iff] at visited
  exact visited i (List.mem_range.mpr inside) (decide_eq_true ⟨positive, here⟩)

/-- Searching works exactly for the characters without a sign, and where there is nothing to
    be found. -/
theorem searches_iff (memory : Nat → UInt8) (s : String) (c : UInt8) :
    s.Searches memory c ↔ s.Findable memory c := by
  constructor
  · intro searches
    by_contra lost
    rw [Findable, not_or] at lost
    obtain ⟨signed, occurs⟩ := lost
    refine occurs fun i positive inside here => ?_
    exact not_searches (Nat.le_of_not_lt signed) positive inside here searches
  · intro findable
    refine ⟨?_, ?_, ?_, fun fuel => visits_eq findable⟩
    · intro i first
      rcases findNext_cases findable with ⟨j, other, found⟩ | ⟨absent, _⟩
      · obtain rfl := first.unique other
        exact ⟨found, findBefore_suffix (Nat.le_of_lt first.inside) found⟩
      · exact absurd first.here (absent i first.positive first.inside)
    · intro absent
      rcases findNext_cases findable with ⟨j, other, _⟩ | ⟨_, null⟩
      · exact absurd other.here (absent j other.positive other.inside)
      · exact ⟨null, findBefore_null null⟩
    · rcases findNext_cases findable with ⟨i, first, found⟩ | ⟨_, null⟩
      · rw [findBefore_suffix (Nat.le_of_lt first.inside) found, found]
        exact bytes_prefix_suffix (Nat.le_of_lt first.inside)
      · rw [findBefore_null null, null]
        exact List.append_nil _

/-- A string of three characters, `0x80` between letters. -/
def signedMemory (address : Nat) : UInt8 :=
  if address = 101 then 0x80 else 0x61

theorem signed_not_found :
    findNext signedMemory ⟨100, 3⟩ 0x80 = {} ∧ ¬ Searches signedMemory ⟨100, 3⟩ 0x80 :=
  ⟨findNext_signed _ _ (by decide), not_searches (by decide) (Nat.le_refl 1) (by decide) rfl⟩

end String

end Mykonos.Fs
