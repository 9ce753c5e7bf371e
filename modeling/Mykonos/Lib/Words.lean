import Mathlib.Algebra.Group.Nat.Defs
import Mathlib.Tactic.Common

/-! # Words in byte memory

Memory is a function from 64-bit addresses to bytes, and addresses wrap around. A word
takes eight bytes, the lowest first. Words that have no byte in common can be written
without disturbing each other.
-/

namespace Mykonos.Lib

abbrev Word := BitVec 64

abbrev Store := Word → BitVec 8

namespace Store

/-- The word at an address. -/
def read (memory : Store) (address : Word) : Word :=
  memory (address + 7) ++ memory (address + 6) ++ memory (address + 5) ++ memory (address + 4) ++
    memory (address + 3) ++ memory (address + 2) ++ memory (address + 1) ++ memory address

/-- Put a word at an address. -/
def write (memory : Store) (address value : Word) : Store := fun x =>
  if (x - address).toNat < 8 then value.extractLsb' (8 * (x - address).toNat) 8 else memory x

/-- Put several words, one after the other. -/
def writeAll (memory : Store) (entries : List (Word × Word)) : Store :=
  entries.foldl (fun m entry => m.write entry.1 entry.2) memory

end Store

/-! ## Regions without a common byte -/

/-- The `n` bytes from `a` on and the `k` bytes from `b` on have none in common. -/
def Apart (a : Word) (n : Nat) (b : Word) (k : Nat) : Prop := n ≤ (b - a).toNat ∧ k ≤ (a - b).toNat

instance (a : Word) (n : Nat) (b : Word) (k : Nat) : Decidable (Apart a n b k) :=
  inferInstanceAs (Decidable (_ ∧ _))

section Apart

variable {a b : Word} {n k : Nat}

theorem toNat_sub_swap (a b : Word) :
    (a - b).toNat = if a = b then 0 else 2 ^ 64 - (b - a).toNat := by
  split_ifs with same
  · rw [same, BitVec.sub_self]
    rfl
  · have negated : a - b = -(b - a) := by grind
    have positive : (b - a).toNat ≠ 0 := by
      intro zero
      have none_left : b - a = 0#64 := BitVec.eq_of_toNat_eq zero
      grind
    rw [negated, BitVec.toNat_neg, Nat.mod_eq_of_lt (by omega)]

theorem Apart.symm (h : Apart a n b k) : Apart b k a n := ⟨h.2, h.1⟩

/-- Parts of the two regions. -/
theorem Apart.part (h : Apart a n b k) {i j : Word} {w u : Nat} (left : i.toNat + w ≤ n)
    (right : j.toNat + u ≤ k) (first : 0 < w) (second : 0 < u) : Apart (a + i) w (b + j) u := by
  obtain ⟨below, above⟩ := h
  have distinct : a ≠ b := by
    rintro rfl
    rw [BitVec.sub_self] at below
    change n ≤ 0 at below
    omega
  rw [toNat_sub_swap, if_neg distinct] at above
  have gap : (b + j - (a + i)).toNat = (b - a).toNat + j.toNat - i.toNat := by
    have regroup : b + j - (a + i) = b - a + j - i := by grind
    have sum : (b - a + j).toNat = (b - a).toNat + j.toNat := BitVec.toNat_add_of_lt (by omega)
    rw [regroup, BitVec.toNat_sub_of_le (by rw [BitVec.le_def, sum]; omega), sum]
  have other : a + i ≠ b + j := by
    intro same
    rw [same, BitVec.sub_self] at gap
    change 0 = _ at gap
    omega
  refine ⟨by omega, ?_⟩
  rw [toNat_sub_swap, if_neg other]
  omega

theorem Apart.right (h : Apart a n b k) {j : Word} {w u : Nat} (left : w ≤ n)
    (right : j.toNat + u ≤ k) (first : 0 < w) (second : 0 < u) : Apart a w (b + j) u := by
  have both := h.part (i := 0) (by simpa using left) right first second
  rwa [show a + 0 = a from BitVec.add_zero a] at both

/-- Both regions lie where they lie when everything is moved. -/
theorem apart_add (base : Word) : Apart (base + a) n (base + b) k ↔ Apart a n b k := by
  have forth : base + b - (base + a) = b - a := by grind
  have back : base + a - (base + b) = a - b := by grind
  rw [Apart, forth, back, Apart]

end Apart

/-! ## Reading what was written -/

namespace Store

variable {memory : Store} {a b : Word}

theorem write_of_inside (memory : Store) (a value : Word) {i : Word} (inside : i.toNat < 8) :
    memory.write a value (a + i) = value.extractLsb' (8 * i.toNat) 8 := by
  have offset : a + i - a = i := by rw [BitVec.add_comm, BitVec.add_sub_cancel]
  rw [write, offset, if_pos inside]

/-- A word is made of its bytes. -/
theorem extractBytes (value : Word) :
    value.extractLsb' 56 8 ++ value.extractLsb' 48 8 ++ value.extractLsb' 40 8 ++
      value.extractLsb' 32 8 ++
      value.extractLsb' 24 8 ++ value.extractLsb' 16 8 ++ value.extractLsb' 8 8 ++
        value.extractLsb' 0 8 = value := by
  rw [BitVec.extractLsb'_append_extractLsb'_eq_extractLsb' (show 56 = 48 + 8 from rfl),
    BitVec.extractLsb'_append_extractLsb'_eq_extractLsb' (show 48 = 40 + 8 from rfl),
    BitVec.extractLsb'_append_extractLsb'_eq_extractLsb' (show 40 = 32 + 8 from rfl),
    BitVec.extractLsb'_append_extractLsb'_eq_extractLsb' (show 32 = 24 + 8 from rfl),
    BitVec.extractLsb'_append_extractLsb'_eq_extractLsb' (show 24 = 16 + 8 from rfl),
    BitVec.extractLsb'_append_extractLsb'_eq_extractLsb' (show 16 = 8 + 8 from rfl),
    BitVec.extractLsb'_append_extractLsb'_eq_extractLsb' (show 8 = 0 + 8 from rfl)]
  exact BitVec.extractLsb'_eq_self

@[simp] theorem read_write_self (memory : Store) (a value : Word) :
    (memory.write a value).read a = value := by
  have first : memory.write a value a = value.extractLsb' 0 8 := by
    have inside := write_of_inside memory a value (i := 0) (by decide)
    rwa [show a + 0 = a from BitVec.add_zero a] at inside
  simp only [read, first, write_of_inside memory a value (i := 1) (by decide),
    write_of_inside memory a value (i := 2) (by decide),
    write_of_inside memory a value (i := 3) (by decide),
    write_of_inside memory a value (i := 4) (by decide),
    write_of_inside memory a value (i := 5) (by decide),
    write_of_inside memory a value (i := 6) (by decide),
    write_of_inside memory a value (i := 7) (by decide)]
  exact extractBytes value

theorem read_write_of_apart (memory : Store) (value : Word) (apart : Apart a 8 b 8) :
    (memory.write a value).read b = memory.read b := by
  have outside : ∀ j : Word, j.toNat < 8 → memory.write a value (b + j) = memory (b + j) := by
    intro j inside
    have beyond :=
      (apart.right (Nat.le_refl 8) (show j.toNat + 1 ≤ 8 from inside) (by decide) (by decide)).1
    rw [write, if_neg (by omega)]
  have first := outside 0 (by decide)
  rw [show b + 0 = b from BitVec.add_zero b] at first
  simp only [read, first, outside 1 (by decide), outside 2 (by decide), outside 3 (by decide),
    outside 4 (by decide), outside 5 (by decide), outside 6 (by decide), outside 7 (by decide)]

theorem writeAll_append (memory : Store) (first second : List (Word × Word)) :
    memory.writeAll (first ++ second) = (memory.writeAll first).writeAll second := List.foldl_append

theorem read_writeAll_of_apart (memory : Store) {entries : List (Word × Word)}
    (apart : ∀ entry ∈ entries, Apart entry.1 8 b 8) :
    (memory.writeAll entries).read b = memory.read b := by
  induction entries generalizing memory with
  | nil => rfl
  | cons entry rest ih =>
      rw [List.forall_mem_cons] at apart
      exact (ih (memory.write entry.1 entry.2) apart.2).trans (read_write_of_apart memory _ apart.1)

/-- Words written apart from each other all stand. -/
theorem read_writeAll_of_mem (memory : Store) {entries : List (Word × Word)}
    (apart : entries.Pairwise fun one other => Apart one.1 8 other.1 8) {entry : Word × Word}
    (member : entry ∈ entries) : (memory.writeAll entries).read entry.1 = entry.2 := by
  induction entries generalizing memory with
  | nil => cases member
  | cons head rest ih =>
      obtain ⟨beside, apart⟩ := List.pairwise_cons.mp apart
      rcases List.mem_cons.mp member with rfl | later
      · exact (read_writeAll_of_apart _ fun other inside => (beside other inside).symm).trans
          (read_write_self memory _ _)
      · exact ih (memory.write head.1 head.2) apart later

end Store

end Mykonos.Lib
