import Mathlib.Algebra.Group.Nat.Defs
import Mathlib.Tactic.Common

/-! # Bytes in memory

Memory is a function from addresses to bytes. It holds a string of bytes at an
address when they stand there one after the other, and a number when these are its
digits to the base 256, the lowest first.
-/

namespace Mykonos.Lib

/-- The bytes stand in memory from the address on. -/
def Holds (memory : Nat → UInt8) : Nat → List UInt8 → Prop
  | _, [] => True
  | address, byte :: rest => memory address = byte ∧ Holds memory (address + 1) rest

instance (memory : Nat → UInt8) :
    (address : Nat) → (bytes : List UInt8) → Decidable (Holds memory address bytes)
  | _, [] => inferInstanceAs (Decidable True)
  | address, byte :: rest =>
      have := instDecidableHolds memory (address + 1) rest
      inferInstanceAs (Decidable (memory address = byte ∧ Holds memory (address + 1) rest))

/-- The bytes that stand in memory from the address on, so many of them. -/
def bytesAt (memory : Nat → UInt8) (address : Nat) : Nat → List UInt8
  | 0 => []
  | count + 1 => memory address :: bytesAt memory (address + 1) count

def readLittleEndian (memory : Nat → UInt8) (address : Nat) : Nat → Nat
  | 0 => 0
  | count + 1 => (memory address).toNat + 256 * readLittleEndian memory (address + 1) count

def littleEndian (value : Nat) : Nat → List UInt8
  | 0 => []
  | count + 1 => UInt8.ofNat value :: littleEndian (value / 256) count

variable {memory : Nat → UInt8} {address : Nat}

theorem holds_append {first second : List UInt8} :
    Holds memory address (first ++ second) ↔
      Holds memory address first ∧ Holds memory (address + first.length) second := by
  induction first generalizing address with
  | nil => simp [Holds]
  | cons byte rest ih =>
      simp only [List.cons_append, Holds, ih, List.length_cons, and_assoc]
      rw [Nat.add_assoc, Nat.add_comm 1]

theorem Holds.getElem {bytes : List UInt8} (h : Holds memory address bytes) {i : Nat}
    (below : i < bytes.length) :
    memory (address + i) = bytes[i] := by
  induction bytes generalizing address i with
  | nil => cases below
  | cons byte rest ih =>
      cases i with
      | zero => exact h.1
      | succ i =>
          rw [← Nat.add_assoc, Nat.add_right_comm]
          exact ih h.2 (Nat.lt_of_succ_lt_succ below)

@[simp] theorem bytesAt_length (memory : Nat → UInt8) (address count : Nat) :
    (bytesAt memory address count).length = count := by
  induction count generalizing address with
  | zero => rfl
  | succ count ih => rw [bytesAt, List.length_cons, ih]

theorem bytesAt_add (memory : Nat → UInt8) (address first second : Nat) :
    bytesAt memory address (first + second) =
      bytesAt memory address first ++ bytesAt memory (address + first) second := by
  induction first generalizing address with
  | zero => rw [Nat.zero_add]; rfl
  | succ first ih =>
      rw [Nat.add_right_comm, bytesAt, ih, bytesAt, List.cons_append, Nat.add_assoc, Nat.add_comm 1]

theorem holds_bytesAt (memory : Nat → UInt8) (address count : Nat) :
    Holds memory address (bytesAt memory address count) := by
  induction count generalizing address with
  | zero => trivial
  | succ count ih => exact ⟨rfl, ih (address + 1)⟩

theorem Holds.bytesAt {bytes : List UInt8} (h : Holds memory address bytes) :
    bytesAt memory address bytes.length = bytes := by
  induction bytes generalizing address with
  | nil => rfl
  | cons byte rest ih => rw [List.length_cons, Lib.bytesAt, h.1, ih h.2]

theorem mem_bytesAt {byte : UInt8} {count : Nat} :
    byte ∈ bytesAt memory address count ↔ ∃ i < count, memory (address + i) = byte := by
  constructor
  · intro member
    obtain ⟨i, below, rfl⟩ := List.mem_iff_getElem.mp member
    exact ⟨i, by rwa [bytesAt_length] at below, (holds_bytesAt memory address count).getElem below⟩
  · rintro ⟨i, below, rfl⟩
    rw [(holds_bytesAt memory address count).getElem (by rwa [bytesAt_length])]
    exact List.getElem_mem _

@[simp] theorem littleEndian_length (value count : Nat) :
    (littleEndian value count).length = count := by
  induction count generalizing value with
  | zero => rfl
  | succ count ih => rw [littleEndian, List.length_cons, ih]

theorem readLittleEndian_lt (memory : Nat → UInt8) (address count : Nat) :
    readLittleEndian memory address count < 256 ^ count := by
  induction count generalizing address with
  | zero => exact Nat.one_pos
  | succ count ih =>
      have low := (memory address).toNat_lt
      have high := ih (address + 1)
      rw [readLittleEndian, Nat.pow_succ]
      omega

/-- What is written is read back. -/
theorem Holds.readLittleEndian {value count : Nat}
    (h : Holds memory address (littleEndian value count)) (fits : value < 256 ^ count) :
    readLittleEndian memory address count = value := by
  induction count generalizing address value with
  | zero => exact (Nat.lt_one_iff.mp fits).symm
  | succ count ih =>
      have digit : (memory address).toNat = value % 256 := by rw [h.1, UInt8.toNat_ofNat']
      have rest := ih h.2 (Nat.div_lt_of_lt_mul (by rwa [Nat.mul_comm, ← Nat.pow_succ]))
      rw [Lib.readLittleEndian, digit, rest, Nat.mod_add_div]

end Mykonos.Lib
