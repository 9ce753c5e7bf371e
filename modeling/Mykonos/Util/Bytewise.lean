import Mykonos.Util.Copying

/-! # Memory routines byte by byte

`memset` and `memcpy` do what loops over single bytes do.
-/

namespace Mykonos.Util

open Lib

/-- A loop that stores a byte, so many times. -/
def setBytes (byte : UInt8) : Nat → (Nat → UInt8) → Nat → Nat → UInt8
  | 0, memory, _ => memory
  | n + 1, memory, str => setBytes byte n (overwrite memory str [byte]) (str + 1)

/-- A loop that copies single bytes upwards. -/
def copyBytes : Nat → (Nat → UInt8) → Nat → Nat → Nat → UInt8
  | 0, memory, _, _ => memory
  | n + 1, memory, dst, src => copyBytes n (overwrite memory dst [memory src]) (dst + 1) (src + 1)

variable {memory : Nat → UInt8}

theorem setBytes_eq (byte : UInt8) (n str : Nat) :
    setBytes byte n memory str = overwrite memory str (List.replicate n byte) := by
  induction n generalizing memory str with
  | zero => exact (overwrite_nil str).symm
  | succ n ih => rw [setBytes, ih, List.replicate_succ, ← overwrite_cons]

/-- The loop is a repeated move of single bytes. -/
theorem copyBytes_eq (memory : Nat → UInt8) (n dst src : Nat) :
    copyBytes n memory dst src = (repMovs 1 n memory dst src).1 := by
  induction n generalizing memory dst src with
  | zero => rfl
  | succ n ih =>
      rw [copyBytes, ih]
      rfl

/-- The byte of an `int`. -/
theorem toNat_setWidth_eq (c : BitVec 32) :
    ((UInt8.ofBitVec (c.setWidth 8)).toNat : Int) = c.toInt % 256 := by
  have low : (UInt8.ofBitVec (c.setWidth 8)).toNat = c.toNat % 256 := BitVec.toNat_setWidth 8 c
  rw [low, BitVec.toInt_eq_toNat_cond]
  split <;> omega

theorem memset_inside (memory : Nat → UInt8) (str : Nat) (c : BitVec 32) {n i : Nat}
    (inside : i < n) :
    ((memset memory str c n (str + i)).toNat : Int) = c.toInt % 256 := by
  rw [memset_eq, overwrite_getElem (by rwa [List.length_replicate]), List.getElem_replicate,
    toNat_setWidth_eq]

theorem memset_of_outside {str n other : Nat} (c : BitVec 32)
    (outside : other < str ∨ str + n ≤ other) :
    memset memory str c n other = memory other := by
  rw [memset_eq]
  exact overwrite_of_outside (by rwa [List.length_replicate])

theorem memcpy_inside {dst src n i : Nat} (apart : AreasApart dst src n) (inside : i < n) :
    memcpy memory dst src n (dst + i) = memory (src + i) := by
  have length : i < (bytesAt memory src n).length := by rwa [bytesAt_length]
  rw [memcpy_eq apart, overwrite_getElem length, ← (holds_bytesAt memory src n).getElem length]

/-- `memset` sets its bytes to the remainder of the `int` modulo 256 and `memcpy` copies
    between areas that do not overlap, as the loops do, and nothing else changes. -/
theorem words_as_bytes :
    (∀ (memory : Nat → UInt8) (str : Nat) (c : BitVec 32) (n : Nat),
      memset memory str c n = setBytes (UInt8.ofBitVec (c.setWidth 8)) n memory str ∧
      (∀ i < n, ((memset memory str c n (str + i)).toNat : Int) = c.toInt % 256) ∧
      ∀ other, other < str ∨ str + n ≤ other → memset memory str c n other = memory other) ∧
    ∀ (memory : Nat → UInt8) (dst src n : Nat), AreasApart dst src n →
      memcpy memory dst src n = copyBytes n memory dst src ∧
      (∀ i < n, memcpy memory dst src n (dst + i) = memory (src + i)) ∧
      ∀ other, other < dst ∨ dst + n ≤ other → memcpy memory dst src n other = memory other := by
  constructor
  · intro memory str c n
    refine ⟨?_, fun i inside => memset_inside memory str c inside, fun other => memset_of_outside c⟩
    rw [memset_eq, setBytes_eq]
  · intro memory dst src n apart
    refine ⟨?_, fun i => memcpy_inside apart, fun other => memcpy_of_outside⟩
    have bytes : AreasApart dst src (1 * n) := by rwa [Nat.one_mul]
    rw [memcpy_eq apart, copyBytes_eq, repMovs_eq 1 bytes, Nat.one_mul]

/-- Eleven bytes are copied to where the area ends. -/
theorem words_as_bytes_adjacent :
    AreasApart 111 100 11 ∧ ∀ memory, memcpy memory 111 100 11 = copyBytes 11 memory 111 100 := by
  have apart : AreasApart 111 100 11 := .inr (by decide)
  exact ⟨apart, fun memory => (words_as_bytes.2 memory 111 100 11 apart).1⟩

example : memset (fun _ => 1) 5 (-2) 11 15 = 254 := by decide +kernel

end Mykonos.Util
