import Mykonos.Lib.Bytes

/-! # Copying memory

`memset` and `memcpy` write words of eight bytes first and what is left byte by byte. The
word that `memset` writes has the byte eight times. Between areas that do not overlap,
`memcpy` leaves the destination with the bytes of the source.
-/

namespace Mykonos.Util

open Lib

/-- The bytes are written from the address on. -/
def overwrite (memory : Nat → UInt8) (address : Nat) (bytes : List UInt8) (other : Nat) : UInt8 :=
  if address ≤ other then (bytes[other - address]?).getD (memory other) else memory other

/-- `rep movs` with units of `size` bytes, with the pointers that it leaves behind. -/
def repMovs (size : Nat) : Nat → (Nat → UInt8) → Nat → Nat → (Nat → UInt8) × Nat × Nat
  | 0, memory, dst, src => (memory, dst, src)
  | count + 1, memory, dst, src =>
      repMovs size count (overwrite memory dst (bytesAt memory src size)) (dst + size) (src + size)

def memcpy (memory : Nat → UInt8) (dst src n : Nat) : Nat → UInt8 :=
  let (memory, tmpDst, tmpSrc) := repMovs 8 (n / 8) memory dst src
  (repMovs 1 (n % 8) memory tmpDst tmpSrc).1

/-- `rep stos` with units of `size` bytes, with the pointer that it leaves behind. -/
def repStos (size : Nat) (rax : BitVec 64) : Nat → (Nat → UInt8) → Nat → (Nat → UInt8) × Nat
  | 0, memory, str => (memory, str)
  | count + 1, memory, str =>
      repStos size rax count (overwrite memory str (littleEndian rax.toNat size)) (str + size)

/-- The character is an `int`, of which one byte is taken. -/
def memset (memory : Nat → UInt8) (str : Nat) (c : BitVec 32) (n : Nat) : Nat → UInt8 :=
  let byte := (c.setWidth 8).setWidth 64
  let (memory, tmpStr) := repStos 8 (byte * 0x0101010101010101) (n / 8) memory str
  (repStos 1 byte (n % 8) memory tmpStr).1

/-- The areas have no byte in common. -/
def AreasApart (dst src n : Nat) : Prop :=
  dst + n ≤ src ∨ src + n ≤ dst

variable {memory : Nat → UInt8}

@[simp] theorem overwrite_nil (address : Nat) : overwrite memory address [] = memory := by
  funext other
  rw [overwrite]
  split
  · rfl
  · rfl

theorem overwrite_getElem {address i : Nat} {bytes : List UInt8} (inside : i < bytes.length) :
    overwrite memory address bytes (address + i) = bytes[i] := by
  rw [overwrite, if_pos (Nat.le_add_right _ _), Nat.add_sub_cancel_left,
    List.getElem?_eq_getElem inside]
  rfl

theorem overwrite_of_outside {address other : Nat} {bytes : List UInt8}
    (outside : other < address ∨ address + bytes.length ≤ other) :
    overwrite memory address bytes other = memory other := by
  rw [overwrite]
  split
  · rw [List.getElem?_eq_none (by omega)]
    rfl
  · rfl

theorem overwrite_append (address : Nat) (first second : List UInt8) :
    overwrite memory address (first ++ second) =
      overwrite (overwrite memory address first) (address + first.length) second := by
  funext other
  rw [overwrite, overwrite, overwrite]
  by_cases above : address ≤ other
  · by_cases beyond : address + first.length ≤ other
    · have past : first[other - address]? = none := List.getElem?_eq_none (by omega)
      rw [if_pos above, if_pos beyond, if_pos above, List.getElem?_append_right (by omega),
        past, Nat.sub_sub]
      rfl
    · rw [if_pos above, if_neg beyond, if_pos above, List.getElem?_append_left (by omega)]
  · rw [if_neg above, if_neg (by omega), if_neg above]

theorem overwrite_cons (address : Nat) (byte : UInt8) (bytes : List UInt8) :
    overwrite memory address (byte :: bytes) =
      overwrite (overwrite memory address [byte]) (address + 1) bytes :=
  overwrite_append address [byte] bytes

theorem bytesAt_getElem? (address count i : Nat) :
    (bytesAt memory address count)[i]? =
      if i < count then some (memory (address + i)) else none := by
  split
  · rename_i below
    have inside : i < (bytesAt memory address count).length := by rwa [bytesAt_length]
    rw [List.getElem?_eq_getElem inside, (holds_bytesAt memory address count).getElem inside]
  · rename_i above
    exact List.getElem?_eq_none (by rw [bytesAt_length]; omega)

theorem bytesAt_congr {memory' : Nat → UInt8} {address count : Nat}
    (same : ∀ i < count, memory' (address + i) = memory (address + i)) :
    bytesAt memory' address count = bytesAt memory address count := by
  apply List.ext_getElem?
  intro i
  rw [bytesAt_getElem?, bytesAt_getElem?]
  split
  · rename_i below
    rw [same i below]
  · rfl

theorem bytesAt_overwrite_self (memory : Nat → UInt8) (address : Nat) (bytes : List UInt8) :
    bytesAt (overwrite memory address bytes) address bytes.length = bytes := by
  apply List.ext_getElem?
  intro i
  rw [bytesAt_getElem?]
  split
  · rename_i below
    rw [overwrite_getElem below, List.getElem?_eq_getElem below]
  · rename_i above
    exact (List.getElem?_eq_none (Nat.le_of_not_lt above)).symm

theorem bytesAt_overwrite_of_outside {address other count : Nat} {bytes : List UInt8}
    (outside : other + count ≤ address ∨ address + bytes.length ≤ other) :
    bytesAt (overwrite memory address bytes) other count = bytesAt memory other count :=
  bytesAt_congr fun _ _ => overwrite_of_outside (by omega)

/-- A repeated move between areas that do not overlap. -/
theorem repMovs_eq (size : Nat) {count dst src : Nat} (apart : AreasApart dst src (size * count)) :
    repMovs size count memory dst src =
      (overwrite memory dst (bytesAt memory src (size * count)), dst + size * count,
        src + size * count) := by
  induction count generalizing memory dst src with
  | zero => simp [repMovs, bytesAt]
  | succ count ih =>
      have total : size * (count + 1) = size + size * count := by rw [Nat.mul_succ, Nat.add_comm]
      rw [AreasApart, total] at apart
      have later : AreasApart (dst + size) (src + size) (size * count) := by
        rw [AreasApart]
        omega
      rw [repMovs, ih later, bytesAt_overwrite_of_outside (by rw [bytesAt_length]; omega),
        total, bytesAt_add, overwrite_append, bytesAt_length, Nat.add_assoc, Nat.add_assoc]

/-- What `memcpy` does. -/
theorem memcpy_eq {dst src n : Nat} (apart : AreasApart dst src n) :
    memcpy memory dst src n = overwrite memory dst (bytesAt memory src n) := by
  have parts : 8 * (n / 8) + n % 8 = n := Nat.div_add_mod n 8
  rw [AreasApart] at apart
  have words : AreasApart dst src (8 * (n / 8)) := by
    rw [AreasApart]
    omega
  have bytes : AreasApart (dst + 8 * (n / 8)) (src + 8 * (n / 8)) (1 * (n % 8)) := by
    rw [AreasApart]
    omega
  rw [memcpy, repMovs_eq 8 words]
  dsimp only
  rw [repMovs_eq 1 bytes]
  dsimp only
  rw [Nat.one_mul, bytesAt_overwrite_of_outside (by rw [bytesAt_length]; omega)]
  conv_rhs => rw [← parts, bytesAt_add, overwrite_append, bytesAt_length]

theorem repMovs_fst_of_outside (size : Nat) {count dst src other : Nat}
    (outside : other < dst ∨ dst + size * count ≤ other) :
    (repMovs size count memory dst src).1 other = memory other := by
  induction count generalizing memory dst src with
  | zero => rfl
  | succ count ih =>
      rw [Nat.mul_succ] at outside
      rw [repMovs, ih (by omega), overwrite_of_outside (by rw [bytesAt_length]; omega)]

theorem repMovs_dst (memory : Nat → UInt8) (size count dst src : Nat) :
    (repMovs size count memory dst src).2.1 = dst + size * count := by
  induction count generalizing memory dst src with
  | zero => rfl
  | succ count ih =>
      rw [repMovs, ih, Nat.mul_succ]
      omega

/-- `memcpy` writes nothing outside the destination, also where the areas overlap. -/
theorem memcpy_of_outside {dst src n other : Nat} (outside : other < dst ∨ dst + n ≤ other) :
    memcpy memory dst src n other = memory other := by
  have parts : 8 * (n / 8) + n % 8 = n := Nat.div_add_mod n 8
  have reached := repMovs_dst memory 8 (n / 8) dst src
  rw [memcpy]
  dsimp only
  rw [repMovs_fst_of_outside 1 (by rw [reached]; omega), repMovs_fst_of_outside 8 (by omega)]

theorem overwrite_bytesAt (memory : Nat → UInt8) (address count : Nat) :
    overwrite memory address (bytesAt memory address count) = memory := by
  funext other
  rw [overwrite, bytesAt_getElem?]
  split
  · rename_i above
    rw [Nat.add_sub_cancel' above]
    split
    · rfl
    · rfl
  · rfl

/-- Moving bytes to where they are changes nothing. -/
theorem repMovs_self (memory : Nat → UInt8) (size count address : Nat) :
    repMovs size count memory address address =
      (memory, address + size * count, address + size * count) := by
  induction count generalizing address with
  | zero => rfl
  | succ count ih => rw [repMovs, overwrite_bytesAt, ih, Nat.mul_succ, Nat.add_assoc,
      Nat.add_comm size]

theorem memcpy_self (memory : Nat → UInt8) (address n : Nat) :
    memcpy memory address address n = memory := by
  rw [memcpy, repMovs_self]
  dsimp only
  rw [repMovs_self]

/-! ## Filling memory -/

/-- A number whose digits are ones. -/
def ones : Nat → Nat
  | 0 => 0
  | count + 1 => 1 + 256 * ones count

/-- The product with such a number repeats a byte. -/
theorem littleEndian_ones (byte : UInt8) (count : Nat) :
    littleEndian (byte.toNat * ones count) count = List.replicate count byte := by
  induction count with
  | zero => rfl
  | succ count ih =>
      have small := byte.toNat_lt
      have product :
          byte.toNat * ones (count + 1) = byte.toNat + 256 * (byte.toNat * ones count) := by
        rw [ones, Nat.mul_add, Nat.mul_one, Nat.mul_left_comm]
      have digit : UInt8.ofNat (byte.toNat * ones (count + 1)) = byte := by
        apply UInt8.toNat_inj.mp
        rw [UInt8.toNat_ofNat', product]
        omega
      have rest : byte.toNat * ones (count + 1) / 256 = byte.toNat * ones count := by
        rw [product]
        omega
      rw [littleEndian, digit, rest, ih, List.replicate_succ]

/-- A repeated store of a unit that consists of one byte. -/
theorem repStos_eq {size : Nat} {rax : BitVec 64} {byte : UInt8}
    (unit : littleEndian rax.toNat size = List.replicate size byte) (count str : Nat) :
    repStos size rax count memory str =
      (overwrite memory str (List.replicate (size * count) byte), str + size * count) := by
  induction count generalizing memory str with
  | zero => simp [repStos]
  | succ count ih =>
      have total : size * (count + 1) = size + size * count := by rw [Nat.mul_succ, Nat.add_comm]
      rw [repStos, ih, unit, total, ← List.replicate_append_replicate, overwrite_append,
        List.length_replicate, Nat.add_assoc]

/-- What `memset` does. -/
theorem memset_eq (memory : Nat → UInt8) (str : Nat) (c : BitVec 32) (n : Nat) :
    memset memory str c n = overwrite memory str
      (List.replicate n (UInt8.ofBitVec (c.setWidth 8))) := by
  have parts : n = 8 * (n / 8) + n % 8 := (Nat.div_add_mod n 8).symm
  generalize fill : UInt8.ofBitVec (c.setWidth 8) = byte
  have small := byte.toNat_lt
  have value : ((c.setWidth 8).setWidth 64).toNat = byte.toNat := by
    rw [← fill]
    exact BitVec.toNat_setWidth_of_le (by decide)
  -- the product of a byte fits a word
  have word : ((c.setWidth 8).setWidth 64 * 0x0101010101010101).toNat = byte.toNat * ones 8 := by
    rw [BitVec.toNat_mul, value]
    exact Nat.mod_eq_of_lt (show byte.toNat * 0x0101010101010101 < 2 ^ 64 by omega)
  have words : littleEndian ((c.setWidth 8).setWidth 64 * 0x0101010101010101).toNat 8 =
      List.replicate 8 byte := by
    rw [word, littleEndian_ones]
  have bytes : littleEndian ((c.setWidth 8).setWidth 64).toNat 1 = List.replicate 1 byte := by
    rw [value, ← littleEndian_ones, ones, ones, Nat.mul_one]
  rw [memset]
  dsimp only
  rw [repStos_eq words]
  dsimp only
  rw [repStos_eq bytes, Nat.one_mul]
  conv_rhs => rw [parts, ← List.replicate_append_replicate, overwrite_append, List.length_replicate]

end Mykonos.Util
