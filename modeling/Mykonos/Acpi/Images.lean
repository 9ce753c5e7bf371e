import Mykonos.Acpi.Tables

/-! # Tables in memory

Loading a table when every mapping succeeds. A pointer into a mapped window is named by
the physical address it shows, so that the bytes behind a header are those from the
address of the table on, beyond its declared length as well.
-/

namespace Mykonos.Acpi

open Lib

/-- The bytes from a physical address on. -/
def behind (memory : Nat → UInt8) (header : Nat) : Nat → UInt8 :=
  fun offset => memory ((header + offset) % 2 ^ 64)

/-- What the calls are answered when every mapping succeeds. -/
def answers (memory : Nat → UInt8) : Call → Nat
  | .mapAddress physicalAddress _ _ => physicalAddress
  | .read header offset => (behind memory header offset).toNat
  | _ => 0

/-- The number at an offset of a table. -/
def number (memory : Nat → UInt8) (header offset count : Nat) : Nat :=
  readLittleEndian (behind memory header) offset count

/-- The length that a table declares. -/
def declared (memory : Nat → UInt8) (header : Nat) : Nat := number memory header 4 4

theorem declared_lt (memory : Nat → UInt8) (header : Nat) : declared memory header < 2 ^ 32 :=
  readLittleEndian_lt _ _ 4

section Reading

variable {memory : Nat → UInt8} {header offset count : Nat}

@[simp] theorem value_read :
    (read header offset count).value (answers memory) =
      some (number memory header offset count) := by
  induction count generalizing offset with
  | zero => rfl
  | succ count ih => simp [read, ih, number, readLittleEndian, answers]

@[simp] theorem all_read {P : Call → Prop} :
    (read header offset count).All (answers memory) P ↔
      ∀ i < count, P (.read header (offset + i)) := by
  induction count generalizing offset with
  | zero => simp [read]
  | succ count ih =>
      simp only [read, Program.all_bind, Program.all_perform, Program.all_pure, ih,
        implies_true, and_true, Program.value_perform, Option.some.injEq, forall_eq']
      constructor
      · rintro ⟨first, rest⟩ i below
        cases i with
        | zero => exact first
        | succ i =>
            rw [← Nat.add_assoc, Nat.add_right_comm]
            exact rest i (Nat.lt_of_succ_lt_succ below)
      · intro all
        refine ⟨all 0 (Nat.succ_pos count), fun i below => ?_⟩
        rw [Nat.add_assoc, Nat.add_comm 1]
        exact all (i + 1) (Nat.succ_lt_succ below)

@[simp] theorem value_length :
    (length header).value (answers memory) = some (declared memory header) := value_read

@[simp] theorem value_mapAddress (physicalAddress size : Nat) (cacheable : Bool) :
    (mapAddress physicalAddress size cacheable).value (answers memory) = some physicalAddress := rfl

@[simp] theorem value_unmapMemory (ptr size : Nat) :
    (unmapMemory ptr size).value (answers memory) = some 0 := rfl

@[simp] theorem value_assign (array : TableArray) (index : Nat) :
    (assign header array index).value (answers memory) = some 0 := rfl

/-- The sum of so many bytes from an offset on, modulo 256. -/
def byteSum (memory : Nat → UInt8) (header : Nat) : Nat → Nat → Nat → Nat
  | 0, _, sum => sum
  | count + 1, i, sum =>
    byteSum memory header count (i + 1) ((sum + number memory header i 1) % 256)

theorem value_checksumLoop (i sum : Nat) :
    (checksumLoop header count i sum).value (answers memory) =
      some (byteSum memory header count i sum) := by
  induction count generalizing i sum with
  | zero => rfl
  | succ count ih => simp [checksumLoop, ih, byteSum]

/-- The bytes of the table add up to zero. -/
def Passes (memory : Nat → UInt8) (header : Nat) : Prop :=
  byteSum memory header (declared memory header) 0 0 = 0

instance (memory : Nat → UInt8) (header : Nat) : Decidable (Passes memory header) :=
  inferInstanceAs (Decidable (_ = _))

@[simp] theorem value_doChecksum :
    (doChecksum header).value (answers memory) = some (decide (Passes memory header)) := by
  simp only [doChecksum, Program.value_bind, value_length, Option.bind_some, value_checksumLoop,
    Program.value_pure]
  rfl

/-- The four bytes of the signature. -/
def signature (memory : Nat → UInt8) (header : Nat) : List Nat :=
  [number memory header 0 1, number memory header 1 1, number memory header 2 1,
    number memory header 3 1]

@[simp] theorem value_readSignature :
    (readSignature header).value (answers memory) = some (signature memory header) := by
  simp [readSignature, signature]

end Reading

/-- A table with its length and checksum set right. -/
def sealed (signature body : List UInt8) : List UInt8 :=
  let start := signature ++ littleEndian (headerSize + body.length) 4 ++ [1]
  start ++ [0 - (start ++ body).foldl (· + ·) 0] ++ List.replicate 26 0 ++ body

/-- Memory that is zero but for some bytes from an address on. -/
def memoryAt (address : Nat) (bytes : List UInt8) (a : Nat) : UInt8 :=
  if address ≤ a then bytes.getD (a - address) 0 else 0

end Mykonos.Acpi
