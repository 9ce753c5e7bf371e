import Mathlib.Data.Nat.Bitwise
import Mykonos.Acpi.Images

/-! # The entries of a MADT

A well-formed MADT is a sequence of records, each with its type, its length and the
bytes its type needs. The walk decodes them one by one, and each of the three lists
keeps the first records of its own kind.
-/

namespace Mykonos.Acpi

open Apic Lib

/-! ## Records -/

/-- The size of a record of a type. -/
def neededSize (type : UInt8) : Nat :=
  if type = 0 then 8 else if type = 1 then 12 else if type = 2 then 10 else 2

/-- A record, with any bytes after those it needs. -/
structure Record where
  type : UInt8
  body : List UInt8
  needed : neededSize type ≤ body.length + 2
  short : body.length + 2 < 256

namespace Record

def size (r : Record) : Nat := r.body.length + 2

def bytes (r : Record) : List UInt8 := r.type :: UInt8.ofNat r.size :: r.body

@[simp] theorem bytes_length (r : Record) : r.bytes.length = r.size := rfl

/-- The number at an offset of the record. -/
def field (r : Record) (offset count : Nat) : Nat :=
  readLittleEndian (fun i => r.bytes.getD i 0) offset count

/-- The id in an enabled local APIC record. -/
def localApic (r : Record) : Option LocalApicDescriptor :=
  if r.type = 0 ∧ (r.field 4 4).testBit 0 then some ⟨r.field 3 1⟩ else none

/-- The address and the first interrupt in an IO-APIC record. -/
def ioApic (r : Record) : Option IoApicDescriptor :=
  if r.type = 1 then some ⟨r.field 4 4, r.field 8 4⟩ else none

/-- The override in a record of one. -/
def gsiOverride (r : Record) : Option MadtGsiOverride :=
  if r.type = 2 then
    some ⟨(r.field 8 2).testBit 3, !(r.field 8 2).testBit 1, r.field 3 1, r.field 4 4⟩
  else none

end Record

/-- The records stand end to end after the header, up to the declared length. -/
structure WellFormed (memory : Nat → UInt8) (header : Nat) (records : List Record) : Prop where
  stored : Holds (behind memory header) madtSize (records.flatMap Record.bytes)
  length : declared memory header = madtSize + (records.flatMap Record.bytes).length

/-! ## Lists with a cap -/

/-- Append as long as the list is shorter than the cap. -/
def capped {α : Type} (cap : Nat) (l : List α) : Option α → List α
  | some a => if l.length < cap then l ++ [a] else l
  | none => l

theorem foldl_capped {α β : Type} {cap : Nat} (f : β → Option α) (items : List β) {l : List α}
    (short : l.length ≤ cap) :
    items.foldl (fun l item => capped cap l (f item)) l = (l ++ items.filterMap f).take cap := by
  induction items generalizing l with
  | nil => simpa using (List.take_of_length_le short).symm
  | cons item rest ih =>
      rw [List.foldl_cons]
      cases found : f item with
      | none => rw [List.filterMap_cons_none found]; exact ih short
      | some a =>
          rw [List.filterMap_cons_some found]
          by_cases room : l.length < cap
          · rw [capped, if_pos room, ih (by rw [List.length_append]; exact room), List.append_assoc]
            rfl
          · have full : l.length = cap := by omega
            rw [capped, if_neg room, ih short, List.take_append_of_le_length full.ge,
              List.take_append_of_le_length full.ge]

/-! ## One record -/

/-- What a record adds to the manager. -/
def MadtTableManager.add (m : MadtTableManager) (r : Record) : MadtTableManager :=
  { m with
    localApics := capped maxLocalApics m.localApics r.localApic
    ioApics := capped maxIoApics m.ioApics r.ioApic
    gsiOverrides := capped maxGsiOverrides m.gsiOverrides r.gsiOverride }

section Decoding

variable {memory : Nat → UInt8} {header entry : Nat} {r : Record}

/-- The fields of a record are read where it stands. -/
theorem number_record (stored : Holds (behind memory header) entry r.bytes) {offset count : Nat}
    (inside : offset + count ≤ r.size) :
    number memory header (entry + offset) count = r.field offset count := by
  simp only [number, Record.field]
  induction count generalizing offset with
  | zero => rfl
  | succ count ih =>
      have here : offset < r.bytes.length := by rw [Record.bytes_length]; omega
      have later : offset + 1 + count ≤ r.size := by omega
      rw [readLittleEndian, readLittleEndian, stored.getElem here, Nat.add_assoc, ih later,
        List.getD_eq_getElem?_getD, List.getElem?_eq_getElem here, Option.getD_some]

theorem number_type (stored : Holds (behind memory header) entry r.bytes) :
    number memory header entry 1 = r.type.toNat := by
  have first := stored.1
  simp [number, readLittleEndian, first]

theorem number_size (stored : Holds (behind memory header) entry r.bytes) :
    number memory header (entry + 1) 1 = r.size := by
  have second := stored.2.1
  have short := r.short
  simp only [number, readLittleEndian, second, UInt8.toNat_ofNat', Nat.mul_zero, Nat.add_zero]
  exact Nat.mod_eq_of_lt short

theorem and_ne_zero_iff (x i : Nat) : x &&& 2 ^ i ≠ 0 ↔ x.testBit i = true := by
  rw [Nat.and_two_pow]
  cases x.testBit i <;> simp

theorem value_madtLocalApic (m : MadtTableManager) :
    (madtLocalApic header entry m).value (answers memory) = some { m with
      localApics := capped maxLocalApics m.localApics
        (if (number memory header (entry + 4) 4).testBit 0 then some
          ⟨number memory header (entry + 3) 1⟩
          else none) } := by
  have bit := and_ne_zero_iff (number memory header (entry + 4) 4) 0
  rw [Nat.pow_zero] at bit
  simp only [madtLocalApic, Program.value_bind, value_read, Option.bind_some, bit]
  by_cases enabled : (number memory header (entry + 4) 4).testBit 0 = true
  · by_cases room : m.localApics.length < maxLocalApics
    · rw [if_pos ⟨enabled, room⟩, if_pos enabled, capped, if_pos room]
      simp
    · rw [if_neg fun both => room both.2, if_pos enabled, capped, if_neg room, Program.value_pure]
  · rw [if_neg fun both => enabled both.1, if_neg enabled, capped, Program.value_pure]

theorem value_madtIoApic (m : MadtTableManager) :
    (madtIoApic header entry m).value (answers memory) = some { m with
      ioApics := capped maxIoApics m.ioApics
        (some ⟨number memory header (entry + 4) 4, number memory header (entry + 8) 4⟩) } := by
  by_cases room : m.ioApics.length < maxIoApics
  · simp [madtIoApic, room, capped]
  · simp [madtIoApic, room, capped]

theorem value_madtGsiOverride (m : MadtTableManager) :
    (madtGsiOverride header entry m).value (answers memory) = some { m with
      gsiOverrides := capped maxGsiOverrides m.gsiOverrides
        (some ⟨(number memory header (entry + 8) 2).testBit 3,
          !(number memory header (entry + 8) 2).testBit 1, number memory header (entry + 3) 1,
          number memory header (entry + 4) 4⟩) } := by
  have trigger := and_ne_zero_iff (number memory header (entry + 8) 2) 3
  have polarity := and_ne_zero_iff (number memory header (entry + 8) 2) 1
  by_cases room : m.gsiOverrides.length < maxGsiOverrides
  · have level : decide (number memory header (entry + 8) 2 &&& 8 ≠ 0) =
        (number memory header (entry + 8) 2).testBit 3 :=
          Bool.eq_iff_iff.mpr (decide_eq_true_iff.trans trigger)
    have high : decide (number memory header (entry + 8) 2 &&& 2 = 0) =
        !(number memory header (entry + 8) 2).testBit 1 := by
      rw [Bool.eq_iff_iff, decide_eq_true_iff, Bool.not_eq_true', ← Bool.not_eq_true, ← polarity]
      exact not_not.symm
    simp only [madtGsiOverride, room, if_true, capped, Program.value_bind, value_assign, value_read,
      Option.bind_some, Program.value_pure, level, high]
  · simp [madtGsiOverride, room, capped]

/-- The body of the walk at a record. -/
theorem value_madtEntry (stored : Holds (behind memory header) entry r.bytes)
    (m : MadtTableManager) :
    (madtEntry header entry m).value (answers memory) = some (m.add r) := by
  have needed : neededSize r.type ≤ r.size := r.needed
  have whole : ∀ {offset count}, offset + count ≤ r.size →
      number memory header (entry + offset) count = r.field offset count := number_record stored
  have type := number_type stored
  have types : ∀ n : UInt8, number memory header entry 1 = n.toNat ↔ r.type = n := by
    intro n
    rw [type, UInt8.toNat_inj]
  have zero := types 0
  have one := types 1
  have two := types 2
  rw [UInt8.toNat_zero] at zero
  rw [show (1 : UInt8).toNat = 1 from rfl] at one
  rw [show (2 : UInt8).toNat = 2 from rfl] at two
  simp only [madtEntry, Program.value_bind, value_read, Option.bind_some, zero, one, two]
  by_cases first : r.type = 0
  · have size : 8 ≤ r.size := by rwa [neededSize, if_pos first] at needed
    have noIoApic : r.ioApic = none := by simp [Record.ioApic, first]
    have noOverride : r.gsiOverride = none := by simp [Record.gsiOverride, first]
    rw [if_pos first, value_madtLocalApic, whole (by omega), whole (by omega),
      MadtTableManager.add, noIoApic, noOverride]
    simp only [Record.localApic, first, true_and, capped]
  · by_cases second : r.type = 1
    · have size : 12 ≤ r.size := by rwa [neededSize, if_neg first, if_pos second] at needed
      have noLocalApic : r.localApic = none := by simp [Record.localApic, first]
      have noOverride : r.gsiOverride = none := by simp [Record.gsiOverride, second]
      rw [if_neg first, if_pos second, value_madtIoApic, whole (by omega), whole (by omega),
        MadtTableManager.add, noLocalApic, noOverride]
      simp only [Record.ioApic, second, if_true, capped]
    · have noLocalApic : r.localApic = none := by simp [Record.localApic, first]
      have noIoApic : r.ioApic = none := by simp [Record.ioApic, second]
      rw [if_neg first, if_neg second]
      by_cases third : r.type = 2
      · have size : 10 ≤ r.size := by
          rwa [neededSize, if_neg first, if_neg second, if_pos third] at needed
        rw [if_pos third, value_madtGsiOverride, whole (by omega), whole (by omega),
          whole (by omega), MadtTableManager.add, noLocalApic, noIoApic]
        simp only [Record.gsiOverride, third, if_true, capped]
      · have noOverride : r.gsiOverride = none := by simp [Record.gsiOverride, third]
        rw [if_neg third, Program.value_pure, MadtTableManager.add, noLocalApic,
          noIoApic, noOverride]
        rfl

/-! ## The walk -/

/-- The walk over records that stand end to end, given fuel for one step more. -/
theorem value_madtLoop {records : List Record} {tableLength fuel : Nat}
    (stored : Holds (behind memory header) entry (records.flatMap Record.bytes))
    (length : tableLength = entry + (records.flatMap Record.bytes).length)
    (enough : records.length < fuel) (m : MadtTableManager) :
    (madtLoop header tableLength fuel entry m).value (answers memory) =
      some (records.foldl MadtTableManager.add m) := by
  induction records generalizing fuel entry m with
  | nil =>
      obtain ⟨fuel, rfl⟩ := Nat.exists_eq_succ_of_ne_zero (Nat.ne_of_gt enough)
      have finished : ¬ entry < tableLength := by simp [length]
      simp only [madtLoop, finished, if_false, Program.value_pure, List.foldl_nil]
  | cons r rest ih =>
      obtain ⟨fuel, rfl⟩ := Nat.exists_eq_succ_of_ne_zero (Nat.ne_of_gt (Nat.zero_lt_of_lt enough))
      rw [List.flatMap_cons] at stored length
      obtain ⟨here, later⟩ := holds_append.mp stored
      rw [List.length_append, Record.bytes_length] at length
      rw [Record.bytes_length] at later
      have size : r.size = r.body.length + 2 := rfl
      have going : entry < tableLength := by omega
      simp only [madtLoop, going, if_true, Program.value_bind, value_madtEntry here, value_read,
        number_size here, Option.bind_some, List.foldl_cons]
      exact ih later (by omega) (Nat.lt_of_succ_lt_succ enough) _

theorem foldl_add (records : List Record) {m : MadtTableManager}
    (localApics : m.localApics.length ≤ maxLocalApics) (ioApics : m.ioApics.length ≤ maxIoApics)
    (gsiOverrides : m.gsiOverrides.length ≤ maxGsiOverrides) :
    records.foldl MadtTableManager.add m = { m with
      localApics := (m.localApics ++ records.filterMap Record.localApic).take maxLocalApics
      ioApics := (m.ioApics ++ records.filterMap Record.ioApic).take maxIoApics
      gsiOverrides := (m.gsiOverrides ++ records.filterMap Record.gsiOverride).take
          maxGsiOverrides } := by
  rw [← foldl_capped _ _ localApics, ← foldl_capped _ _ ioApics, ← foldl_capped _ _ gsiOverrides]
  clear localApics ioApics gsiOverrides
  induction records generalizing m with
  | nil => rfl
  | cons r rest ih =>
      rw [List.foldl_cons, ih]
      rfl

/-- Decoding a well-formed MADT comes to an end, and each list has the first records of
    its own kind, in the order of the table. -/
theorem madt_decodes {records : List Record}
    (wellFormed : WellFormed memory header records) {fuel : Nat} (enough : records.length < fuel) :
    (madtTableManager fuel header).value (answers memory) = some {
      hasPic := (number memory header 40 4).testBit 0
      localApicAddress := number memory header 36 4
      localApics := (records.filterMap Record.localApic).take maxLocalApics
      ioApics := (records.filterMap Record.ioApic).take maxIoApics
      gsiOverrides := (records.filterMap Record.gsiOverride).take maxGsiOverrides } := by
  have pic : decide (number memory header 40 4 &&& 1 ≠ 0) = (number memory header 40 4).testBit 0 :=
    Bool.eq_iff_iff.mpr (decide_eq_true_iff.trans (and_ne_zero_iff _ 0))
  simp only [madtTableManager, Program.value_bind, value_read, value_length, value_unmapMemory,
    Option.bind_some, value_madtLoop wellFormed.stored wellFormed.length enough,
    Program.value_pure, pic]
  rw [foldl_add records (Nat.zero_le _) (Nat.zero_le _) (Nat.zero_le _)]
  simp only [List.nil_append]

end Decoding

/-- A local APIC, an entry of another type, an IO-APIC and an override for the timer. -/
def fourRecords : List Record :=
  [⟨0, [0, 3, 1, 0, 0, 0], by decide, by decide⟩, ⟨4, [255, 0, 0, 1], by decide, by decide⟩,
    ⟨1, [2, 0, 0, 0, 0xc0, 0xfe, 0, 0, 0, 0], by decide, by decide⟩,
    ⟨2, [0, 0, 2, 0, 0, 0, 0xd, 0], by decide, by decide⟩]

/-- The table with these records at an address. -/
def fourRecordsMemory (address : Nat) : UInt8 :=
  ([0x41, 0x50, 0x49, 0x43] ++ littleEndian 80 4 ++ List.replicate 28 0 ++
    littleEndian 0xfee00000 4 ++
    littleEndian 1 4 ++ fourRecords.flatMap Record.bytes).getD (address - 0x1000) 0

theorem fourRecords_decoded :
    (madtTableManager 5 0x1000).value (answers fourRecordsMemory) = some {
      hasPic := true
      localApicAddress := 0xfee00000
      localApics := [⟨3⟩]
      ioApics := [⟨0xfec00000, 0⟩]
      gsiOverrides := [⟨true, true, 0, 2⟩] } := by
  have wellFormed : WellFormed fourRecordsMemory 0x1000 fourRecords :=
    ⟨by decide +kernel, by decide +kernel⟩
  rw [madt_decodes wellFormed (by decide)]
  decide +kernel

end Mykonos.Acpi
