import Mathlib.Data.Nat.Find
import Mykonos.Fs.Archive

/-! # The names of members

The name field of a header has 100 bytes. The constructor of `InitramfsFsProvider` takes it
for a C string, which goes on into the next field if the field has no zero byte.
-/

namespace Mykonos.Fs

open Lib Util

/-- A name without one slash at its end. -/
def trimmed (name : List UInt8) : List UInt8 :=
  if name.getLast? = some slash then name.dropLast else name

section Names

variable (memory : Nat → UInt8)

/-- The entry that is recorded for a header, if it is for a file or a directory. -/
def recordedEntry (initramfsPointer : Nat) : Option InitramfsEntry :=
  (String.ofCString memory initramfsPointer).map fun name =>
    ⟨trimSlash memory name, fileType (memory (initramfsPointer + typeOffset)),
      initramfsPointer + 512, headerSize memory initramfsPointer⟩

/-- What the name is by the field alone. -/
def fieldName (initramfsPointer : Nat) : List UInt8 :=
  trimmed ((bytesAt memory initramfsPointer 100).takeWhile (· ≠ 0))

/-- The name ends with the field: there is a zero byte in it or right behind it. Else the name
    goes on, by one slash at most, which is trimmed. -/
def NameEnds (initramfsPointer : Nat) : Prop :=
  (∃ n ≤ 100, memory (initramfsPointer + n) = 0) ∨
    (memory (initramfsPointer + 99) ≠ slash ∧ memory (initramfsPointer + 100) = slash ∧
      memory (initramfsPointer + 101) = 0)

end Names

variable {memory : Nat → UInt8} {initramfsPointer : Nat}

theorem readHeader_recordedEntry
    (recorded : fileType (memory (initramfsPointer + typeOffset)) ≠ .none)
    (entries : Vector × Store InitramfsEntry) :
    readHeader memory initramfsPointer entries =
      (recordedEntry memory initramfsPointer).map fun entry =>
        entries.1.pushBack entry entries.2 := by
  rw [readHeader, if_pos recorded, recordedEntry, Option.map_map]
  rfl

/-- The last byte is kept unless it is a slash. -/
theorem trimmed_bytesAt (memory : Nat → UInt8) (address count : Nat) :
    trimmed (bytesAt memory address (count + 1)) =
      bytesAt memory address (if memory (address + count) = slash then count else count + 1) := by
  have last : bytesAt memory address (count + 1) = bytesAt memory address count ++
      [memory (address + count)] := by
    rw [bytesAt_add]
    rfl
  rw [trimmed, last, List.getLast?_concat, List.dropLast_concat]
  simp only [Option.some.injEq]
  split
  · rfl
  · exact last.symm

theorem recordedEntry_name {length : Nat}
    (measured : strlen memory initramfsPointer (2 ^ 31) = some length) :
    ∃ entry, recordedEntry memory initramfsPointer = some entry ∧
      entry.name.bytes memory = trimmed (bytesAt memory initramfsPointer length) := by
  refine ⟨_, by rw [recordedEntry, String.ofCString, measured]; rfl, ?_⟩
  exact trimSlash_bytes memory ⟨initramfsPointer, length⟩

/-- A zero byte in the field, or right behind it, ends the name there. -/
theorem fieldName_of_le {length : Nat} (short : length ≤ 100)
    (zero : memory (initramfsPointer + length) = 0)
    (plain : 0 ∉ bytesAt memory initramfsPointer length) :
    fieldName memory initramfsPointer = trimmed (bytesAt memory initramfsPointer length) := by
  have filled : ∀ byte ∈ bytesAt memory initramfsPointer length, decide (byte ≠ 0) = true :=
    fun byte member => decide_eq_true fun equal => plain (equal ▸ member)
  obtain ⟨rest, whole⟩ := Nat.exists_eq_add_of_le short
  rw [fieldName, whole, bytesAt_add, List.takeWhile_append_of_pos filled]
  cases rest with
  | zero => rw [bytesAt, List.takeWhile_nil, List.append_nil]
  | succ rest => rw [bytesAt, zero, List.takeWhile_cons_of_neg (by decide), List.append_nil]

/-- A field without a zero byte is taken whole. -/
theorem fieldName_of_full (plain : 0 ∉ bytesAt memory initramfsPointer 100) :
    fieldName memory initramfsPointer = trimmed (bytesAt memory initramfsPointer 100) := by
  rw [fieldName, List.takeWhile_eq_self_iff.mpr]
  exact fun byte member => decide_eq_true fun equal => plain (equal ▸ member)

theorem notMem_bytesAt {address count fewer : Nat} (plain : 0 ∉ bytesAt memory address count)
    (le : fewer ≤ count) :
    0 ∉ bytesAt memory address fewer := by
  rw [mem_bytesAt] at plain ⊢
  rintro ⟨i, below, zero⟩
  exact plain ⟨i, Nat.lt_of_lt_of_le below le, zero⟩

/-- A name that goes on behind the field is the one of the field only if the slash that is
    trimmed makes the difference. -/
theorem long_name_iff {count : Nat} (long : 100 ≤ count)
    (plain : 0 ∉ bytesAt memory initramfsPointer (count + 1)) :
    trimmed (bytesAt memory initramfsPointer (count + 1)) = fieldName memory initramfsPointer ↔
      count = 100 ∧ memory (initramfsPointer + 99) ≠ slash ∧
      memory (initramfsPointer + 100) = slash := by
  rw [fieldName_of_full (notMem_bytesAt plain (Nat.le_succ_of_le long)),
    trimmed_bytesAt memory initramfsPointer count, trimmed_bytesAt memory initramfsPointer 99]
  constructor
  · intro same
    have lengths := congrArg List.length same
    rw [bytesAt_length, bytesAt_length] at lengths
    split at lengths
    · rename_i behind
      split at lengths
      · omega
      · rename_i last
        subst lengths
        exact ⟨rfl, last, behind⟩
    · split at lengths
      · omega
      · omega
  · rintro ⟨rfl, last, behind⟩
    rw [if_pos behind, if_neg last]

/-- The name that is recorded for a header is the one of the field if and only if it ends with
    the field. -/
theorem recordedName_iff (memory : Nat → UInt8) (initramfsPointer : Nat)
    (recorded : fileType (memory (initramfsPointer + typeOffset)) ≠ .none)
    (entries : Vector × Store InitramfsEntry) :
    (∃ entry, readHeader memory initramfsPointer entries =
      some (entries.1.pushBack entry entries.2) ∧
        recordedEntry memory initramfsPointer = some entry ∧
        entry.name.bytes memory = fieldName memory initramfsPointer) ↔
      NameEnds memory initramfsPointer := by
  rw [readHeader_recordedEntry recorded]
  constructor
  · rintro ⟨entry, _, made, same⟩
    obtain ⟨name, found, _⟩ := Option.map_eq_some_iff.mp made
    obtain ⟨length, measured, _⟩ := Option.map_eq_some_iff.mp found
    obtain ⟨entry', made', bytes⟩ := recordedEntry_name measured
    obtain rfl := Option.some.inj (made.symm.trans made')
    obtain ⟨_, zero, plain⟩ := strlen_eq_some_iff.mp measured
    by_cases short : length ≤ 100
    · exact .inl ⟨length, short, zero⟩
    · obtain ⟨count, rfl⟩ :=
        Nat.exists_eq_succ_of_ne_zero (Nat.ne_zero_of_lt (Nat.lt_of_not_le short))
      obtain ⟨rfl, last, behind⟩ := (long_name_iff (by omega) plain).mp (bytes.symm.trans same)
      exact .inr ⟨last, behind, zero⟩
  · intro ends
    have least : ∃ length, strlen memory initramfsPointer (2 ^ 31) = some length ∧
        fieldName memory initramfsPointer = trimmed (bytesAt memory initramfsPointer length) := by
      by_cases inside : ∃ n, n ≤ 100 ∧ memory (initramfsPointer + n) = 0
      · obtain ⟨short, zero⟩ := Nat.find_spec inside
        have plain : 0 ∉ bytesAt memory initramfsPointer (Nat.find inside) := by
          rw [mem_bytesAt]
          rintro ⟨i, below, earlier⟩
          exact Nat.find_min inside below ⟨by omega, earlier⟩
        exact ⟨_, strlen_eq_some_iff.mpr ⟨by omega, zero, plain⟩, fieldName_of_le short zero plain⟩
      · obtain ⟨last, behind, zero⟩ := ends.resolve_left inside
        have plain : 0 ∉ bytesAt memory initramfsPointer 101 := by
          rw [mem_bytesAt]
          rintro ⟨i, below, earlier⟩
          exact inside ⟨i, by omega, earlier⟩
        refine ⟨101, strlen_eq_some_iff.mpr ⟨by omega, zero, plain⟩, ?_⟩
        exact ((long_name_iff (Nat.le_refl 100) plain).mpr ⟨rfl, last, behind⟩).symm
    obtain ⟨length, measured, same⟩ := least
    obtain ⟨entry, made, bytes⟩ := recordedEntry_name measured
    exact ⟨entry, by rw [made]; rfl, made, bytes.trans same.symm⟩

/-- A header for a file, with the text of its fields for the name and the mode. -/
def headerWith (name mode : List UInt8) (address : Nat) : UInt8 :=
  if address < 100 then name.getD address 0
  else if address < 108 then mode.getD (address - 100) 0
  else if address = typeOffset then typeFile
  else if signatureOffset ≤ address then signature.getD (address - signatureOffset) 0
  else 48

/-- A name of 99 bytes. -/
theorem recordedName_iff_short :
    ∃ entry, recordedEntry (headerWith (List.replicate 99 97) [48]) 0 = some entry ∧
      entry.name.bytes (headerWith (List.replicate 99 97) [48]) = List.replicate 99 97 := by
  obtain ⟨entry, _, made, same⟩ :=
    (recordedName_iff (headerWith (List.replicate 99 97) [48]) 0 (by decide) ({}, {})).mpr
      (.inl ⟨99, by decide, rfl⟩)
  exact ⟨entry, made, same.trans (by decide +kernel)⟩

/-- A name that fills the field goes on with the mode. -/
theorem long_name_goes_on :
    let memory := headerWith (List.replicate 100 97) [48, 48, 48, 48, 54, 52, 52]
    isHeader memory 0 = true ∧ fieldName memory 0 = List.replicate 100 97 ∧
      ∃ entry, recordedEntry memory 0 = some entry ∧
        entry.name.bytes memory = List.replicate 100 97 ++ [48, 48, 48, 48, 54, 52, 52] ∧
        entry.name.bytes memory ≠ fieldName memory 0 := by
  intro memory
  have measured : strlen memory 0 (2 ^ 31) = some 107 :=
    strlen_eq_some_iff.mpr ⟨by decide, by decide +kernel, by decide +kernel⟩
  obtain ⟨entry, made, bytes⟩ := recordedEntry_name measured
  refine ⟨by decide +kernel, by decide +kernel, entry, made, bytes.trans (by decide +kernel), ?_⟩
  rw [bytes]
  decide +kernel

end Mykonos.Fs
