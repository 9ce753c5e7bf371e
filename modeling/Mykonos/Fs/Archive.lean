import Mathlib.Data.List.Forall2
import Mykonos.Fs.Initramfs

/-! # Ustar archives

An archive as it is written, and that the constructor of `InitramfsFsProvider` reads back
the files and the directories of it.
-/

namespace Mykonos.Fs

open Lib Util

/-- The digits of a number to the base eight, the highest first. -/
def octal : Nat → Nat → List UInt8
  | 0, _ => []
  | count + 1, value => octal count (value / 8) ++ [UInt8.ofNat (48 + value % 8)]

/-- A member of an archive. -/
structure Member where
  name : List UInt8
  type : UInt8
  contents : List UInt8
  named : 1 ≤ name.length ∧ name.length ≤ 99
  plain : 0 ∉ name
  deriving Repr, DecidableEq

namespace Member

/-- The contents are filled up to a multiple of 512 bytes. -/
def padded (m : Member) : Nat :=
  (m.contents.length + 511) / 512 * 512

/-- The header and the contents. What else stands in the header and after the contents does
    not matter. -/
def Written (memory : Nat → UInt8) (address : Nat) (m : Member) : Prop :=
  Holds memory address (m.name ++ [0]) ∧
    Holds memory (address + sizeOffset) (octal sizeLength m.contents.length) ∧
    memory (address + typeOffset) = m.type ∧
    Holds memory (address + signatureOffset) signature ∧
    Holds memory (address + 512) m.contents

instance (memory : Nat → UInt8) (address : Nat) (m : Member) :
    Decidable (m.Written memory address) :=
  inferInstanceAs (Decidable (_ ∧ _ ∧ _ ∧ _ ∧ _))

/-- The name that the file has, without a slash at its end. -/
def fileName (m : Member) : List UInt8 :=
  if m.name.getLast? = some slash then m.name.dropLast else m.name

/-- Files and directories are recorded, all else is passed over. -/
def recorded (m : Member) : Bool :=
  m.type = typeFile ∨ m.type = typeDirectory

/-- The entry describes a member whose header stands at an address. -/
structure ReadAs (memory : Nat → UInt8) (place : Nat × Member) (entry : InitramfsEntry) : Prop where
  name : entry.name.bytes memory = place.2.fileName
  type : entry.type = if place.2.type = typeFile then .file else .directory
  size : entry.size = place.2.contents.length
  data : entry.data = place.1 + 512
  contents : Holds memory entry.data place.2.contents

end Member

/-- The members stand one after the other and are ended by a block of zeros. -/
def Archive (memory : Nat → UInt8) : Nat → List Member → Prop
  | address, [] => Holds memory address (List.replicate 512 0)
  | address, m :: rest => m.Written memory address ∧ Archive memory (address + 512 + m.padded) rest

instance (memory : Nat → UInt8) : (address : Nat) → (members : List Member) →
    Decidable (Archive memory address members)
  | address, [] => inferInstanceAs (Decidable (Holds memory address (List.replicate 512 0)))
  | address, m :: rest =>
      have := instDecidableArchive memory (address + 512 + m.padded) rest
      inferInstanceAs (Decidable (m.Written memory address ∧
        Archive memory (address + 512 + m.padded) rest))

def imageSize : List Member → Nat
  | [] => 512
  | m :: rest => 512 + m.padded + imageSize rest

/-- The members with the addresses of their headers. -/
def located : Nat → List Member → List (Nat × Member)
  | _, [] => []
  | address, m :: rest => (address, m) :: located (address + 512 + m.padded) rest

section Reading

variable {memory : Nat → UInt8} {address : Nat} {m : Member}

@[simp] theorem octal_length (count value : Nat) : (octal count value).length = count := by
  induction count generalizing value with
  | zero => rfl
  | succ count ih => rw [octal, List.length_append, ih]; rfl

theorem octalDigit_ofNat :
    ∀ digit < 8, octalDigit (UInt8.ofNat (48 + digit)) = UInt32.ofNat digit := by
  decide

/-- What is written is read back. -/
theorem foldl_octal {count value : Nat} (fits : value < 8 ^ count) :
    (octal count value).foldl (fun result c => result * 8 + octalDigit c) 0 =
      UInt32.ofNat value := by
  induction count generalizing value with
  | zero => rw [Nat.lt_one_iff.mp fits]; rfl
  | succ count ih =>
      have upper := ih (Nat.div_lt_of_lt_mul (by rwa [Nat.mul_comm, ← Nat.pow_succ]))
      rw [octal, List.foldl_append, upper, List.foldl_cons, List.foldl_nil,
        octalDigit_ofNat _ (Nat.mod_lt value (by decide))]
      conv_rhs => rw [← Nat.div_add_mod' value 8, UInt32.ofNat_add, UInt32.ofNat_mul]
      rfl

theorem headerSize_written (written : m.Written memory address)
    (small : m.contents.length < 2 ^ 32) :
    headerSize memory address = m.contents.length := by
  have digits := written.2.1.bytesAt
  rw [octal_length] at digits
  rw [headerSize, parseOctal, digits, foldl_octal (Nat.lt_trans small (by decide)),
    UInt32.toNat_ofNat_of_lt' small]

theorem isHeader_written (written : m.Written memory address) : isHeader memory address = true := by
  have text : bytesAt memory (address + signatureOffset) signatureLength = signature :=
    written.2.2.2.1.bytesAt
  rw [isHeader, text]
  rfl

theorem isHeader_end (zeros : Holds memory address (List.replicate 512 0)) :
    isHeader memory address = false := by
  have first : memory (address + signatureOffset) = 0 := by
    rw [zeros.getElem (by rw [List.length_replicate]; decide), List.getElem_replicate]
  rw [isHeader, bytesAt, first]
  rfl

theorem ofCString_written (written : m.Written memory address) :
    String.ofCString memory address = some ⟨address, m.name.length⟩ := by
  have few := m.named.2
  rw [String.ofCString, strlen_holds written.1 m.plain (by omega)]
  rfl

theorem bytes_written (written : m.Written memory address) :
    (⟨address, m.name.length⟩ : String).bytes memory = m.name :=
  (holds_append.mp written.1).1.bytesAt

theorem trimSlash_bytes (memory : Nat → UInt8) (name : String) :
    (trimSlash memory name).bytes memory =
      if (name.bytes memory).getLast? = some slash then (name.bytes memory).dropLast
      else name.bytes memory := by
  have length : (name.bytes memory).length = name.length := name.bytes_length
  have last : (name.bytes memory).getD (name.length - 1) 0 = slash ↔
      (name.bytes memory).getLast? = some slash := by
    rw [List.getLast?_eq_getElem?, List.getD_eq_getElem?_getD, length]
    cases (name.bytes memory)[name.length - 1]? with
    | none => decide
    | some byte => rw [Option.getD_some, Option.some.injEq]
  rw [trimSlash, String.get_eq]
  simp only [last]
  split
  · rw [String.bytes_subString_zero _ (Nat.sub_le _ 1), List.dropLast_eq_take, length]
  · rfl

theorem trimSlash_written (written : m.Written memory address) :
    (trimSlash memory ⟨address, m.name.length⟩).bytes memory = m.fileName := by
  rw [trimSlash_bytes, bytes_written written]
  rfl

theorem fileType_recorded (recorded : m.recorded = true) :
    fileType m.type = if m.type = typeFile then .file else .directory := by
  rw [fileType]
  split
  · rfl
  · rename_i other
    exact if_pos ((of_decide_eq_true recorded).resolve_left other)

theorem fileType_passed (passed : m.recorded = false) : fileType m.type = .none := by
  have neither := not_or.mp (of_decide_eq_false passed)
  rw [fileType, if_neg neither.1, if_neg neither.2]

/-- The round of the loop for a file or a directory. -/
theorem readHeader_recorded (written : m.Written memory address)
    (small : m.contents.length < 2 ^ 32) (recorded : m.recorded = true) {entries : Vector}
    {store : Store InitramfsEntry} :
    ∃ entry, readHeader memory address (entries, store) = some (entries.pushBack entry store) ∧
      Member.ReadAs memory (address, m) entry := by
  have type : fileType m.type ≠ .none := by
    rw [fileType_recorded recorded]
    split <;> nofun
  refine ⟨⟨trimSlash memory ⟨address, m.name.length⟩, fileType m.type, address + 512,
    m.contents.length⟩, ?_, ?_⟩
  · rw [readHeader, written.2.2.1, if_pos type, ofCString_written written,
      headerSize_written written small]
    rfl
  · exact ⟨trimSlash_written written, fileType_recorded recorded, rfl, rfl, written.2.2.2.2⟩

theorem readHeader_passed (written : m.Written memory address) (passed : m.recorded = false)
    (entries : Vector × Store InitramfsEntry) :
    readHeader memory address entries = some entries := by
  rw [readHeader, written.2.2.1, fileType_passed passed]
  rfl

theorem nextHeader_written (written : m.Written memory address)
    (small : m.contents.length < 2 ^ 32) :
    nextHeader memory address = address + 512 + m.padded := by
  rw [nextHeader, headerSize_written written small, Member.padded]
  omega

theorem Member.length_le_padded (m : Member) : m.contents.length ≤ m.padded := by
  rw [padded]
  omega

/-- The loop appends the entries of the members from the address on. -/
theorem readEntries_written {members : List Member} (archive : Archive memory address members)
    (small : imageSize members < 2 ^ 32) {fuel : Nat} (enough : members.length < fuel)
    {entries : Vector} {store : Store InitramfsEntry} (sound : entries.Sound store) :
    ∃ entries' store' added, readEntries memory fuel address (entries, store) =
      some (entries', store') ∧
      entries'.Sound store' ∧ entries'.contents store' = entries.contents store ++ added ∧
      List.Forall₂ (Member.ReadAs memory) ((located address members).filter fun place =>
        place.2.recorded) added := by
  induction members generalizing address fuel entries store with
  | nil =>
      cases fuel with
      | zero => cases enough
      | succ fuel =>
          refine ⟨entries, store, [], ?_, sound, (List.append_nil _).symm, .nil⟩
          rw [readEntries, isHeader_end archive]
          rfl
  | cons m rest ih =>
      cases fuel with
      | zero => cases enough
      | succ fuel =>
          obtain ⟨written, further⟩ := archive
          rw [imageSize] at small
          have length := m.length_le_padded
          have fits : m.contents.length < 2 ^ 32 := by omega
          have below := Nat.lt_of_succ_lt_succ enough
          rw [readEntries, if_pos (isHeader_written written),
            nextHeader_written written fits, located]
          cases recorded : m.recorded with
          | false =>
              rw [readHeader_passed written recorded, List.filter_cons_of_neg (by simp [recorded])]
              exact ih further (by omega) below sound
          | true =>
              obtain ⟨entry, read, describes⟩ := readHeader_recorded written fits recorded
              obtain ⟨⟨pushed, store₁⟩, push⟩ :
                  ∃ result, entries.pushBack entry store = result := ⟨_, rfl⟩
              obtain ⟨sound₁, contents₁, _⟩ := sound.pushBack entry push
              obtain ⟨entries', store', added, result, sound', contents', all⟩ :=
                ih further (by omega) below sound₁
              refine ⟨entries', store', entry :: added, ?_, sound', ?_, ?_⟩
              · rw [read, push]
                exact result
              · rw [contents', contents₁, List.append_assoc, List.singleton_append]
              · rw [List.filter_cons_of_pos (by exact recorded)]
                exact .cons describes all

end Reading

/-- The constructor undoes the writer: its entries are the files and the directories of the
    archive, in order. -/
theorem initramfsFsProvider_exact (memory : Nat → UInt8) (pointer : Nat) (members : List Member)
    (archive : Archive memory pointer members) (small : imageSize members < 2 ^ 32)
    (fuel : Nat) (enough : members.length < fuel) :
    ∃ entries store, initramfsFsProvider memory fuel pointer = some (entries, store) ∧
      entries.Sound store ∧
      List.Forall₂ (Member.ReadAs memory) ((located pointer members).filter fun place =>
        place.2.recorded) (entries.contents store) := by
  obtain ⟨entries, store, added, read, sound, contents, all⟩ :=
    readEntries_written archive small enough (Vector.sound_empty {})
  refine ⟨entries, store, read, sound, ?_⟩
  rw [contents]
  exact all

/-- A directory with a link and a file in it; the file ends in the middle of a block. -/
def sampleMembers : List Member :=
  [⟨[46, 47], 53, [], by decide, by decide⟩, ⟨[46, 47, 97], 50, [1, 2, 3], by decide, by decide⟩,
    ⟨[46, 47, 98], 48, [4, 5], by decide, by decide⟩]

def samplePieces : List (Nat × List UInt8) :=
  (located 4096 sampleMembers).flatMap fun (address, m) =>
    [(address, m.name), (address + sizeOffset, octal sizeLength m.contents.length),
      (address + typeOffset, [m.type]), (address + signatureOffset, signature),
      (address + 512, m.contents)]

def sampleArchive (address : Nat) : UInt8 :=
  match samplePieces.find? fun piece => piece.1 ≤ address ∧ address < piece.1 + piece.2.length with
  | some piece => piece.2.getD (address - piece.1) 0
  | none => 0

theorem initramfsFsProvider_exact_sample :
    ∃ entries store, initramfsFsProvider sampleArchive 4 4096 = some (entries, store) ∧
      (entries.contents store).length = 2 := by
  obtain ⟨entries, store, read, _, all⟩ :=
    initramfsFsProvider_exact sampleArchive 4096 sampleMembers (by decide +kernel)
      (by decide +kernel) 4 (by decide)
  exact ⟨entries, store, read, all.length_eq.symm⟩

end Mykonos.Fs
