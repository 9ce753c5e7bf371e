import Mykonos.Fs.Vfs

/-! # Reading a file

What `FileHandle::read` returns and writes for a file of the initramfs, and that reading it
piece by piece gives the same as reading it at once.
-/

namespace Mykonos.Fs

open Lib Util

/-- The handle is open on a file, which the entry describes. -/
structure OpenFile (handle : FileHandle) (store : Store FileNode)
    (entry : InitramfsEntry) : Prop where
  isOpen : handle.open = true
  describes : ∃ place node entries d, handle.node = some place ∧ store.read place = some node ∧
    node.type = .file ∧
    node.fsProvider = some entries ∧ node.node = some d ∧ entries[d]? = some entry

namespace InitramfsEntry

/-- The bytes of the file. -/
def contents (memory : Nat → UInt8) (entry : InitramfsEntry) : List UInt8 :=
  bytesAt memory entry.data entry.size

/-- How many bytes a read of a length from an offset on gets. -/
def readable (entry : InitramfsEntry) (offset length : Nat) : Nat :=
  if offset < entry.size then min length (entry.size - offset) else 0

/-- The buffer has no byte in common with the file. -/
def Beyond (entry : InitramfsEntry) (length buffer : Nat) : Prop :=
  buffer + length ≤ entry.data ∨ entry.data + entry.size ≤ buffer

end InitramfsEntry

namespace FileHandle

/-- Reads of some lengths into some buffers, one after the other, each from where the previous
    one ended, with what they leave in the buffers. -/
def readInPieces (handle : FileHandle) (store : Store FileNode) :
    (Nat → UInt8) → Nat → List (Nat × Nat) → Option (List (List UInt8))
  | _, _, [] => some []
  | memory, offset, (length, buffer) :: rest => do
      let (handle, memory, result) ← handle.read memory offset length buffer store
      let pieces ← handle.readInPieces store memory (offset + result) rest
      some (bytesAt memory buffer result :: pieces)

end FileHandle

section Reading

variable {memory : Nat → UInt8} {handle : FileHandle} {store : Store FileNode}
  {entry : InitramfsEntry}

theorem readable_le (entry : InitramfsEntry) (offset length : Nat) :
    entry.readable offset length ≤ length ∧ entry.readable offset length ≤ entry.size - offset := by
  rw [InitramfsEntry.readable]
  split
  · exact ⟨Nat.min_le_left .., Nat.min_le_right ..⟩
  · exact ⟨Nat.zero_le _, Nat.zero_le _⟩

theorem contents_take_drop (memory : Nat → UInt8) (entry : InitramfsEntry) {offset count : Nat}
    (inside : count ≤ entry.size - offset) (below : offset ≤ entry.size) :
    ((entry.contents memory).drop offset).take count =
      bytesAt memory (entry.data + offset) count := by
  obtain ⟨rest, size⟩ := Nat.exists_eq_add_of_le below
  obtain ⟨more, left⟩ := Nat.exists_eq_add_of_le inside
  rw [InitramfsEntry.contents, size, bytesAt_add, List.drop_left' (bytesAt_length ..),
    show rest = count + more by omega, bytesAt_add, List.take_left' (bytesAt_length ..)]

/-- What `read` does. -/
theorem OpenFile.read (file : OpenFile handle store entry) (memory : Nat → UInt8)
    (offset length buffer : Nat) :
    ∃ memory', handle.read memory offset length buffer store =
      some (handle, memory', entry.readable offset length) ∧
      (∀ other, other < buffer ∨ buffer + entry.readable offset length ≤ other →
        memory' other = memory other) ∧
      (entry.Beyond length buffer → bytesAt memory' buffer (entry.readable offset length) =
        ((entry.contents memory).drop offset).take (entry.readable offset length)) := by
  obtain ⟨isOpen, place, node, entries, d, on, live, type, provider, of, member⟩ := file
  have called : handle.read memory offset length buffer store =
      (Fs.read memory entries node offset length buffer).bind fun result =>
        some (handle, result.1, result.2) := by
    rw [FileHandle.read, if_pos isOpen, on, Option.bind_eq_bind, Option.bind_some,
      Option.bind_eq_bind, live, Option.bind_some, if_pos type, provider]
    rfl
  have within := readable_le entry offset length
  rw [called, Fs.read]
  simp only [of, member, Option.bind_eq_bind, Option.bind_some]
  by_cases inside : offset < entry.size
  · have count : min (entry.size - offset) length = entry.readable offset length := by
      rw [InitramfsEntry.readable, if_pos inside, Nat.min_comm]
    rw [if_pos inside, count]
    refine ⟨_, rfl, fun other outside => memcpy_of_outside outside, fun beyond => ?_⟩
    have apart : AreasApart buffer (entry.data + offset) (entry.readable offset length) := by
      rw [AreasApart]
      rcases beyond with before | after
      · omega
      · omega
    dsimp only
    rw [memcpy_eq apart, contents_take_drop memory entry within.2 (Nat.le_of_lt inside)]
    have written := bytesAt_overwrite_self memory buffer
      (bytesAt memory (entry.data + offset) (entry.readable offset length))
    rwa [bytesAt_length] at written
  · have none : entry.readable offset length = 0 := if_neg inside
    rw [if_neg inside, none]
    exact ⟨memory, rfl, fun _ _ => rfl, fun _ => by rw [List.take_zero]; rfl⟩

/-- The pieces that are read from an offset on are a prefix of what is left there. -/
theorem OpenFile.readInPieces (file : OpenFile handle store entry) (memory : Nat → UInt8)
    (offset : Nat) (pieces : List (Nat × Nat))
    (beyond : ∀ piece ∈ pieces, entry.Beyond piece.1 piece.2) :
    ∃ chunks, handle.readInPieces store memory offset pieces = some chunks ∧ chunks.length =
      pieces.length ∧
      chunks.flatten <+: (entry.contents memory).drop offset := by
  induction pieces generalizing memory offset with
  | nil => exact ⟨[], rfl, rfl, List.nil_prefix⟩
  | cons piece rest ih =>
      obtain ⟨length, buffer⟩ := piece
      have away := beyond (length, buffer) List.mem_cons_self
      have within := readable_le entry offset length
      obtain ⟨memory', taken, frame, chunk⟩ := file.read memory offset length buffer
      have same : entry.contents memory' = entry.contents memory := by
        refine bytesAt_congr fun i inside => frame _ ?_
        rcases away with before | after
        · dsimp only at before
          omega
        · exact .inl (by dsimp only at after; omega)
      obtain ⟨chunks, further, count, front⟩ := ih memory' (offset + entry.readable offset length)
          fun other member =>
        beyond other (List.mem_cons_of_mem _ member)
      refine ⟨bytesAt memory' buffer (entry.readable offset length) :: chunks, ?_,
        congrArg Nat.succ count, ?_⟩
      · simp only [FileHandle.readInPieces, taken, Option.bind_eq_bind, Option.bind_some, further]
      rw [same, ← List.drop_drop] at front
      rw [List.flatten_cons, chunk away]
      conv_rhs => rw [← List.take_append_drop (entry.readable offset length)
        ((entry.contents memory).drop offset)]
      exact (List.prefix_append_right_inj _).mpr front

end Reading

/-- For every read of a file: the result is what is left of the file from the offset on, up to
    the length, so many bytes of the buffer are written and hold that part of the file, and
    nothing is read with a buffer only at the end. Reads one after the other give a prefix of
    the file. -/
theorem read_in_pieces (handle : FileHandle) (store : Store FileNode) (entry : InitramfsEntry)
    (file : OpenFile handle store entry) (memory : Nat → UInt8) :
    (∀ offset length buffer, ∃ memory',
      handle.read memory offset length buffer store =
        some (handle, memory',
          if offset < entry.size then min length (entry.size - offset) else 0) ∧
      (∀ other, other < buffer ∨ buffer + entry.readable offset length ≤ other →
        memory' other = memory other) ∧
      (entry.Beyond length buffer → bytesAt memory' buffer (entry.readable offset length) =
        ((entry.contents memory).drop offset).take (entry.readable offset length))) ∧
    (∀ offset length, 0 < length → entry.readable offset length = 0 → entry.size ≤ offset) ∧
    ∀ pieces : List (Nat × Nat), (∀ piece ∈ pieces, entry.Beyond piece.1 piece.2) →
      ∃ chunks, handle.readInPieces store memory 0 pieces = some chunks ∧ chunks.length =
        pieces.length ∧
        chunks.flatten = (entry.contents memory).take chunks.flatten.length := by
  refine ⟨fun offset length buffer => file.read memory offset length buffer,
    fun offset length wanted none => ?_, fun pieces beyond => ?_⟩
  · rw [InitramfsEntry.readable] at none
    split at none
    · omega
    · omega
  · obtain ⟨chunks, taken, count, front⟩ := file.readInPieces memory 0 pieces beyond
    exact ⟨chunks, taken, count, List.prefix_iff_eq_take.mp front⟩

/-- The file `bar` of the sample, with the text itself as its contents. -/
def barStore : Store FileNode :=
  ⟨fun _ => [{ type := .file, node := some 0, fsProvider := some [⟨⟨7, 3⟩, .file, 0, 10⟩] }], 1⟩

/-- The text `foobar/bar`. -/
def barText (address : Nat) : UInt8 :=
  [102, 111, 111, 98, 97, 114, 47, 98, 97, 114].getD address 0

theorem read_in_pieces_bar :
    (FileHandle.readInPieces ⟨some root, false, true, .okay⟩ barStore barText 0
      [(4, 16), (0, 16), (3, 32), (9, 16), (2, 16)]).map List.flatten =
        some (bytesAt barText 0 10) := by
  have file : OpenFile ⟨some root, false, true, .okay⟩ barStore ⟨⟨7, 3⟩, .file, 0, 10⟩ :=
    ⟨rfl, root, _, _, 0, rfl, rfl, rfl, rfl, rfl, rfl⟩
  have computed : (FileHandle.readInPieces ⟨some root, false, true, .okay⟩ barStore barText 0
      [(4, 16), (0, 16), (3, 32), (9, 16), (2, 16)]).map (fun chunks => chunks.flatten.length) =
        some 10 := by
    decide +kernel
  obtain ⟨chunks, taken, _, same⟩ := (read_in_pieces _ barStore _ file barText).2.2
    [(4, 16), (0, 16), (3, 32), (9, 16), (2, 16)] (by unfold InitramfsEntry.Beyond; decide)
  rw [taken, Option.map_some, Option.some.injEq] at computed
  rw [taken, Option.map_some, same, computed]
  rfl

end Mykonos.Fs
