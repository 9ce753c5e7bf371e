import Mykonos.Fs.Names

/-! # Where the initramfs is read

The addresses that the constructor of `InitramfsFsProvider` reads. It checks none of them
against the size of the module, so it stays inside only if the image itself ends every name
and ends the archive.
-/

namespace Mykonos.Fs

open Lib Util

section Reads

variable (memory : Nat → UInt8)

/-- The addresses that `memcmp` reads to compare with the bytes. -/
def memcmpReads : Nat → List UInt8 → List Nat
  | _, [] => []
  | address, byte :: rest => address ::
      if memory address ≠ byte then [] else memcmpReads (address + 1) rest

/-- The addresses that `strlen` reads. -/
def strlenReads : Nat → Nat → List Nat
  | _, 0 => []
  | str, fuel + 1 => str :: if memory str = 0 then [] else strlenReads (str + 1) fuel

/-- The address of the last character of a name. -/
def lastReads (name : String) : List Nat :=
  if name.length = 0 then [] else [name.cString + (name.length - 1)]

/-- What is read of a header: the type, the size, and the name of a file or a directory. -/
def headerReads (initramfsPointer : Nat) : List Nat :=
  (initramfsPointer + typeOffset) ::
    (List.range sizeLength).map (initramfsPointer + sizeOffset + ·) ++
    if fileType (memory (initramfsPointer + typeOffset)) ≠ .none then
      strlenReads memory initramfsPointer (2 ^ 31) ++
        (String.ofCString memory initramfsPointer).elim [] lastReads
    else []

/-- What the loop over the headers reads. -/
def parserReads : Nat → Nat → List Nat
  | 0, _ => []
  | fuel + 1, initramfsPointer =>
      memcmpReads memory (initramfsPointer + signatureOffset) signature ++
        if isHeader memory initramfsPointer then
          headerReads memory initramfsPointer ++
            parserReads fuel (nextHeader memory initramfsPointer)
        else []

/-- The constructor returns, has read only bytes of the module, and has recorded only files
    that lie in it. -/
def StaysInside (pointer size : Nat) : Prop :=
  ∃ fuel entries store, initramfsFsProvider memory fuel pointer = some (entries, store) ∧
    (∀ address ∈ parserReads memory fuel pointer, pointer ≤ address ∧ address < pointer + size) ∧
    ∀ entry ∈ entries.contents store, pointer ≤ entry.data ∧ entry.data + entry.size ≤
      pointer + size

/-- How many bytes agree before the first that does not. -/
def agreeing : Nat → List UInt8 → Nat
  | _, [] => 0
  | address, byte :: rest => if memory address = byte then agreeing (address + 1) rest + 1 else 0

/-- The image ends in itself: each header is whole, the name of a file or a directory has its
    zero byte before the end, and where the next header would be, a byte before the end is not
    of the signature. -/
inductive EndsInside (limit : Nat) : Nat → Prop where
  | last {initramfsPointer : Nat} :
      isHeader memory initramfsPointer = false →
      initramfsPointer + signatureOffset + agreeing memory (initramfsPointer + signatureOffset)
        signature < limit →
      EndsInside limit initramfsPointer
  | header {initramfsPointer : Nat} :
      isHeader memory initramfsPointer = true →
      initramfsPointer + signatureOffset + signatureLength ≤ limit →
      (fileType (memory (initramfsPointer + typeOffset)) ≠ .none →
        ∃ n < 2 ^ 31, initramfsPointer + n < limit ∧ memory (initramfsPointer + n) = 0) →
      EndsInside limit (nextHeader memory initramfsPointer) →
      EndsInside limit initramfsPointer

end Reads

variable {memory : Nat → UInt8} {address limit initramfsPointer : Nat}

theorem agreeing_le (memory : Nat → UInt8) (address : Nat) (bytes : List UInt8) :
    agreeing memory address bytes ≤ bytes.length := by
  induction bytes generalizing address with
  | nil => exact Nat.le_refl 0
  | cons byte rest ih =>
      rw [agreeing, List.length_cons]
      split
      · exact Nat.succ_le_succ (ih (address + 1))
      · exact Nat.zero_le _

theorem mem_memcmpReads {bytes : List UInt8} {other : Nat} :
    other ∈ memcmpReads memory address bytes ↔
      address ≤ other ∧ other ≤ address + agreeing memory address bytes ∧
      other < address + bytes.length := by
  induction bytes generalizing address with
  | nil =>
      refine iff_of_false List.not_mem_nil ?_
      rw [List.length_nil]
      omega
  | cons byte rest ih =>
      rw [memcmpReads, agreeing, List.mem_cons, List.length_cons]
      by_cases same : memory address = byte
      · rw [if_neg (not_not.mpr same), if_pos same, ih]
        omega
      · rw [if_pos same, if_neg same, List.mem_nil_iff, or_false]
        omega

/-- The bytes stand there when all of them agree. -/
theorem bytesAt_eq_iff_agreeing (address : Nat) (bytes : List UInt8) :
    bytesAt memory address bytes.length = bytes ↔ agreeing memory address bytes = bytes.length := by
  induction bytes generalizing address with
  | nil => exact iff_of_true rfl rfl
  | cons byte rest ih =>
      rw [List.length_cons, bytesAt, List.cons.injEq, ih, agreeing]
      by_cases same : memory address = byte
      · rw [if_pos same, and_iff_right same, Nat.succ_inj]
      · rw [if_neg same]
        exact iff_of_false (fun both => same both.1) (Nat.zero_ne_add_one _)

theorem isHeader_iff : isHeader memory initramfsPointer = true ↔
    agreeing memory (initramfsPointer + signatureOffset) signature = signatureLength := by
  rw [isHeader, memeq_iff (by rw [bytesAt_length]; rfl)]
  exact bytesAt_eq_iff_agreeing _ signature

theorem mem_strlenReads {str fuel n other : Nat} (measured : strlen memory str fuel = some n) :
    other ∈ strlenReads memory str fuel ↔ str ≤ other ∧ other ≤ str + n := by
  induction fuel generalizing str n with
  | zero => cases measured
  | succ fuel ih =>
      rw [strlen] at measured
      rw [strlenReads, List.mem_cons]
      split at measured
      · rename_i zero
        cases measured
        rw [if_pos zero, List.mem_nil_iff, or_false]
        omega
      · rename_i filled
        obtain ⟨m, found, rfl⟩ := Option.map_eq_some_iff.mp measured
        rw [if_neg filled, ih found]
        omega

theorem EndsInside.lt (ends : EndsInside memory limit initramfsPointer) :
    initramfsPointer < limit := by
  have length : signatureLength = 5 := rfl
  cases ends with
  | last _ inside => omega
  | header _ whole _ _ => omega

/-- The name of a file or a directory, with what is read of it. -/
theorem nameReads {n : Nat} (measured : strlen memory initramfsPointer (2 ^ 31) = some n)
    {other : Nat} :
    other ∈ strlenReads memory initramfsPointer (2 ^ 31) ++
        (String.ofCString memory initramfsPointer).elim [] lastReads ↔
      initramfsPointer ≤ other ∧ other ≤ initramfsPointer + n := by
  rw [List.mem_append, mem_strlenReads measured, String.ofCString, measured, Option.map_some,
    Option.elim_some, lastReads]
  refine or_iff_left_of_imp fun last => ?_
  split at last
  · cases last
  · rw [List.mem_singleton.mp last]
    dsimp only
    omega

/-- What is read of a header besides the name lies before the end of the signature. -/
theorem headerReads_inside {pointer : Nat} (above : pointer ≤ initramfsPointer)
    (whole : initramfsPointer + signatureOffset + signatureLength ≤ limit)
    (named : fileType (memory (initramfsPointer + typeOffset)) ≠ .none →
      ∃ n, strlen memory initramfsPointer (2 ^ 31) = some n ∧ initramfsPointer + n < limit) :
    ∀ other ∈ headerReads memory initramfsPointer, pointer ≤ other ∧ other < limit := by
  have fields : typeOffset = 156 ∧ sizeOffset = 124 ∧ sizeLength = 11 ∧ signatureOffset = 257 ∧
      signatureLength = 5 :=
    ⟨rfl, rfl, rfl, rfl, rfl⟩
  intro other member
  rw [headerReads, List.mem_append] at member
  rcases member with field | name
  · rcases List.mem_cons.mp field with rfl | size
    · omega
    · obtain ⟨i, below, rfl⟩ := List.mem_map.mp size
      have := List.mem_range.mp below
      omega
  · split at name
    · rename_i recorded
      obtain ⟨n, measured, inside⟩ := named recorded
      have := (nameReads measured).mp name
      omega
    · cases name

/-- The first zero byte from an address on. -/
theorem strlen_of_zero {n : Nat} (zero : memory (address + n) = 0) {fuel : Nat}
    (enough : n < fuel) :
    ∃ length ≤ n, strlen memory address fuel = some length := by
  have found : ∃ n, memory (address + n) = 0 := ⟨n, zero⟩
  have least := Nat.find_min' found zero
  refine ⟨Nat.find found, least,
    strlen_eq_some_iff.mpr ⟨Nat.lt_of_le_of_lt least enough, Nat.find_spec found, ?_⟩⟩
  rw [mem_bytesAt]
  rintro ⟨i, below, earlier⟩
  exact Nat.find_min found below earlier

/-- One round of the loop that reads inside, and what it records. -/
theorem readHeader_inside {pointer : Nat} (above : pointer ≤ initramfsPointer)
    (named : fileType (memory (initramfsPointer + typeOffset)) ≠ .none →
      ∃ n, strlen memory initramfsPointer (2 ^ 31) = some n ∧ initramfsPointer + n < limit)
    (next : nextHeader memory initramfsPointer < limit) {entries : Vector}
    {store : Store InitramfsEntry} (sound : entries.Sound store)
    (lie : ∀ entry ∈ entries.contents store, pointer ≤
      entry.data ∧ entry.data + entry.size ≤ limit) :
    ∃ entries' store', readHeader memory initramfsPointer (entries, store) =
      some (entries', store') ∧
      entries'.Sound store' ∧
      ∀ entry ∈ entries'.contents store', pointer ≤ entry.data ∧
      entry.data + entry.size ≤ limit := by
  by_cases recorded : fileType (memory (initramfsPointer + typeOffset)) ≠ .none
  · obtain ⟨n, measured, _⟩ := named recorded
    rw [readHeader_recordedEntry recorded, recordedEntry, String.ofCString, measured]
    simp only [Option.map_some]
    obtain ⟨⟨entries', store'⟩, push⟩ :
        ∃ result, entries.pushBack ⟨trimSlash memory ⟨initramfsPointer, n⟩,
      fileType (memory (initramfsPointer + typeOffset)), initramfsPointer + 512,
      headerSize memory initramfsPointer⟩
        store = result := ⟨_, rfl⟩
    obtain ⟨sound', contents, _⟩ := sound.pushBack _ push
    refine ⟨entries', store', congrArg some push, sound', fun entry member => ?_⟩
    rw [contents] at member
    rcases List.mem_append.mp member with old | new
    · exact lie entry old
    · rw [List.mem_singleton.mp new]
      rw [nextHeader] at next
      dsimp only
      omega
  · refine ⟨entries, store, ?_, sound, lie⟩
    rw [readHeader, if_neg recorded]

theorem nextHeader_gt (memory : Nat → UInt8) (initramfsPointer : Nat) :
    initramfsPointer < nextHeader memory initramfsPointer := by
  rw [nextHeader]
  omega

/-- An image that ends in itself is read inside. -/
theorem EndsInside.reads {pointer : Nat} (ends : EndsInside memory limit initramfsPointer)
    (above : pointer ≤ initramfsPointer) {entries : Vector} {store : Store InitramfsEntry}
    (sound : entries.Sound store)
    (lie : ∀ entry ∈ entries.contents store, pointer ≤
      entry.data ∧ entry.data + entry.size ≤ limit) :
    ∃ fuel entries' store', readEntries memory fuel initramfsPointer (entries, store) =
      some (entries', store') ∧
      (∀ other ∈ parserReads memory fuel initramfsPointer, pointer ≤ other ∧ other < limit) ∧
      ∀ entry ∈ entries'.contents store', pointer ≤ entry.data ∧
      entry.data + entry.size ≤ limit := by
  induction ends generalizing entries store with
  | last none inside =>
      refine ⟨1, entries, store, by rw [readEntries, none]; rfl, fun other member => ?_, lie⟩
      rw [parserReads, none, if_neg Bool.false_ne_true, List.append_nil, mem_memcmpReads] at member
      omega
  | @header initramfsPointer found whole named further ih =>
      have measured : fileType (memory (initramfsPointer + typeOffset)) ≠ .none →
          ∃ n, strlen memory initramfsPointer (2 ^ 31) = some n ∧ initramfsPointer + n < limit := by
        intro recorded
        obtain ⟨n, enough, inside, zero⟩ := named recorded
        obtain ⟨length, le, measured⟩ := strlen_of_zero zero enough
        exact ⟨length, measured, by omega⟩
      obtain ⟨entries₁, store₁, taken, sound₁, lie₁⟩ :=
        readHeader_inside above measured further.lt sound lie
      have later := nextHeader_gt memory initramfsPointer
      obtain ⟨fuel, entries', store', rest, reads, lie'⟩ := ih (by omega) sound₁ lie₁
      refine ⟨fuel + 1, entries', store', ?_, fun other member => ?_, lie'⟩
      · rw [readEntries, if_pos found, taken]
        exact rest
      · have compared : signature.length = signatureLength := rfl
        rw [parserReads, if_pos found, List.mem_append, List.mem_append, mem_memcmpReads,
          compared] at member
        rcases member with first | header | last
        · omega
        · exact headerReads_inside above whole measured other header
        · exact reads other last

/-- What is read inside ends in itself. -/
theorem endsInside_of_reads {pointer fuel : Nat} {entries result : Vector × Store InitramfsEntry}
    (taken : readEntries memory fuel initramfsPointer entries = some result)
    (reads : ∀ other ∈ parserReads memory fuel initramfsPointer, pointer ≤ other ∧ other < limit) :
    EndsInside memory limit initramfsPointer := by
  induction fuel generalizing initramfsPointer entries with
  | zero => cases taken
  | succ fuel ih =>
      have agreed := agreeing_le memory (initramfsPointer + signatureOffset) signature
      have compared : signature.length = signatureLength := rfl
      have length : signatureLength = 5 := rfl
      rw [parserReads] at reads
      cases found : isHeader memory initramfsPointer with
      | false =>
          have fewer : agreeing memory (initramfsPointer + signatureOffset) signature ≠
              signatureLength := by
            intro all
            rw [isHeader_iff.mpr all] at found
            cases found
          refine .last found (reads _ ?_).2
          rw [List.mem_append, mem_memcmpReads]
          omega
      | true =>
          have all := isHeader_iff.mp found
          rw [if_pos found] at reads
          have final : initramfsPointer + signatureOffset + 4 < limit := by
            refine (reads _ ?_).2
            rw [List.mem_append, mem_memcmpReads]
            omega
          rw [readEntries, if_pos found] at taken
          obtain ⟨entries₁, header, rest⟩ := Option.bind_eq_some_iff.mp taken
          refine .header found (by omega) (fun recorded => ?_)
            (ih rest fun other member => reads other ?_)
          · rw [readHeader_recordedEntry recorded] at header
            obtain ⟨entry, made, _⟩ := Option.map_eq_some_iff.mp header
            obtain ⟨name, named, _⟩ := Option.map_eq_some_iff.mp made
            obtain ⟨n, measured, _⟩ := Option.map_eq_some_iff.mp named
            obtain ⟨enough, zero, _⟩ := strlen_eq_some_iff.mp measured
            refine ⟨n, enough, (reads _ ?_).2, zero⟩
            rw [List.mem_append, List.mem_append, headerReads, List.mem_append, if_pos recorded,
              nameReads measured]
            exact .inr (.inl (.inr ⟨Nat.le_add_right .., Nat.le_refl _⟩))
          · exact List.mem_append_right _ (List.mem_append_right _ member)

/-- For every image: the constructor returns after reading only bytes of the module, and
    records only files in it, if and only if the image ends in itself. -/
theorem staysInside_iff (memory : Nat → UInt8) (pointer size : Nat) :
    StaysInside memory pointer size ↔ EndsInside memory (pointer + size) pointer := by
  constructor
  · rintro ⟨fuel, entries, store, taken, reads, _⟩
    exact endsInside_of_reads taken reads
  · intro ends
    exact ends.reads (Nat.le_refl pointer) (Vector.sound_empty _) fun _ => nofun

/-- Without a module nothing is there to read; and an archive that is cut off behind its first
    header is read beyond it. -/
theorem empty_module_read :
    ¬ StaysInside (fun _ => 0) 0 0 ∧ isHeader sampleArchive 4096 = true ∧
    ¬ StaysInside sampleArchive 4096 512 := by
  have header : isHeader sampleArchive 4096 = true := by decide +kernel
  refine ⟨?_, header, ?_⟩
  · rintro ⟨fuel, entries, store, taken, reads, _⟩
    exact Nat.not_lt_zero _ (endsInside_of_reads taken reads).lt
  · rintro ⟨fuel, entries, store, taken, reads, _⟩
    have further : nextHeader sampleArchive 4096 = 4608 := by decide +kernel
    cases endsInside_of_reads taken reads with
    | last none _ =>
        rw [header] at none
        cases none
    | header _ _ _ rest =>
        have := rest.lt
        omega

end Mykonos.Fs
