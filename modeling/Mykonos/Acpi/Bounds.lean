import Mykonos.Acpi.Madt

/-! # What the managers touch

The bytes of a table that its manager reads, and the elements of its arrays that it
writes. Each manager has its own idea of how long its table is, and checks none of it.
-/

namespace Mykonos.Acpi

open Lib

/-! ## Bounds -/

/-- A call on behalf of the table stays below its declared length and inside its
    arrays. -/
def InBounds (memory : Nat → UInt8) (table : Nat) : Call → Prop
  | .read header offset => header = table → offset < declared memory table
  | .assign header array index => header = table → index < array.size
  | _ => True

/-- The number of elements that a manager takes its table to have is the number that
    fits its declared length and its array. -/
def CountsRight (memory : Nat → UInt8) (table : Nat) : TableType → Prop
  | .mcfg => madtSize ≤ declared memory table ∧
      mcfgNumEntries (declared memory table) = (declared memory table - madtSize) / 16 ∧
      mcfgNumEntries (declared memory table) ≤ maxMcfgEntries
  | .rsdt => ∀ entrySize, rsdtNumChildren (declared memory table) entrySize =
      (declared memory table - headerSize) / entrySize
  | _ => True

/-- However far loading has come, it has touched nothing outside. -/
structure StaysInside (memory : Nat → UInt8) (table : Nat) (type : TableType) : Prop where
  calls : ∀ fuel, (loadTable fuel table).All (answers memory) (InBounds memory table)
  counts : CountsRight memory table type

/-! ## Tables that are long enough -/

/-- The bytes of an entry of a MADT that are read, when so many IO-APICs and overrides
    came before. -/
def entryBytes (type ioApics gsiOverrides : Nat) : Nat :=
  if type = 0 then 8
  else if type = 1 then if ioApics < Apic.maxIoApics then 12 else 2
  else if type = 2 then if gsiOverrides < maxGsiOverrides then 10 else 2
  else 2

theorem two_le_entryBytes (type ioApics gsiOverrides : Nat) :
    2 ≤ entryBytes type ioApics gsiOverrides := by
  unfold entryBytes
  split_ifs <;> decide

/-- The entries that the length bytes lead to, with the types of those before. -/
inductive EntryAt (memory : Nat → UInt8) (table : Nat) : Nat → List Nat → Prop where
  | first : EntryAt memory table madtSize []
  | next {entry : Nat} {before : List Nat} (earlier : EntryAt memory table entry before)
      (inside : entry < declared memory table) :
      EntryAt memory table (entry + number memory table (entry + 1) 1)
        (before ++ [number memory table entry 1])

/-- The table is long enough for what its manager reads. -/
def Fits (memory : Nat → UInt8) (table : Nat) : TableType → Prop
  | .rsdt => True
  | .madt => madtSize ≤ declared memory table ∧
      ∀ entry before, EntryAt memory table entry before → entry < declared memory table →
        entry + entryBytes (number memory table entry 1) (before.count 1) (before.count 2) ≤
          declared memory table
  | .hpet => 41 ≤ declared memory table ∧
    (number memory table 40 1 = 0 → 52 ≤ declared memory table)
  | .mcfg => madtSize ≤ declared memory table ∧ (declared memory table - madtSize) / 16 ≤
    maxMcfgEntries

/-! ## The calls of each part -/

section Parts

variable {memory : Nat → UInt8} {P : Call → Prop} {header : Nat}

@[simp] theorem all_length :
    (length header).All (answers memory) P ↔ ∀ i < 4, P (.read header (4 + i)) := all_read

@[simp] theorem all_mapAddress {physicalAddress size : Nat} {cacheable : Bool} :
    (mapAddress physicalAddress size cacheable).All (answers memory) P ↔
      P (.mapAddress physicalAddress size cacheable) := Program.all_perform _

@[simp] theorem all_unmapMemory {ptr size : Nat} :
    (unmapMemory ptr size).All (answers memory) P ↔ P (.unmapMemory ptr size) :=
  Program.all_perform _

@[simp] theorem all_assign {array : TableArray} {index : Nat} :
    (assign header array index).All (answers memory) P ↔ P (.assign header array index) :=
  Program.all_perform _

theorem all_checksumLoop {count i sum : Nat} :
    (checksumLoop header count i sum).All (answers memory) P ↔
      ∀ j < count, P (.read header (i + j)) := by
  induction count generalizing i sum with
  | zero => simp [checksumLoop]
  | succ count ih =>
      simp only [checksumLoop, Program.all_bind, all_read, value_read, Option.some.injEq,
        forall_eq', ih]
      constructor
      · rintro ⟨first, rest⟩ j below
        cases j with
        | zero => exact first 0 Nat.one_pos
        | succ j =>
            rw [← Nat.add_assoc, Nat.add_right_comm]
            exact rest j (Nat.lt_of_succ_lt_succ below)
      · intro all
        refine ⟨fun j below => all j (by omega), fun j below => ?_⟩
        rw [Nat.add_assoc, Nat.add_comm 1]
        exact all (j + 1) (Nat.succ_lt_succ below)

theorem all_doChecksum : (doChecksum header).All (answers memory) P ↔
    (∀ i < 4, P (.read header (4 + i))) ∧ ∀ i < declared memory header, P (.read header i) := by
  simp [doChecksum, all_checksumLoop]

theorem all_readSignature :
    (readSignature header).All (answers memory) P ↔ ∀ i < 4, P (.read header i) := by
  have four : (∀ i < 4, P (.read header i)) ↔
      P (.read header 0) ∧ P (.read header 1) ∧ P (.read header 2) ∧ P (.read header 3) := by
    constructor
    · exact fun all => ⟨all 0 (by decide), all 1 (by decide), all 2 (by decide), all 3 (by decide)⟩
    · rintro ⟨zero, one, two, three⟩ i below
      obtain rfl | rfl | rfl | rfl : i = 0 ∨ i = 1 ∨ i = 2 ∨ i = 3 := by omega
      · exact zero
      · exact one
      · exact two
      · exact three
  simp [readSignature, four]

/-- The manager of a HPET. -/
theorem all_hpetTableManager : (hpetTableManager header).All (answers memory) P ↔
    P (.read header 40) ∧
    (number memory header 40 1 = 0 → P (.read header 37) ∧ ∀ i < 8, P (.read header (44 + i))) ∧
    (∀ i < 4, P (.read header (4 + i))) ∧ P (.unmapMemory header (declared memory header)) := by
  by_cases memoryMapped : number memory header 40 1 = 0 <;>
    simp [hpetTableManager, memoryMapped, and_assoc]

/-- The twelve bytes of an entry of a MCFG, as they are read. -/
theorem forall_lt_twelve {Q : Nat → Prop} :
    (∀ i < 12, Q i) ↔ (∀ i < 8, Q i) ∧ Q 11 ∧ Q 10 ∧ ∀ i < 2, Q (8 + i) := by
  simp only [Nat.forall_lt_succ_left, Nat.not_lt_zero, IsEmpty.forall_iff, implies_true, and_true]
  tauto

/-- The loop over the entries of a MCFG. -/
theorem all_mcfgLoop {count i : Nat}
    (maps : ∀ physicalAddress size, P (.mapAddress physicalAddress size false)) :
    (mcfgLoop header count i).All (answers memory) P ↔
      ∀ j < count, (∀ k < 12, P (.read header (44 + (i + j) * 16 + k))) ∧
      P (.assign header .mcfgEntries (i + j)) := by
  induction count generalizing i with
  | zero => simp [mcfgLoop]
  | succ count ih =>
      have later : ∀ j, i + 1 + j = i + (j + 1) := fun j => by omega
      rw [Nat.forall_lt_succ_left, Nat.add_zero, forall_lt_twelve]
      simp [mcfgLoop, ih, maps, later, and_assoc, Nat.add_assoc]

theorem mcfgNumEntries_eq {tableLength : Nat} (whole : madtSize ≤ tableLength)
    (low : tableLength < 2 ^ 32) :
    mcfgNumEntries tableLength = (tableLength - madtSize) / 16 := by
  simp only [mcfgNumEntries, madtSize] at *
  omega

theorem all_mcfgTableManager
    (maps : ∀ physicalAddress size, P (.mapAddress physicalAddress size false))
    (unmaps : ∀ size, P (.unmapMemory header size)) (lengths : ∀ i < 4, P (.read header (4 + i))) :
    (mcfgTableManager header).All (answers memory) P ↔
      ∀ j < mcfgNumEntries (declared memory header),
        (∀ k < 12, P (.read header (44 + j * 16 + k))) ∧ P (.assign header .mcfgEntries j) := by
  simp only [mcfgTableManager, Program.all_bind, all_length, value_length,
    Option.some.injEq, forall_eq', all_mcfgLoop maps, all_unmapMemory, unmaps, Program.all_pure,
    implies_true, and_true, Nat.zero_add]
  exact ⟨fun all => all.2.1, fun all => ⟨lengths, all, fun _ _ => lengths⟩⟩

theorem all_loadChildren {load : Nat → Loading (Option TableManager)}
    {entrySize numChildren count i : Nat} (loads : ∀ address, (load address).All (answers memory) P)
    (reads : ∀ offset < headerSize + (i + count) * entrySize, P (.read header offset))
    (assigns : ∀ j < i + count, P (.assign header (.children numChildren) j)) :
    (loadChildren load header entrySize numChildren count i).All (answers memory) P := by
  induction count generalizing i with
  | zero => simp [loadChildren]
  | succ count ih =>
      have more : i + 1 + count = i + (count + 1) := by omega
      have room :
          headerSize + i * entrySize + entrySize ≤ headerSize + (i + (count + 1)) * entrySize := by
        rw [Nat.add_assoc, ← Nat.succ_mul]
        exact Nat.add_le_add_left (Nat.mul_le_mul_right _ (by omega)) _
      have rest := ih (i := i + 1) (more ▸ reads) (more ▸ assigns)
      simp only [loadChildren, Program.all_bind, all_read, all_assign, Program.all_pure,
        implies_true, and_true]
      exact ⟨fun j below => reads _ (by omega),
        fun value _ => ⟨loads value, fun _ _ => ⟨assigns i (by omega),
        fun _ _ => rest⟩⟩⟩

theorem rsdtNumChildren_eq {tableLength : Nat} (long : headerSize ≤ tableLength)
    (low : tableLength < 2 ^ 64) (entrySize : Nat) :
    rsdtNumChildren tableLength entrySize = (tableLength - headerSize) / entrySize := by
  have wrap : (tableLength + 2 ^ 64 - headerSize) % 2 ^ 64 = tableLength - headerSize := by
    simp only [headerSize] at *
    omega
  rw [rsdtNumChildren, wrap]

/-- The manager of a list of tables stays inside whatever its table says. -/
theorem all_rsdtTableManager {load : Nat → Loading (Option TableManager)}
    (long : headerSize ≤ declared memory header)
    (loads : ∀ address, (load address).All (answers memory) P)
    (reads : ∀ offset < declared memory header, P (.read header offset))
    (assigns : ∀ numChildren, ∀ i < numChildren, P (.assign header (.children numChildren) i))
    (news : ∀ numChildren, P (.newChildren numChildren))
    (unmaps : ∀ size, P (.unmapMemory header size)) :
    (rsdtTableManager load header).All (answers memory) P := by
  have low : declared memory header < 2 ^ 64 := (declared_lt memory header).trans (by decide)
  have fit : ∀ entrySize, headerSize +
    (0 + rsdtNumChildren (declared memory header) entrySize) * entrySize ≤
      declared memory header := by
    intro entrySize
    have whole := Nat.div_mul_le_self (declared memory header - headerSize) entrySize
    rw [rsdtNumChildren_eq long low, Nat.zero_add]
    omega
  have lengths : ∀ i < 4, P (.read header (4 + i)) :=
    fun i below => reads _ (by simp only [headerSize] at long; omega)
  simp only [rsdtTableManager, Program.all_bind, all_read, all_length, value_read, value_length,
    Program.all_perform, all_unmapMemory, Program.all_pure, Option.some.injEq, forall_eq',
    implies_true, and_true, Nat.zero_add]
  refine ⟨fun i below => reads _ (by simp only [headerSize] at long; omega), lengths, news _,
    fun _ _ => ⟨?_, ?_⟩⟩
  · refine all_loadChildren loads (fun offset below => reads _ (below.trans_le ?_)) fun i below =>
      assigns _ _ ?_
    · exact fit _
    · rwa [Nat.zero_add] at below
  · exact fun _ _ => ⟨lengths, unmaps _⟩

end Parts

/-! ## The walk over a MADT -/

/-- The manager has counted the types of the entries before, each up to its cap. -/
structure Counted (m : MadtTableManager) (before : List Nat) : Prop where
  localApics : m.localApics.length ≤ Apic.maxLocalApics
  ioApics : m.ioApics.length = min (before.count 1) Apic.maxIoApics
  gsiOverrides : m.gsiOverrides.length = min (before.count 2) maxGsiOverrides

theorem capped_length_le {α : Type} {cap : Nat} {l : List α} (short : l.length ≤ cap)
    (a : Option α) :
    (capped cap l a).length ≤ cap := by
  cases a with
  | none => exact short
  | some a =>
      by_cases room : l.length < cap
      · rw [capped, if_pos room, List.length_append]
        exact room
      · rw [capped, if_neg room]
        exact short

theorem capped_length {α : Type} {cap count : Nat} {l : List α}
    (counted : l.length = min count cap) (a : α) :
    (capped cap l (some a)).length = min (count + 1) cap := by
  by_cases room : l.length < cap
  · rw [capped, if_pos room, List.length_append, List.length_singleton]
    omega
  · rw [capped, if_neg room]
    omega

section Walk

variable {memory : Nat → UInt8} {P : Call → Prop} {header entry : Nat} {m : MadtTableManager}
  {before : List Nat}

/-- The body of the walk counts the type of the entry. -/
theorem value_madtEntry_counted (memory : Nat → UInt8) (header entry : Nat)
    (counted : Counted m before) :
    ∃ m', (madtEntry header entry m).value (answers memory) = some m' ∧
      Counted m' (before ++ [number memory header entry 1]) := by
  simp only [madtEntry, Program.value_bind, value_read, Option.bind_some]
  generalize number memory header entry 1 = type
  by_cases first : type = 0
  · subst first
    exact ⟨_, value_madtLocalApic m, capped_length_le counted.localApics _,
      by simpa using counted.ioApics, by simpa using counted.gsiOverrides⟩
  · rw [if_neg first]
    by_cases second : type = 1
    · subst second
      rw [if_pos rfl]
      exact ⟨_, value_madtIoApic m, counted.localApics,
        by simpa using capped_length counted.ioApics _, by simpa using counted.gsiOverrides⟩
    · rw [if_neg second]
      by_cases third : type = 2
      · subst third
        rw [if_pos rfl]
        exact ⟨_, value_madtGsiOverride m, counted.localApics, by simpa using counted.ioApics,
          by simpa using capped_length counted.gsiOverrides _⟩
      · rw [if_neg third]
        exact ⟨m, rfl, counted.localApics, by simpa [second] using counted.ioApics,
          by simpa [third] using counted.gsiOverrides⟩

/-- Only whether the caps have been reached matters. -/
theorem entryBytes_counted (counted : Counted m before) (type : Nat) :
    entryBytes type m.ioApics.length m.gsiOverrides.length =
      entryBytes type (before.count 1) (before.count 2) := by
  have ioApics : m.ioApics.length < Apic.maxIoApics ↔ before.count 1 < Apic.maxIoApics := by
    rw [counted.ioApics]
    omega
  have gsiOverrides : m.gsiOverrides.length < maxGsiOverrides ↔
      before.count 2 < maxGsiOverrides := by
    rw [counted.gsiOverrides]
    omega
  simp only [entryBytes, ioApics, gsiOverrides]

theorem all_madtLocalApic : (madtLocalApic header entry m).All (answers memory) P ↔
    (∀ i < 4, P (.read header (entry + 4 + i))) ∧
    (number memory header (entry + 4) 4 &&& 1 ≠ 0 ∧ m.localApics.length < Apic.maxLocalApics →
      P (.assign header .localApics m.localApics.length) ∧ P (.read header (entry + 3))) := by
  simp only [madtLocalApic, Program.all_bind, all_read, value_read, Option.some.injEq, forall_eq']
  by_cases counts : number memory header (entry + 4) 4 &&& 1 ≠ 0 ∧ m.localApics.length <
    Apic.maxLocalApics
  · simp [-Nat.and_one_is_mod, counts]
  · rw [if_neg counts]
    simp only [Program.all_pure, and_true, counts, false_implies]

theorem all_madtIoApic : (madtIoApic header entry m).All (answers memory) P ↔
    (m.ioApics.length < Apic.maxIoApics →
      P (.assign header .ioApics m.ioApics.length) ∧ (∀ i < 4, P (.read header (entry + 8 + i))) ∧
      ∀ i < 4, P (.read header (entry + 4 + i))) := by
  by_cases room : m.ioApics.length < Apic.maxIoApics <;> simp [madtIoApic, room]

theorem all_madtGsiOverride : (madtGsiOverride header entry m).All (answers memory) P ↔
    (m.gsiOverrides.length < maxGsiOverrides →
      P (.assign header .gsiOverrides m.gsiOverrides.length) ∧
      (∀ i < 2, P (.read header (entry + 8 + i))) ∧
      P (.read header (entry + 3)) ∧ ∀ i < 4, P (.read header (entry + 4 + i))) := by
  by_cases room : m.gsiOverrides.length < maxGsiOverrides <;> simp [madtGsiOverride, room]

/-- The calls at an entry: its bytes, and elements of the arrays. -/
theorem all_madtEntry
    (reads : ∀ k < entryBytes (number memory header entry 1) m.ioApics.length m.gsiOverrides.length,
      P (.read header (entry + k)))
    (assigns : ∀ array i, i < array.size → P (.assign header array i)) :
    (madtEntry header entry m).All (answers memory) P := by
  have two :=
    two_le_entryBytes (number memory header entry 1) m.ioApics.length m.gsiOverrides.length
  simp only [madtEntry, Program.all_bind, all_read, value_read, Option.some.injEq, forall_eq']
  refine ⟨fun i below => reads _ (by omega), ?_⟩
  generalize number memory header entry 1 = type at reads two
  have shifted : ∀ offset k, offset + k < entryBytes type m.ioApics.length m.gsiOverrides.length →
      P (.read header (entry + offset + k)) := fun offset k below => by
    rw [Nat.add_assoc]
    exact reads _ below
  by_cases first : type = 0
  · subst first
    simp only [entryBytes, if_true] at reads shifted
    exact all_madtLocalApic.mpr ⟨fun i below => shifted 4 i (by omega),
      fun counts => ⟨assigns .localApics _ counts.2, reads 3 (by omega)⟩⟩
  · rw [if_neg first]
    by_cases second : type = 1
    · subst second
      refine all_madtIoApic.mpr fun room => ?_
      simp only [entryBytes, first, if_false, if_true, room] at reads shifted
      exact ⟨assigns .ioApics _ room, fun i below => shifted 8 i (by omega),
        fun i below => shifted 4 i (by omega)⟩
    · rw [if_neg second]
      by_cases third : type = 2
      · subst third
        refine all_madtGsiOverride.mpr fun room => ?_
        simp only [entryBytes, first, second, if_false, if_true, room] at reads shifted
        exact ⟨assigns .gsiOverrides _ room, fun i below => shifted 8 i (by omega),
          reads 3 (by omega), fun i below => shifted 4 i (by omega)⟩
      · rw [if_neg third]
        exact Program.all_pure m

/-- The last byte of an entry is always read, here or for its length. -/
theorem last_byte_read (all : (madtEntry header entry m).All (answers memory) P)
    (length : P (.read header (entry + 1))) :
    P (.read header
      (entry + (entryBytes (number memory header entry 1) m.ioApics.length
        m.gsiOverrides.length - 1))) := by
  simp only [madtEntry, Program.all_bind, value_read, Option.some.injEq, forall_eq'] at all
  obtain ⟨-, all⟩ := all
  generalize number memory header entry 1 = type at all
  by_cases first : type = 0
  · subst first
    exact (all_madtLocalApic.mp all).1 3 (by decide)
  · rw [if_neg first] at all
    by_cases second : type = 1
    · subst second
      by_cases room : m.ioApics.length < Apic.maxIoApics
      · simp only [entryBytes, first, if_false, if_true, room]
        exact (all_madtIoApic.mp all room).2.1 3 (by decide)
      · simpa only [entryBytes, first, if_false, if_true, room] using length
    · rw [if_neg second] at all
      by_cases third : type = 2
      · subst third
        by_cases room : m.gsiOverrides.length < maxGsiOverrides
        · simp only [entryBytes, first, second, if_false, if_true, room]
          exact (all_madtGsiOverride.mp all room).2.1 1 (by decide)
        · simpa only [entryBytes, first, second, if_false, if_true, room] using length
      · simpa only [entryBytes, first, second, third, if_false] using length

/-- A walk over entries that fit stays inside. -/
theorem all_madtLoop {table fuel : Nat}
    (fits : ∀ entry before, EntryAt memory table entry before → entry < declared memory table →
      entry + entryBytes (number memory table entry 1) (before.count 1) (before.count 2) ≤
        declared memory table)
    (here : EntryAt memory table entry before) (counted : Counted m before) :
    (madtLoop table (declared memory table) fuel entry m).All (answers memory)
      (InBounds memory table) := by
  induction fuel generalizing entry m before with
  | zero => exact Program.all_later
  | succ fuel ih =>
      by_cases inside : entry < declared memory table
      · have room := fits entry before here inside
        rw [← entryBytes_counted counted] at room
        obtain ⟨m', value, counted'⟩ := value_madtEntry_counted memory table entry counted
        have two :=
          two_le_entryBytes (number memory table entry 1) m.ioApics.length m.gsiOverrides.length
        simp only [madtLoop, inside, if_true, Program.all_bind, all_read, value_read, value,
          Option.some.injEq, forall_eq']
        refine ⟨all_madtEntry (fun k below _ => ?_) (fun array i below _ => below),
          fun i below _ => ?_, ih (.next here inside) counted'⟩
        · omega
        · omega
      · simp only [madtLoop, inside, if_false]
        exact Program.all_pure m

/-- With enough fuel the walk comes to every entry. -/
theorem madtLoop_reaches {table : Nat} {first : MadtTableManager} (none : Counted first [])
    (here : EntryAt memory table entry before) :
    ∃ steps m, Counted m before ∧ ∀ fuel,
      (madtLoop table (declared memory table) (steps + fuel) madtSize first).All
        (answers memory) P →
      (madtLoop table (declared memory table) fuel entry m).All (answers memory) P := by
  induction here with
  | first => exact ⟨0, first, none, fun fuel all => by rwa [Nat.zero_add] at all⟩
  | @next entry _ _ inside ih =>
      obtain ⟨steps, m, counted, reaches⟩ := ih
      obtain ⟨m', value, counted'⟩ := value_madtEntry_counted memory table entry counted
      refine ⟨steps + 1, m', counted', fun fuel all => ?_⟩
      have now := reaches (fuel + 1) (by rwa [Nat.add_assoc, Nat.add_comm 1] at all)
      simp only [madtLoop, inside, if_true, Program.all_bind, value_read, value, Option.some.injEq,
        forall_eq'] at now
      exact now.2.2

end Walk

/-! ## Whole tables -/

section Tables

variable {memory : Nat → UInt8} {table : Nat}

/-- What matters of the calls of loading is what the creator does, when the header and
    the checksum let it come to one. -/
theorem all_loadTable {P : Call → Prop} {fuel : Nat}
    (maps : ∀ size, P (.mapAddress table size true)) (unmaps : ∀ size, P (.unmapMemory table size))
    (lengths : ∀ i < 4, P (.read table (4 + i)))
    (bytes : ∀ i < declared memory table, P (.read table i)) :
    (loadTable (fuel + 1) table).All (answers memory) P ↔
      (headerSize ≤ declared memory table → Passes memory table →
        ∀ type, findHandler (signature memory table) = some type →
          (create (loadTable fuel) fuel table type).All (answers memory) P) := by
  by_cases small : declared memory table < headerSize
  · have short : ¬ headerSize ≤ declared memory table := Nat.not_le.mpr small
    simp only [short, false_implies, iff_true]
    simp [loadTable, small, maps]
    exact lengths
  · have long := Nat.le_of_not_lt small
    have signs : ∀ i < 4, P (.read table i) :=
      fun i below => bytes i (by simp only [headerSize] at long; omega)
    by_cases passes : Passes memory table
    · cases handled : findHandler (signature memory table) with
      | none =>
          simp [loadTable, small, passes, handled, all_doChecksum, all_readSignature, maps, unmaps]
          exact ⟨lengths, ⟨lengths, bytes⟩, signs⟩
      | some type =>
          simp [loadTable, small, passes, handled, all_doChecksum, all_readSignature,
            maps, unmaps, long]
          exact ⟨fun all => all.2.2.2, fun all => ⟨lengths, ⟨lengths, bytes⟩, signs, all⟩⟩
    · simp [loadTable, small, passes, all_doChecksum, maps, unmaps]
      exact ⟨lengths, ⟨lengths, bytes⟩, lengths⟩

/-- The manager before the walk. -/
def madtStart (memory : Nat → UInt8) (table : Nat) : MadtTableManager where
  hasPic := number memory table 40 4 &&& 1 ≠ 0
  localApicAddress := number memory table 36 4

theorem madtStart_counted : Counted (madtStart memory table) [] := ⟨Nat.zero_le _, rfl, rfl⟩

theorem all_madtTableManager {P : Call → Prop} {fuel : Nat}
    (lengths : ∀ i < 4, P (.read table (4 + i))) (unmaps : ∀ size, P (.unmapMemory table size)) :
    (madtTableManager fuel table).All (answers memory) P ↔
      (∀ i < 4, P (.read table (36 + i))) ∧ (∀ i < 4, P (.read table (40 + i))) ∧
      (madtLoop table (declared memory table) fuel madtSize (madtStart memory table)).All
        (answers memory) P := by
  simp only [madtTableManager, Program.all_bind, all_read, value_read, all_length, value_length,
    all_unmapMemory, Program.all_pure, Option.some.injEq, forall_eq', unmaps,
    implies_true, and_true]
  exact ⟨fun all => ⟨all.1, all.2.1, all.2.2.2.1⟩,
    fun all => ⟨all.1, all.2.1, lengths, all.2.2, fun _ _ => lengths⟩⟩

/-- The walk over another table. -/
theorem all_madtLoop_other {P : Call → Prop} {tableLength fuel entry : Nat} {m : MadtTableManager}
    (reads : ∀ offset, P (.read table offset)) (assigns : ∀ array i, P (.assign table array i)) :
    (madtLoop table tableLength fuel entry m).All (answers memory) P := by
  induction fuel generalizing entry m with
  | zero => exact Program.all_later
  | succ fuel ih =>
      by_cases inside : entry < tableLength
      · simp only [madtLoop, inside, if_true, Program.all_bind, all_read, value_read,
          Option.some.injEq, forall_eq']
        exact ⟨all_madtEntry (fun k _ => reads _) (fun array i _ => assigns array i),
          fun _ _ => ⟨fun i _ => reads _, ih⟩⟩
      · simp only [madtLoop, inside, if_false]
        exact Program.all_pure m

/-- The calls of a creator are those of the constructor. -/
theorem all_create {P : Call → Prop} {type : TableType}
    {load : Nat → Loading (Option TableManager)} {fuel : Nat} (created : P (.newManager type)) :
    (create load fuel table type).All (answers memory) P ↔
      match type with
      | .rsdt => (rsdtTableManager load table).All (answers memory) P
      | .madt => (madtTableManager fuel table).All (answers memory) P
      | .hpet => (hpetTableManager table).All (answers memory) P
      | .mcfg => (mcfgTableManager table).All (answers memory) P := by
  cases type <;> simp only [create, Program.all_bind, Program.all_perform, created,
    Program.value_perform, Program.all_pure, Option.some.injEq, forall_eq', implies_true,
    and_true, true_and]

/-- The manager of a table that fits stays inside. -/
theorem Fits.create_stays {type : TableType}
    {load : Nat → Loading (Option TableManager)} {fuel : Nat} (fits : Fits memory table type)
    (long : headerSize ≤ declared memory table)
    (loads : ∀ address, (load address).All (answers memory) (InBounds memory table)) :
    (create load fuel table type).All (answers memory) (InBounds memory table) := by
  have lengths : ∀ i < 4, InBounds memory table (.read table (4 + i)) := fun i below _ => by
    simp only [headerSize] at long
    omega
  have unmaps : ∀ size, InBounds memory table (.unmapMemory table size) := fun _ => trivial
  rw [all_create (show InBounds memory table (.newManager type) from trivial)]
  cases type with
  | rsdt =>
      exact all_rsdtTableManager long loads (fun _ below _ => below) (fun _ _ below _ => below)
        (fun _ => trivial) unmaps
  | madt =>
      obtain ⟨whole, entries⟩ := fits
      simp only [madtSize] at whole
      exact (all_madtTableManager lengths unmaps).mpr ⟨fun i below _ => by omega,
        fun i below _ => by omega, all_madtLoop entries .first madtStart_counted⟩
  | hpet =>
      obtain ⟨short, whole⟩ := fits
      refine all_hpetTableManager.mpr ⟨fun _ => by omega, fun inMemory => ?_, lengths, unmaps _⟩
      have enough := whole inMemory
      exact ⟨fun _ => by omega, fun i below _ => by omega⟩
  | mcfg =>
      obtain ⟨whole, few⟩ := fits
      refine (all_mcfgTableManager (fun _ _ => trivial) unmaps lengths).mpr fun j below => ?_
      rw [mcfgNumEntries_eq whole (declared_lt memory table)] at below
      simp only [madtSize, maxMcfgEntries] at whole few below
      exact ⟨fun k inside _ => by omega, fun _ => show j < 16 by omega⟩

/-- The manager of another table does not touch this one. -/
theorem create_stays_other {type : TableType} {load : Nat → Loading (Option TableManager)}
    {fuel other : Nat} (different : other ≠ table) (long : headerSize ≤ declared memory other)
    (loads : ∀ address, (load address).All (answers memory) (InBounds memory table)) :
    (create load fuel other type).All (answers memory) (InBounds memory table) := by
  have reads : ∀ offset, InBounds memory table (.read other offset) :=
    fun _ same => absurd same different
  have assigns : ∀ array i, InBounds memory table (.assign other array i) :=
    fun _ _ same => absurd same different
  have unmaps : ∀ size, InBounds memory table (.unmapMemory other size) := fun _ => trivial
  rw [all_create (show InBounds memory table (.newManager type) from trivial)]
  cases type with
  | rsdt =>
      exact all_rsdtTableManager long loads (fun _ _ => reads _) (fun _ _ _ => assigns _ _)
        (fun _ => trivial) unmaps
  | madt =>
      exact (all_madtTableManager (fun i _ => reads (4 + i)) unmaps).mpr
        ⟨fun _ _ => reads _, fun _ _ => reads _, all_madtLoop_other reads assigns⟩
  | hpet =>
      exact all_hpetTableManager.mpr ⟨reads _, fun _ => ⟨reads _, fun _ _ => reads _⟩,
        fun _ _ => reads _, unmaps _⟩
  | mcfg =>
      exact (all_mcfgTableManager (fun _ _ => trivial) unmaps (fun i _ => reads (4 + i))).mpr
        fun _ _ => ⟨fun _ _ => reads _, assigns _ _⟩

/-- Loading any table stays inside one that fits. -/
theorem Fits.load_stays (long : headerSize ≤ declared memory table)
    (fits : ∀ type, findHandler (signature memory table) = some type → Fits memory table type)
    (fuel address : Nat) :
    (loadTable fuel address).All (answers memory) (InBounds memory table) := by
  induction fuel generalizing address with
  | zero => exact Program.all_later
  | succ fuel ih =>
      have bytes : ∀ i < declared memory address, InBounds memory table (.read address i) :=
        fun i below same => by
        rwa [same] at below
      have lengths :
          ∀ i < 4, InBounds memory table (.read address (4 + i)) := fun i below same => by
        simp only [headerSize] at long
        omega
      refine (all_loadTable (fun _ => trivial) (fun _ => trivial) lengths bytes).mpr
        fun long' _ type handled => ?_
      by_cases same : address = table
      · subst same
        exact (fits type handled).create_stays long ih
      · exact create_stays_other same long' ih

theorem Fits.countsRight {type : TableType} (fits : Fits memory table type)
    (long : headerSize ≤ declared memory table) : CountsRight memory table type := by
  have low := declared_lt memory table
  cases type with
  | rsdt => exact fun entrySize => rsdtNumChildren_eq long (low.trans (by decide)) entrySize
  | madt => trivial
  | hpet => trivial
  | mcfg =>
      have count := mcfgNumEntries_eq fits.1 low
      exact ⟨fits.1, count, count.trans_le fits.2⟩

theorem StaysInside.fits {type : TableType} (stays : StaysInside memory table type)
    (long : headerSize ≤ declared memory table) (passes : Passes memory table)
    (handled : findHandler (signature memory table) = some type) : Fits memory table type := by
  have lengths : ∀ i < 4, InBounds memory table (.read table (4 + i)) := fun i below _ => by
    simp only [headerSize] at long
    omega
  have created : ∀ fuel, (create (loadTable fuel) fuel table type).All (answers memory)
      (InBounds memory table) :=
    fun fuel =>
      (all_loadTable (fun _ => trivial) (fun _ => trivial) lengths fun _ below _ => below).mp
      (stays.calls (fuel + 1)) long passes type handled
  have made : InBounds memory table (.newManager type) := trivial
  simp only [all_create made] at created
  cases type with
  | rsdt => trivial
  | madt =>
      have madt := fun fuel => (all_madtTableManager lengths fun _ => trivial).mp (created fuel)
      refine ⟨(madt 0).2.1 3 (by decide) rfl, fun entry before here inside => ?_⟩
      obtain ⟨steps, m, counted, reaches⟩ :=
        madtLoop_reaches (P := InBounds memory table) madtStart_counted here
      have now := reaches 1 (madt (steps + 1)).2.2
      simp only [madtLoop, inside, if_true, Program.all_bind, all_read, value_read,
        Option.some.injEq, forall_eq'] at now
      obtain ⟨m', value, -⟩ := value_madtEntry_counted memory table entry counted
      have last := last_byte_read now.1 ((now.2 m' value).1 0 Nat.one_pos) rfl
      have two :=
        two_le_entryBytes (number memory table entry 1) m.ioApics.length m.gsiOverrides.length
      rw [← entryBytes_counted counted]
      omega
  | hpet =>
      have hpet := all_hpetTableManager.mp (created 0)
      exact ⟨hpet.1 rfl, fun inMemory => (hpet.2.1 inMemory).2 7 (by decide) rfl⟩
  | mcfg =>
      have mcfg :=
        (all_mcfgTableManager (fun _ _ => trivial) (fun _ => trivial) lengths).mp (created 0)
      have low := declared_lt memory table
      have whole : madtSize ≤ declared memory table := by
        by_contra short
        have some : 0 < mcfgNumEntries (declared memory table) := by
          simp only [mcfgNumEntries, madtSize] at short ⊢
          omega
        have last := (mcfg 0 some).1 11 (by decide) rfl
        simp only [madtSize] at short
        omega
      refine ⟨whole, ?_⟩
      by_contra many
      rw [← mcfgNumEntries_eq whole low] at many
      exact absurd ((mcfg maxMcfgEntries (Nat.lt_of_not_le many)).2 rfl) (by decide)

theorem Fits.staysInside {type : TableType} (fits : Fits memory table type)
    (long : headerSize ≤ declared memory table)
    (handled : findHandler (signature memory table) = some type) :
    StaysInside memory table type := by
  have only : ∀ other, findHandler (signature memory table) = some other →
      Fits memory table other := by
    intro other handled'
    rw [handled] at handled'
    cases handled'
    exact fits
  exact ⟨fun fuel => Fits.load_stays long only fuel table, fits.countsRight long⟩

/-- Each manager stays inside its table and its arrays exactly when the table is long
    enough for it. -/
theorem manager_staysInside_iff {type : TableType} (long : headerSize ≤ declared memory table)
    (passes : Passes memory table) (handled : findHandler (signature memory table) = some type) :
    StaysInside memory table type ↔ Fits memory table type :=
  ⟨fun stays => stays.fits long passes handled, fun fits => fits.staysInside long handled⟩

end Tables

/-- A MCFG with one window, for all the buses of the first segment. -/
def oneWindow : Nat → UInt8 :=
  memoryAt 0x1000 (sealed [0x4d, 0x43, 0x46, 0x47]
    (List.replicate 8 0 ++ (littleEndian 0xb0000000 8 ++ [0, 0, 0, 255, 0, 0, 0, 0])))

theorem oneWindow_stays : StaysInside oneWindow 0x1000 .mcfg := by
  refine (manager_staysInside_iff ?_ ?_ ?_).mpr ⟨?_, ?_⟩ <;> decide +kernel

/-- A MCFG of nothing but a header passes every check and is taken to have 268435455
    entries. -/
theorem bareMcfg_leaves :
    headerSize ≤ declared (memoryAt 0x1000 (sealed [0x4d, 0x43, 0x46, 0x47] [])) 0x1000 ∧
    Passes (memoryAt 0x1000 (sealed [0x4d, 0x43, 0x46, 0x47] [])) 0x1000 ∧
    findHandler (signature (memoryAt 0x1000 (sealed [0x4d, 0x43, 0x46, 0x47] [])) 0x1000) =
      some .mcfg ∧
    mcfgNumEntries (declared (memoryAt 0x1000 (sealed [0x4d, 0x43, 0x46, 0x47] [])) 0x1000) =
      268435455 ∧
    ¬ StaysInside (memoryAt 0x1000 (sealed [0x4d, 0x43, 0x46, 0x47] [])) 0x1000 .mcfg := by
  have long :
      headerSize ≤ declared (memoryAt 0x1000 (sealed [0x4d, 0x43, 0x46, 0x47] [])) 0x1000 := by
    decide +kernel
  have passes : Passes (memoryAt 0x1000 (sealed [0x4d, 0x43, 0x46, 0x47] [])) 0x1000 := by
    decide +kernel
  have handled :
      findHandler (signature (memoryAt 0x1000 (sealed [0x4d, 0x43, 0x46, 0x47] [])) 0x1000) =
        some .mcfg := by
    decide +kernel
  refine ⟨long, passes, handled, by decide +kernel, fun stays => ?_⟩
  have whole := (stays.fits long passes handled).1
  exact absurd whole (by decide +kernel)

end Mykonos.Acpi
