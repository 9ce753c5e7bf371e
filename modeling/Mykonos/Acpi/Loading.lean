import Mykonos.Acpi.Bounds
import Mykonos.Lib.Acyclic
import Mathlib.Data.Fintype.Order
import Mathlib.Data.Set.Finite.Basic

/-! # Whether loading ends

The walk over a MADT goes on by lengths that stand in the table, and a list of tables is
loaded by loading the tables it lists, which may be lists again. Both end on some images
of memory only.
-/

namespace Mykonos.Acpi

open Lib Relation

variable {memory : Nat → UInt8} {table : Nat}

/-! ## Tables that are loaded -/

/-- Loading the table comes to a manager of the type. -/
structure Handled (memory : Nat → UInt8) (table : Nat) (type : TableType) : Prop where
  long : headerSize ≤ declared memory table
  passes : Passes memory table
  handled : findHandler (signature memory table) = some type

/-- The size of the entries of a list of tables. -/
def entrySizeOf (memory : Nat → UInt8) (table : Nat) : Nat :=
  if number memory table 0 1 = 0x58 then 8 else 4

/-- The table is a list of tables, and has the address in it. -/
def Lists (memory : Nat → UInt8) (table address : Nat) : Prop :=
  Handled memory table .rsdt ∧
  ∃ i < (declared memory table - headerSize) / entrySizeOf memory table,
    address = number memory table (headerSize + i * entrySizeOf memory table)
      (entrySizeOf memory table)

/-- The walk over the MADT comes to an entry of length zero before the end. -/
def Stalls (memory : Nat → UInt8) (table : Nat) : Prop :=
  ∃ entry before, EntryAt memory table entry before ∧ entry < declared memory table ∧
    number memory table (entry + 1) 1 = 0

/-- With enough fuel loading comes to a result. -/
def Terminates (memory : Nat → UInt8) (address : Nat) : Prop :=
  ∃ fuel result, (loadTable fuel address).value (answers memory) = some result

/-- From the address on no list of tables leads back to itself, and no MADT stalls. -/
structure Loadable (memory : Nat → UInt8) (address : Nat) : Prop where
  acyclic : ∀ table, ReflTransGen (Lists memory) address table →
    ¬TransGen (Lists memory) table table
  walks : ∀ table, ReflTransGen (Lists memory) address table → Handled memory table .madt →
    ¬Stalls memory table

theorem Lists.lt {address : Nat} (lists : Lists memory table address) : address < 2 ^ 64 := by
  obtain ⟨-, i, -, rfl⟩ := lists
  have low := readLittleEndian_lt (behind memory table) (headerSize + i * entrySizeOf memory table)
    (entrySizeOf memory table)
  refine low.trans_le ?_
  unfold entrySizeOf
  split_ifs <;> decide

/-! ## More fuel -/

theorem madtLoop_extends {header tableLength fuel more entry : Nat} {m : MadtTableManager}
    (le : fuel ≤ more) :
    Program.Extends (answers memory) (madtLoop header tableLength fuel entry m)
      (madtLoop header tableLength more entry m) := by
  induction fuel generalizing more entry m with
  | zero => exact .later _
  | succ fuel ih =>
      obtain ⟨more, rfl⟩ := Nat.exists_eq_succ_of_ne_zero (show more ≠ 0 by omega)
      simp only [madtLoop]
      split
      · exact .bind (.refl _) fun m => .bind (.refl _) fun entryLength => ih (by omega)
      · exact .refl _

theorem loadChildren_extends {load more : Nat → Loading (Option TableManager)}
    (loads : ∀ address, Program.Extends (answers memory) (load address) (more address))
    (header entrySize numChildren count i : Nat) :
    Program.Extends (answers memory) (loadChildren load header entrySize numChildren count i)
      (loadChildren more header entrySize numChildren count i) := by
  induction count generalizing i with
  | zero => exact .refl _
  | succ count ih =>
      exact .bind (.refl _) fun value => .bind (loads value) fun child => .bind (.refl _) fun _ =>
        .bind (ih (i + 1)) fun rest => .refl _

theorem create_extends {load more : Nat → Loading (Option TableManager)} {fuel fuel' : Nat}
    (loads : ∀ address, Program.Extends (answers memory) (load address) (more address))
    (le : fuel ≤ fuel') (header : Nat) (type : TableType) :
    Program.Extends (answers memory) (create load fuel header type)
      (create more fuel' header type) := by
  refine .bind (.refl _) fun this => ?_
  cases type with
  | rsdt =>
      exact .bind (.bind (.refl _) fun first => .bind (.refl _) fun length =>
          .bind (.refl _) fun array =>
        .bind (loadChildren_extends loads _ _ _ _ _) fun children => .refl _) fun built => .refl _
  | madt =>
      exact .bind (.bind (.refl _) fun address => .bind (.refl _) fun flags =>
          .bind (.refl _) fun length =>
        .bind (madtLoop_extends le) fun m => .refl _) fun built => .refl _
  | hpet => exact .refl _
  | mcfg => exact .refl _

theorem loadTable_extends {fuel more : Nat} (le : fuel ≤ more) (address : Nat) :
    Program.Extends (answers memory) (loadTable fuel address) (loadTable more address) := by
  induction fuel generalizing more address with
  | zero => exact .later _
  | succ fuel ih =>
      obtain ⟨more, rfl⟩ := Nat.exists_eq_succ_of_ne_zero (show more ≠ 0 by omega)
      simp only [loadTable]
      refine .bind (.refl _) fun header => .bind (.refl _) fun tableSize => ?_
      split
      · exact .refl _
      · refine .bind (.refl _) fun _ => .bind (.refl _) fun header =>
          .bind (.refl _) fun passes => ?_
        split
        · refine .bind (.refl _) fun signature => ?_
          split
          · exact .bind (create_extends (fun address => ih (by omega) address) (by omega) header _)
                fun manager =>
              .refl _
          · exact .refl _
        · exact .refl _

/-! ## Results -/

theorem value_loadTable {fuel : Nat} {type : TableType} (handled : Handled memory table type) :
    (loadTable (fuel + 1) table).value (answers memory) =
      ((create (loadTable fuel) fuel table type).value (answers memory)).map some := by
  have long := Nat.not_lt.mpr handled.long
  simp only [loadTable, Program.value_bind, value_mapAddress, value_length, Option.bind_some,
    long, if_false, value_unmapMemory, value_doChecksum, handled.passes, decide_true, if_true,
    value_readSignature, handled.handled, Program.value_pure]
  exact Option.map_eq_bind.symm

/-- A table that is too small, broken or unknown is rejected at once. -/
theorem value_loadTable_rejected {fuel : Nat} (rejected : ∀ type, ¬Handled memory table type) :
    (loadTable (fuel + 1) table).value (answers memory) = some none := by
  by_cases small : declared memory table < headerSize
  · simp [loadTable, small]
  · by_cases passes : Passes memory table
    · cases handled : findHandler (signature memory table) with
      | none => simp [loadTable, small, passes, handled]
      | some type => exact absurd ⟨Nat.le_of_not_lt small, passes, handled⟩ (rejected type)
    · simp [loadTable, small, passes]

theorem loadChildren_isSome {load : Nat → Loading (Option TableManager)}
    {entrySize numChildren count i : Nat} :
    ((loadChildren load table entrySize numChildren count i).value (answers memory)).isSome ↔
      ∀ j < count,
        ((load (number memory table (headerSize + (i + j) * entrySize) entrySize)).value
          (answers memory)).isSome := by
  induction count generalizing i with
  | zero => simp [loadChildren]
  | succ count ih =>
      have later : ∀ j, i + 1 + j = i + (j + 1) := fun j => by omega
      rw [Nat.forall_lt_succ_left, Nat.add_zero]
      have rest := ih (i := i + 1)
      simp only [later] at rest
      rw [← rest]
      simp only [loadChildren, Program.value_bind, value_read, value_assign, Program.value_pure,
        Option.bind_some]
      cases (load (number memory table (headerSize + i * entrySize) entrySize)).value
          (answers memory) with
      | none => simp
      | some child =>
          cases (loadChildren load table entrySize numChildren count (i + 1)).value
            (answers memory) <;> simp

theorem create_rsdt_isSome {load : Nat → Loading (Option TableManager)} {fuel : Nat}
    (handled : Handled memory table .rsdt) :
    ((create load fuel table .rsdt).value (answers memory)).isSome ↔
      ∀ address, Lists memory table address → ((load address).value (answers memory)).isSome := by
  have count := rsdtNumChildren_eq handled.long ((declared_lt memory table).trans (by decide))
    (entrySizeOf memory table)
  have children : ((loadChildren load table (entrySizeOf memory table)
      (rsdtNumChildren (declared memory table) (entrySizeOf memory table))
      (rsdtNumChildren (declared memory table) (entrySizeOf memory table)) 0).value
      (answers memory)).isSome ↔
      ∀ address, Lists memory table address → ((load address).value (answers memory)).isSome := by
    rw [loadChildren_isSome, count]
    simp only [Nat.zero_add]
    constructor
    · rintro all address ⟨-, i, inside, rfl⟩
      exact all i inside
    · exact fun all i inside => all _ ⟨handled, i, inside, rfl⟩
  rw [← children]
  simp -implicitDefEqProofs only [create, rsdtTableManager, Program.value_bind,
    Program.value_perform, value_read, value_length, value_unmapMemory, Program.value_pure,
    Option.bind_some, entrySizeOf]
  generalize Program.value (answers memory) (loadChildren load table _ _ _ _) = result
  cases result <;> rfl

theorem create_madt_isSome {load : Nat → Loading (Option TableManager)} {fuel : Nat} :
    ((create load fuel table .madt).value (answers memory)).isSome ↔
      ((madtLoop table (declared memory table) fuel madtSize (madtStart memory table)).value
        (answers memory)).isSome := by
  have start : (madtLoop table (declared memory table) fuel madtSize (madtStart memory table)).value
    (answers memory) =
      (madtTableManager fuel table).value (answers memory) := by
    simp only [madtTableManager, Program.value_bind, value_read, value_length, value_unmapMemory,
      Program.value_pure, Option.bind_some, Option.bind_fun_some]
    rfl
  rw [start]
  simp -implicitDefEqProofs only [create, Program.value_bind, Program.value_perform,
    Program.value_pure, Option.bind_some]
  cases (madtTableManager fuel table).value (answers memory) <;> rfl

theorem hpetTableManager_isSome : ((hpetTableManager table).value (answers memory)).isSome := by
  by_cases inMemory : number memory table 40 1 = 0 <;> simp [hpetTableManager, inMemory]

theorem create_hpet_isSome {load : Nat → Loading (Option TableManager)} {fuel : Nat} :
    ((create load fuel table .hpet).value (answers memory)).isSome := by
  have ends : ((hpetTableManager table).value (answers memory)).isSome := hpetTableManager_isSome
  obtain ⟨m, found⟩ := Option.isSome_iff_exists.mp ends
  rw [create]
  simp [found]

theorem mcfgLoop_isSome {count i : Nat} :
    ((mcfgLoop table count i).value (answers memory)).isSome := by
  induction count generalizing i with
  | zero => rfl
  | succ count ih =>
      obtain ⟨rest, found⟩ := Option.isSome_iff_exists.mp (ih (i := i + 1))
      simp [mcfgLoop, found]

theorem mcfgTableManager_isSome : ((mcfgTableManager table).value (answers memory)).isSome := by
  have ends :
      ((mcfgLoop table (mcfgNumEntries (declared memory table)) 0).value (answers memory)).isSome :=
    mcfgLoop_isSome
  obtain ⟨entries, found⟩ := Option.isSome_iff_exists.mp ends
  rw [mcfgTableManager]
  simp -implicitDefEqProofs only [Program.value_bind, value_length, found, value_unmapMemory,
    Program.value_pure, Option.bind_some, Option.isSome_some]

theorem create_mcfg_isSome {load : Nat → Loading (Option TableManager)} {fuel : Nat} :
    ((create load fuel table .mcfg).value (answers memory)).isSome := by
  have ends : ((mcfgTableManager table).value (answers memory)).isSome := mcfgTableManager_isSome
  obtain ⟨entries, found⟩ := Option.isSome_iff_exists.mp ends
  rw [create]
  simp [found]

/-! ## The walk over a MADT -/

/-- The walk comes to every entry. -/
theorem value_madtLoop_reaches {entry : Nat} {before : List Nat}
    (here : EntryAt memory table entry before) :
    ∃ steps m, Counted m before ∧ ∀ fuel,
      (madtLoop table (declared memory table) (steps + fuel) madtSize
        (madtStart memory table)).value (answers memory) =
        (madtLoop table (declared memory table) fuel entry m).value (answers memory) := by
  induction here with
  | first =>
      refine ⟨0, madtStart memory table, madtStart_counted, fun fuel => ?_⟩
      rw [Nat.zero_add]
  | @next entry _ _ inside ih =>
      obtain ⟨steps, m, counted, reaches⟩ := ih
      obtain ⟨m', value, counted'⟩ := value_madtEntry_counted memory table entry counted
      refine ⟨steps + 1, m', counted', fun fuel => ?_⟩
      rw [Nat.add_assoc, Nat.add_comm 1, reaches]
      simp only [madtLoop, inside, if_true, Program.value_bind, value, value_read, Option.bind_some]

/-- At an entry of length zero the walk stays where it is. -/
theorem madtLoop_stays {entry fuel : Nat} {before : List Nat} {m : MadtTableManager}
    (counted : Counted m before) (inside : entry < declared memory table)
    (empty : number memory table (entry + 1) 1 = 0) :
    (madtLoop table (declared memory table) fuel entry m).value (answers memory) = none := by
  induction fuel generalizing m before with
  | zero => rfl
  | succ fuel ih =>
      obtain ⟨m', value, counted'⟩ := value_madtEntry_counted memory table entry counted
      simp only [madtLoop, inside, if_true, Program.value_bind, value, value_read,
        Option.bind_some, empty, Nat.add_zero]
      exact ih counted'

theorem Stalls.not_isSome (stalls : Stalls memory table) (fuel : Nat) :
    ¬((madtLoop table (declared memory table) fuel madtSize (madtStart memory table)).value
      (answers memory)).isSome := by
  intro ends
  obtain ⟨entry, before, here, inside, empty⟩ := stalls
  obtain ⟨steps, m, counted, reaches⟩ := value_madtLoop_reaches here
  obtain ⟨result, found⟩ := Option.isSome_iff_exists.mp ends
  have later := madtLoop_extends (Nat.le_add_left fuel steps) result found
  rw [reaches, madtLoop_stays counted inside empty] at later
  exact absurd later (Option.some_ne_none result).symm

/-- Every entry takes the walk at least one byte further. -/
theorem madtLoop_ends {entry fuel : Nat} {before : List Nat} {m : MadtTableManager}
    (walks : ¬Stalls memory table) (here : EntryAt memory table entry before)
    (counted : Counted m before) (enough : declared memory table ≤ entry + fuel) :
    ((madtLoop table (declared memory table) (fuel + 1) entry m).value
      (answers memory)).isSome := by
  induction fuel generalizing entry before m with
  | zero =>
      have outside : ¬entry < declared memory table := Nat.not_lt.mpr enough
      simp [madtLoop, outside]
  | succ fuel ih =>
      by_cases inside : entry < declared memory table
      · have further : number memory table (entry + 1) 1 ≠ 0 :=
          fun empty => walks ⟨entry, before, here, inside, empty⟩
        obtain ⟨m', value, counted'⟩ := value_madtEntry_counted memory table entry counted
        rw [madtLoop]
        simp only [inside, if_true, Program.value_bind, value, value_read, Option.bind_some]
        exact ih (.next here inside) counted' (by omega)
      · simp [madtLoop, inside]

/-! ## Lists of tables -/

theorem terminates_iff {address : Nat} :
    Terminates memory address ↔
      ∃ fuel, ((loadTable fuel address).value (answers memory)).isSome := by
  simp only [Terminates, Option.isSome_iff_exists]

theorem isSome_mono {fuel more address : Nat} (le : fuel ≤ more)
    (ends : ((loadTable fuel address).value (answers memory)).isSome) :
    ((loadTable more address).value (answers memory)).isSome := by
  obtain ⟨result, found⟩ := Option.isSome_iff_exists.mp ends
  rw [loadTable_extends le address result found]
  rfl

/-- A listed table is loaded with less fuel. -/
theorem Lists.isSome {fuel address : Nat} (lists : Lists memory table address)
    (ends : ((loadTable (fuel + 1) table).value (answers memory)).isSome) :
    ((loadTable fuel address).value (answers memory)).isSome := by
  rw [value_loadTable lists.1, Option.isSome_map] at ends
  exact (create_rsdt_isSome lists.1).mp ends address lists

theorem isSome_of_transGen {address : Nat}
    (path : TransGen (Lists memory) table address) {fuel : Nat}
    (ends : ((loadTable fuel table).value (answers memory)).isSome) :
    ∃ less < fuel, ((loadTable less address).value (answers memory)).isSome := by
  induction path using TransGen.head_induction_on generalizing fuel with
  | single lists =>
      cases fuel with
      | zero => exact absurd ends (by simp [loadTable])
      | succ fuel => exact ⟨fuel, Nat.lt_succ_self fuel, lists.isSome ends⟩
  | head lists _ ih =>
      cases fuel with
      | zero => exact absurd ends (by simp [loadTable])
      | succ fuel =>
          obtain ⟨less, below, ends⟩ := ih (lists.isSome ends)
          exact ⟨less, below.trans (Nat.lt_succ_self fuel), ends⟩

theorem not_terminates_of_cycle (cycle : TransGen (Lists memory) table table) :
    ¬Terminates memory table := by
  rw [terminates_iff]
  rintro ⟨fuel, ends⟩
  induction fuel using Nat.strong_induction_on with
  | _ fuel ih =>
      obtain ⟨less, below, ends⟩ := isSome_of_transGen cycle ends
      exact ih less below ends

theorem Terminates.reach {address : Nat} (ends : Terminates memory table)
    (path : ReflTransGen (Lists memory) table address) : Terminates memory address := by
  rw [terminates_iff] at ends ⊢
  obtain ⟨fuel, ends⟩ := ends
  cases reflTransGen_iff_eq_or_transGen.mp path with
  | inl same => exact ⟨fuel, same ▸ ends⟩
  | inr path =>
      obtain ⟨less, -, ends⟩ := isSome_of_transGen path ends
      exact ⟨less, ends⟩

theorem not_terminates_of_stalls (handled : Handled memory table .madt)
    (stalls : Stalls memory table) :
    ¬Terminates memory table := by
  rw [terminates_iff]
  rintro ⟨fuel, ends⟩
  cases fuel with
  | zero => exact absurd ends (by simp [loadTable])
  | succ fuel =>
      rw [value_loadTable handled, Option.isSome_map, create_madt_isSome] at ends
      exact stalls.not_isSome fuel ends

/-- A table is loaded when those it lists are. -/
theorem Terminates.step (listed : ∀ address, Lists memory table address → Terminates memory address)
    (walks : Handled memory table .madt → ¬Stalls memory table) : Terminates memory table := by
  rw [terminates_iff]
  by_cases rejected : ∀ type, ¬Handled memory table type
  · refine ⟨1, ?_⟩
    rw [value_loadTable_rejected rejected]
    rfl
  · obtain ⟨type, handled⟩ := not_forall_not.mp rejected
    cases type with
    | rsdt =>
        simp only [terminates_iff] at listed
        choose fuel ends using listed
        have finite : Finite {address // Lists memory table address} :=
          Set.Finite.subset (Set.finite_lt_nat (2 ^ 64)) fun address lists => Lists.lt lists
        obtain ⟨bound, below⟩ :=
          Finite.exists_le fun address : {address // Lists memory table address} =>
          fuel address.1 address.2
        refine ⟨bound + 1, ?_⟩
        rw [value_loadTable handled, Option.isSome_map, create_rsdt_isSome handled]
        exact fun address lists => isSome_mono (below ⟨address, lists⟩) (ends address lists)
    | madt =>
        refine ⟨declared memory table + 1 + 1, ?_⟩
        rw [value_loadTable handled, Option.isSome_map, create_madt_isSome]
        exact madtLoop_ends (walks handled) .first madtStart_counted (Nat.le_add_left _ _)
    | hpet =>
        refine ⟨1, ?_⟩
        rw [value_loadTable handled, Option.isSome_map]
        exact create_hpet_isSome
    | mcfg =>
        refine ⟨1, ?_⟩
        rw [value_loadTable handled, Option.isSome_map]
        exact create_mcfg_isSome

theorem Loadable.terminates (loadable : Loadable memory table) : Terminates memory table := by
  have finite : Finite {address | address < 2 ^ 64} := Set.finite_lt_nat (2 ^ 64)
  have closed : ∀ a b, Lists memory a b → b ∈ {address | address < 2 ^ 64} :=
    fun _ _ lists => lists.lt
  have ends : Acc (flip (Lists memory)) table := acc_of_no_cycle closed loadable.acyclic
  have walks := loadable.walks
  clear loadable
  induction ends with
  | intro table _ ih =>
      exact .step (fun address lists => ih address lists fun other path =>
        walks other (.head lists path)) (walks table .refl)

/-- Loading ends exactly when no list of tables leads back to itself and no MADT has an
    entry of length zero. -/
theorem terminates_iff_loadable {address : Nat} :
    Terminates memory address ↔ Loadable memory address := by
  constructor
  · intro ends
    exact ⟨fun table path cycle => not_terminates_of_cycle cycle (ends.reach path),
      fun table path handled stalls => not_terminates_of_stalls handled stalls (ends.reach path)⟩
  · exact Loadable.terminates

/-- A RSDT that lists itself. -/
def selfListed : Nat → UInt8 :=
  memoryAt 0x1000 (sealed [0x52, 0x53, 0x44, 0x54] (littleEndian 0x1000 4))

/-- A MADT whose only entry has length zero. -/
def emptyEntry : Nat → UInt8 :=
  memoryAt 0x1000 (sealed [0x41, 0x50, 0x49, 0x43] (List.replicate 10 0))

/-- Both pass every check. -/
theorem notEveryImage_loaded : ¬Terminates selfListed 0x1000 ∧ ¬Terminates emptyEntry 0x1000 := by
  have listing : Handled selfListed 0x1000 .rsdt :=
    ⟨by decide +kernel, by decide +kernel, by decide +kernel⟩
  have lists : Lists selfListed 0x1000 0x1000 := ⟨listing, 0, by decide +kernel, by decide +kernel⟩
  have walking : Handled emptyEntry 0x1000 .madt :=
    ⟨by decide +kernel, by decide +kernel, by decide +kernel⟩
  have stalls : Stalls emptyEntry 0x1000 :=
    ⟨madtSize, [], .first, by decide +kernel, by decide +kernel⟩
  exact ⟨not_terminates_of_cycle (.single lists), not_terminates_of_stalls walking stalls⟩

end Mykonos.Acpi
