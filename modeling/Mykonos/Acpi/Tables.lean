import Mykonos.Apic.IoApic
import Mykonos.Lib.Bytes
import Mykonos.Lib.Program

/-! # ACPI tables

`acpi/tables.cpp` and the managers it builds. Loading a table is a program: it asks the
kernel for mappings and objects, reads bytes behind the pointers it got and fills the
arrays of the managers. What the calls are answered is left to whoever follows the
program.
-/

namespace Mykonos.Acpi

open Apic Lib

/-! ## Calls -/

inductive TableType where
  | rsdt
  | madt
  | hpet
  | mcfg
  deriving Repr, DecidableEq

/-- The arrays that managers fill. -/
inductive TableArray where
  | localApics
  | ioApics
  | gsiOverrides
  | mcfgEntries
  | children (numChildren : Nat)
  deriving Repr, DecidableEq

/-- `MAX_GSI_OVERRIDES`. -/
abbrev maxGsiOverrides : Nat := 16

/-- `MAX_MCFG_ENTRIES`. -/
abbrev maxMcfgEntries : Nat := 16

def TableArray.size : TableArray → Nat
  | localApics => maxLocalApics
  | ioApics => maxIoApics
  | gsiOverrides => maxGsiOverrides
  | mcfgEntries => maxMcfgEntries
  | children numChildren => numChildren

/-- `read` is one byte behind the header of a table, `assign` a write to an array of
    the manager built from that table. -/
inductive Call where
  | mapAddress (physicalAddress size : Nat) (cacheable : Bool)
  | unmapMemory (ptr size : Nat)
  | newManager (type : TableType)
  | newChildren (numChildren : Nat)
  | read (header offset : Nat)
  | assign (header : Nat) (array : TableArray) (index : Nat)
  deriving Repr, DecidableEq

abbrev Loading := Program Call

def mapAddress (physicalAddress size : Nat) (cacheable : Bool) : Loading Nat :=
  .perform (.mapAddress physicalAddress size cacheable)

def unmapMemory (ptr size : Nat) : Loading Nat := .perform (.unmapMemory ptr size)

def assign (header : Nat) (array : TableArray) (index : Nat) : Loading Nat :=
  .perform (.assign header array index)

/-- So many bytes behind the header, as a number. -/
def read (header offset : Nat) : Nat → Loading Nat
  | 0 => pure 0
  | count + 1 => do
      let low ← Program.perform (.read header offset)
      let high ← read header (offset + 1) count
      return low + 256 * high

/-! ## The header -/

/-- `sizeof(TableHeader)`. -/
abbrev headerSize : Nat := 36

def length (header : Nat) : Loading Nat := read header 4 4

def checksumLoop (header : Nat) : Nat → Nat → Nat → Loading Nat
  | 0, _, sum => pure sum
  | count + 1, i, sum => do
      let byte ← read header i 1
      checksumLoop header count (i + 1) ((sum + byte) % 256)

def doChecksum (header : Nat) : Loading Bool := do
  let sum ← checksumLoop header (← length header) 0 0
  return sum = 0

/-! ## The managers -/

structure MadtGsiOverride where
  levelTriggered : Bool
  activeHigh : Bool
  source : Nat
  destination : Nat
  deriving Repr, DecidableEq

/-- The counts of the source are the lengths of the lists. -/
structure MadtTableManager where
  hasPic : Bool
  localApicAddress : Nat
  localApics : List LocalApicDescriptor := []
  ioApics : List IoApicDescriptor := []
  gsiOverrides : List MadtGsiOverride := []
  deriving Repr, DecidableEq

/-- The registers stay unset when they are not in memory. -/
structure HpetTableManager where
  numComparators : Nat := 0
  registers : Option (Nat × Bool) := none
  deriving Repr, DecidableEq

structure McfgEntry where
  address : Nat
  segmentGroup : Nat
  firstBusNumber : Nat
  lastBusNumber : Nat
  deriving Repr, DecidableEq

/-- Each manager with the address of the object, and the one for a list of tables with
    that of the array of its children. -/
inductive TableManager where
  | rsdt (this array : Nat) (children : List (Option TableManager))
  | madt (this : Nat) (manager : MadtTableManager)
  | hpet (this : Nat) (manager : HpetTableManager)
  | mcfg (this : Nat) (entries : List McfgEntry)

/-! ## `MadtTableManager` -/

/-- `MADT_TYPE_LOCAL_APIC`, where only the enabled ones count. -/
def madtLocalApic (header entry : Nat) (m : MadtTableManager) : Loading MadtTableManager := do
  if (← read header (entry + 4) 4) &&& 1 ≠ 0 ∧ m.localApics.length < maxLocalApics then
    let _ ← assign header .localApics m.localApics.length
    let apicId ← read header (entry + 3) 1
    return { m with localApics := m.localApics ++ [⟨apicId⟩] }
  else return m

/-- `MADT_TYPE_IO_APIC`. -/
def madtIoApic (header entry : Nat) (m : MadtTableManager) : Loading MadtTableManager := do
  if m.ioApics.length < maxIoApics then
    let _ ← assign header .ioApics m.ioApics.length
    let gsiBase ← read header (entry + 8) 4
    let physicalAddress ← read header (entry + 4) 4
    return { m with ioApics := m.ioApics ++ [⟨physicalAddress, gsiBase⟩] }
  else return m

/-- `MADT_TYPE_GSI_OVERRIDE`. -/
def madtGsiOverride (header entry : Nat) (m : MadtTableManager) : Loading MadtTableManager := do
  if m.gsiOverrides.length < maxGsiOverrides then
    let _ ← assign header .gsiOverrides m.gsiOverrides.length
    let flags ← read header (entry + 8) 2
    let source ← read header (entry + 3) 1
    let destination ← read header (entry + 4) 4
    return { m with
      gsiOverrides := m.gsiOverrides ++ [⟨flags &&& 8 ≠ 0, flags &&& 2 = 0, source, destination⟩] }
  else return m

/-- The body of the walk, at an entry. -/
def madtEntry (header entry : Nat) (m : MadtTableManager) : Loading MadtTableManager := do
  let type ← read header entry 1
  if type = 0 then madtLocalApic header entry m
  else if type = 1 then madtIoApic header entry m
  else if type = 2 then madtGsiOverride header entry m
  else return m

/-- The walk over the entries. Every entry tells how far away the next one is. -/
def madtLoop (header tableLength : Nat) : Nat → Nat → MadtTableManager → Loading MadtTableManager
  | 0, _, _ => .later
  | fuel + 1, entry, m => do
      if entry < tableLength then
        let m ← madtEntry header entry m
        let entryLength ← read header (entry + 1) 1
        madtLoop header tableLength fuel (entry + entryLength) m
      else return m

/-- `sizeof(MadtTable)`. -/
abbrev madtSize : Nat := 44

def madtTableManager (fuel header : Nat) : Loading MadtTableManager := do
  let localApicAddress ← read header 36 4
  let flags ← read header 40 4
  let m ← madtLoop header (← length header) fuel madtSize
    { hasPic := flags &&& 1 ≠ 0, localApicAddress := localApicAddress }
  let _ ← unmapMemory header (← length header)
  return m

/-! ## `HpetTableManager` -/

def hpetTableManager (header : Nat) : Loading HpetTableManager := do
  let m ←
    if (← read header 40 1) ≠ 0 then pure {}
    else do
      let bits ← read header 37 1
      let address ← read header 44 8
      pure { numComparators := bits % 32 + 1, registers := some (address, bits / 128 % 2 = 1) }
  let _ ← unmapMemory header (← length header)
  return m

/-! ## `McfgTableManager` -/

/-- The size of a window, an `int` widened to `size_t`. -/
def windowSize (firstBusNumber lastBusNumber : Nat) : Nat :=
  ((lastBusNumber + 1) * 1048576 + 2 ^ 64 - firstBusNumber * 1048576) % 2 ^ 64

def mcfgLoop (header : Nat) : Nat → Nat → Loading (List McfgEntry)
  | 0, _ => pure []
  | count + 1, i => do
      let entry := 44 + i * 16
      let address ← read header entry 8
      let lastBusNumber ← read header (entry + 11) 1
      let firstBusNumber ← read header (entry + 10) 1
      let mappedAddress ← mapAddress address (windowSize firstBusNumber lastBusNumber) false
      let segmentGroup ← read header (entry + 8) 2
      let _ ← assign header .mcfgEntries i
      let rest ← mcfgLoop header count (i + 1)
      return ⟨mappedAddress, segmentGroup, firstBusNumber, lastBusNumber⟩ :: rest

/-- The number of entries, in the 32 bits of the length. -/
def mcfgNumEntries (tableLength : Nat) : Nat := (tableLength + 2 ^ 32 - 44) % 2 ^ 32 / 16

def mcfgTableManager (header : Nat) : Loading (List McfgEntry) := do
  let entries ← mcfgLoop header (mcfgNumEntries (← length header)) 0
  let _ ← unmapMemory header (← length header)
  return entries

/-! ## `RsdtTableManager` -/

section Loads

variable (load : Nat → Loading (Option TableManager))

/-- The loop over the listed tables, from the child `i` on. -/
def loadChildren (header entrySize numChildren : Nat) :
    Nat → Nat → Loading (List (Option TableManager))
  | 0, _ => pure []
  | count + 1, i => do
      let entryValue ← read header (headerSize + i * entrySize) entrySize
      let child ← load entryValue
      let _ ← assign header (.children numChildren) i
      let rest ← loadChildren header entrySize numChildren count (i + 1)
      return child :: rest

/-- The number of listed tables, in 64 bits. -/
def rsdtNumChildren (tableLength entrySize : Nat) : Nat :=
  (tableLength + 2 ^ 64 - headerSize) % 2 ^ 64 / entrySize

/-- The array of children and what is in it. -/
def rsdtTableManager (header : Nat) : Loading (Nat × List (Option TableManager)) := do
  let entrySize := if (← read header 0 1) = 0x58 then 8 else 4
  let numChildren := rsdtNumChildren (← length header) entrySize
  let array ← Program.perform (.newChildren numChildren)
  let children ← loadChildren load header entrySize numChildren numChildren 0
  let _ ← unmapMemory header (← length header)
  return (array, children)

/-! ## `loadTable` -/

/-- The signatures RSDT, XSDT, APIC, HPET and MCFG with the managers for them. -/
def tableHandlers : List (List Nat × TableType) :=
  [([0x52, 0x53, 0x44, 0x54], .rsdt), ([0x58, 0x53, 0x44, 0x54], .rsdt),
    ([0x41, 0x50, 0x49, 0x43], .madt), ([0x48, 0x50, 0x45, 0x54], .hpet),
    ([0x4d, 0x43, 0x46, 0x47], .mcfg)]

/-- The first handler with the signature, which is compared in four bytes. -/
def findHandler (signature : List Nat) : Option TableType :=
  (tableHandlers.find? (·.1 = signature)).map Prod.snd

/-- The creators: an object is made and its constructor run. -/
def create (fuel header : Nat) (type : TableType) : Loading TableManager := do
  let this ← Program.perform (.newManager type)
  match type with
  | .rsdt =>
      let (array, children) ← rsdtTableManager load header
      return .rsdt this array children
  | .madt => return .madt this (← madtTableManager fuel header)
  | .hpet => return .hpet this (← hpetTableManager header)
  | .mcfg => return .mcfg this (← mcfgTableManager header)

end Loads

def readSignature (header : Nat) : Loading (List Nat) := do
  return [← read header 0 1, ← read header 1 1, ← read header 2 1, ← read header 3 1]

/-- `none` is null. The first mapping is of the header alone, and is kept when the
    table is too small. -/
def loadTable : Nat → Nat → Loading (Option TableManager)
  | 0, _ => .later
  | fuel + 1, physicalAddress => do
      let header ← mapAddress physicalAddress headerSize true
      let tableSize ← length header
      if tableSize < headerSize then return none
      else
        let _ ← unmapMemory header headerSize
        let header ← mapAddress physicalAddress tableSize true
        if ← doChecksum header then
          match findHandler (← readSignature header) with
          | some type => return some (← create (loadTable fuel) fuel header type)
          | none =>
              let _ ← unmapMemory header tableSize
              return none
        else
          let _ ← unmapMemory header (← length header)
          return none

end Mykonos.Acpi
