import Mykonos.Paging.Machine

/-! # Editing the page tables

The kernel reaches its own tables through the last slot of the top-level table,
which leads back to that table. The table reached by a path of slots is the page
whose walk takes the last slot as often as needed and then the path.
-/

namespace Mykonos.Paging

open Memory

/-! ## The recursive window -/

/-- `PAGE_TABLE_POINTER`. -/
def pageTablePointer : Nat := 0xFFFFFF8000000000

/-- The address of `(*PAGE_TABLE_POINTER)[a][b][c][d]`. -/
def windowAddress (a b c d : Nat) : Nat :=
  pageTablePointer + (((a * 512 + b) * 512 + c) * 512 + d) * 8

/-- `PML4ENTRY`. -/
def pml4Entry (pml4Index : Nat) : Nat := windowAddress 511 511 511 pml4Index

/-- `PML3TABLE`. -/
def pml3Table (pml4Index : Nat) : Nat := windowAddress 511 511 pml4Index 0

/-- `PML3ENTRY`. -/
def pml3Entry (pml4Index pml3Index : Nat) : Nat := windowAddress 511 511 pml4Index pml3Index

/-- `PML2TABLE`. -/
def pml2Table (pml4Index pml3Index : Nat) : Nat := windowAddress 511 pml4Index pml3Index 0

/-- `PML2ENTRY`. -/
def pml2Entry (pml4Index pml3Index pml2Index : Nat) : Nat :=
  windowAddress 511 pml4Index pml3Index pml2Index

/-- `PML1TABLE`. -/
def pml1Table (pml4Index pml3Index pml2Index : Nat) : Nat :=
  windowAddress pml4Index pml3Index pml2Index 0

/-- `PML1ENTRY`. -/
def pml1Entry (pml4Index pml3Index pml2Index pml1Index : Nat) : Nat :=
  windowAddress pml4Index pml3Index pml2Index pml1Index

/-! ## The functions of `paging.cpp` -/

/-- The entry `allocatePageTable` builds for a frame. -/
def tableEntry (frame : Nat) : Nat :=
  open PageTableFlags in
  combine (combine (combine (combine ((frame <<< 12) % 2 ^ 64) present) writable) allocated) user

/-- The frame is not checked: a failed allocation makes an entry for frame zero. -/
def allocatePageTable : Kernel Nat := fun s =>
  .ok (tableEntry (allocateFrame s.physicalMemory).1)
    { s with
      physicalMemory := (allocateFrame s.physicalMemory).2
      tableFrames := (allocateFrame s.physicalMemory).1 :: s.tableFrames }

/-- One level of `getPageTableEntry`: make sure the entry at one address is
    present, its table being mapped at the other. -/
def provideTable (entry table : Nat) (allocatePageTables : Bool) : Kernel Bool := do
  if (← load entry) &&& PageTableFlags.present = 0 then
    if allocatePageTables then
      store entry (← allocatePageTable)
      clearPage table
      return true
    else
      return false
  else
    return true

/-- The four indices of an address, taken from its low 48 bits. -/
def pageIndices (virtualAddress : Nat) : Nat × Nat × Nat × Nat :=
  let address := (virtualAddress &&& ((1 <<< 48) - 1)) >>> 12
  let pml1Index := address &&& 511
  let address := address >>> 9
  let pml2Index := address &&& 511
  let address := address >>> 9
  let pml3Index := address &&& 511
  let address := address >>> 9
  let pml4Index := address &&& 511
  (pml4Index, pml3Index, pml2Index, pml1Index)

/-- The address of the leaf entry, `none` where the source returns null. -/
def getPageTableEntry (virtualAddress : Nat) (allocatePageTables : Bool) : Kernel (Option Nat) := do
  let (pml4Index, pml3Index, pml2Index, pml1Index) := pageIndices virtualAddress
  if ← provideTable (pml4Entry pml4Index) (pml3Table pml4Index) allocatePageTables then
    if ← provideTable (pml3Entry pml4Index pml3Index) (pml2Table pml4Index pml3Index)
      allocatePageTables then
      if ← provideTable (pml2Entry pml4Index pml3Index pml2Index)
          (pml1Table pml4Index pml3Index pml2Index) allocatePageTables then
        return some (pml1Entry pml4Index pml3Index pml2Index pml1Index)
      else return none
    else return none
  else return none

/-- The entry `mapPage` writes. -/
def leafEntry (physicalAddress flags : Nat) (allocated cacheable : Bool) : Nat :=
  let flags := PageTableFlags.combine flags PageTableFlags.present
  let flags := if allocated then PageTableFlags.combine flags PageTableFlags.allocated else flags
  let flags := if cacheable then flags else PageTableFlags.combine flags PageTableFlags.uncacheable
  flags ||| (physicalAddress &&& (2 ^ 64 - 1 - 4095))

def mapPage (virtualAddress physicalAddress flags : Nat) (allocated cacheable : Bool) :
    Kernel Unit := do
  match ← getPageTableEntry virtualAddress true with
  | some entry => store entry (leafEntry physicalAddress flags allocated cacheable)
  | none => throw (.pageFault 0)

/-- The frame goes back to the pool before the entry is cleared. The translation
    caches are not part of this machine. -/
def unmapPage (virtualAddress : Nat) : Kernel Unit := do
  match ← getPageTableEntry virtualAddress false with
  | some entry =>
      let value ← load entry
      if isAllocated value then
        modify fun s => { s with physicalMemory := returnFrame s.physicalMemory (entryFrame value) }
      store entry 0
  | none => return ()

end Mykonos.Paging
