import Mykonos.Paging.Tables

/-! # The kernel heap

`kmalloc.cpp`: ranges of virtual pages taken from `virtualMemory`, backed by
frames of `physicalMemory` or by a given physical range. Pointers and sizes are
64-bit values and every sum or difference of the source wraps.
-/

namespace Mykonos.Heap

open Memory Paging

/-! ## Addresses -/

/-- `PAGE_ALIGN_UP`. -/
def pageAlignUp (x : Nat) : Nat := (x + 4095) % 2 ^ 64 / 4096 * 4096

/-- `PAGE_ALIGN_DOWN`. -/
def pageAlignDown (x : Nat) : Nat := x / 4096 * 4096

/-- `ADD_TO_POINTER`. -/
def addToPointer (ptr amount : Nat) : Nat := (ptr + amount) % 2 ^ 64

/-- `sizeof(KmallocHeader)`. -/
abbrev headerSize : Nat := 8

/-- `for (size_t i = 0; i < size; i += PAGE_SIZE)` from a given `i`, by the number
    of pages left. Every size the source loops over is a multiple of the page
    size, so `i` meets it without wrapping. -/
def forPages (body : Nat → Kernel Unit) : Nat → Nat → Kernel Unit
  | 0, _ => pure ()
  | pages + 1, i => do
      body i
      forPages body pages (i + pageSize)

/-! ## The two pools -/

/-- `virtualMemory.allocate`. -/
def virtualAllocate (size : Nat) : Kernel Nat := fun s =>
  .ok (s.virtualMemory.allocate size).1
    { s with virtualMemory := (s.virtualMemory.allocate size).2 }

/-- `virtualMemory.returnMemory`. -/
def virtualReturn (address size : Nat) : Kernel Unit := fun s =>
  .ok () { s with virtualMemory := s.virtualMemory.returnMemory address size }

/-- `memory::allocateFrame` on the pool of the machine. -/
def takeFrame : Kernel Nat := fun s =>
  .ok (allocateFrame s.physicalMemory).1
    { s with physicalMemory := (allocateFrame s.physicalMemory).2 }

/-! ## The functions of `kmalloc.cpp` -/

/-- The body of the loop of `allocateMemory`. -/
def allocateMemoryBody (ptr i : Nat) : Kernel Unit := do
  let frame ← takeFrame
  if frame ≠ 0 then
    mapPage (addToPointer ptr i) (frame * pageSize % 2 ^ 64) PageTableFlags.writable true true
  else
    kpanic "Out of memory"

/-- Null when no virtual range is large enough; running out of frames panics. -/
def allocateMemory (size : Nat) : Kernel Nat := do
  let size := pageAlignUp ((size + headerSize) % 2 ^ 64)
  let ptr ← virtualAllocate size
  if ptr = 0 then
    return 0
  else
    forPages (allocateMemoryBody ptr) (size / pageSize) 0
    return ptr

/-- The header in front of the returned pointer holds the requested size. -/
def kmalloc (size : Nat) : Kernel Nat := do
  let ptr ← allocateMemory size
  if ptr = 0 then
    return 0
  else
    store ptr size
    return addToPointer ptr headerSize

/-- The body of the loop of `unmapMemory`. -/
def unmapMemoryBody (address i : Nat) : Kernel Unit := unmapPage (addToPointer address i)

/-- The invalidations that `unmapMemory` runs on the other processors change
    nothing on this machine. -/
def unmapMemory (address size : Nat) : Kernel Unit := do
  if address ≠ 0 then
    let endAddress := pageAlignUp ((address + size) % 2 ^ 64)
    let address := pageAlignDown address
    let size := (endAddress + 2 ^ 64 - address) % 2 ^ 64
    forPages (unmapMemoryBody address) (size / pageSize) 0
    virtualReturn address size
  else
    kpanic "Attempt to unmap null"

def freeMemory (ptr size : Nat) : Kernel Unit := unmapMemory ptr size

def kfree (ptr : Nat) : Kernel Unit := do
  if ptr = 0 then
    kpanic "Attempt to free null"
  else
    let headerPtr := (ptr + 2 ^ 64 - headerSize) % 2 ^ 64
    let size ← load headerPtr
    unmapMemory headerPtr size

/-- The body of the loop of `mapAddress`. -/
def mapAddressBody (ptr physicalAddress : Nat) (cacheable : Bool) (i : Nat) : Kernel Unit :=
  mapPage (addToPointer ptr i) (addToPointer physicalAddress i) PageTableFlags.writable
    false cacheable

def mapAddress (physicalAddress size : Nat) (cacheable : Bool) : Kernel Nat := do
  let pageOffset := physicalAddress % pageSize
  let physicalEnd := pageAlignUp ((physicalAddress + size) % 2 ^ 64)
  let physicalAddress := pageAlignDown physicalAddress
  let size := (physicalEnd + 2 ^ 64 - physicalAddress) % 2 ^ 64
  let ptr ← virtualAllocate size
  if ptr = 0 then
    return 0
  else
    forPages (mapAddressBody ptr physicalAddress cacheable) (size / pageSize) 0
    return addToPointer ptr pageOffset

/-! ## The stacks of `stacks.h` -/

/-- `DEFAULT_STACK_SIZE`. -/
abbrev defaultStackSize : Nat := 16384

/-- A failed allocation is not noticed. -/
def allocateStack : Kernel Nat := do
  let memory ← allocateMemory defaultStackSize
  return addToPointer memory defaultStackSize

def freeStack (stackPointer : Nat) : Kernel Unit :=
  freeMemory ((stackPointer + 2 ^ 64 - defaultStackSize) % 2 ^ 64) defaultStackSize

end Mykonos.Heap
