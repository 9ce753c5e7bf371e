import Mykonos.Lib.Radix
import Mykonos.Memory.Frames

/-! # Memory as the kernel sees it

Physical memory is a store of frames of 512 words. Every access of the kernel
goes through a virtual address, which the processor translates by the four-level
walk from `cr3`. Frames are named the way the kernel names them, by the 52 bits
above the page offset of an entry.
-/

namespace Mykonos.Paging

open Lib Memory

/-! ## Entries -/

namespace PageTableFlags

/-- `PRESENT`. -/
def present : Nat := 1 <<< 0

/-- `WRITABLE`. -/
def writable : Nat := 1 <<< 1

/-- `USER`. -/
def user : Nat := 1 <<< 2

/-- `UNCACHEABLE`. -/
def uncacheable : Nat := 1 <<< 4

/-- `ALLOCATED`, one of the bits the processor leaves to the kernel. -/
def allocated : Nat := 1 <<< 11

/-- `operator|` on flags, which adds. -/
def combine (a b : Nat) : Nat := (a + b) % 2 ^ 64

end PageTableFlags

/-- The frame an entry names, as `unmapPage` decodes it. -/
def entryFrame (entry : Nat) : Nat := (entry >>> 12) &&& (2 ^ 52 - 1)

def isPresent (entry : Nat) : Bool := entry &&& PageTableFlags.present != 0

def isAllocated (entry : Nat) : Bool := entry &&& PageTableFlags.allocated != 0

/-- The table or page a walk continues in. -/
def child (entry : Nat) : Option Nat := if isPresent entry then some (entryFrame entry) else none

/-! ## The machine -/

structure Machine where
  /-- The words of each frame. -/
  memory : Nat → Nat → Nat
  /-- The frame of the top-level table. -/
  cr3 : Nat
  physicalMemory : BlockMap
  virtualMemory : BlockMap
  /-- Every frame `allocatePageTable` has been given, newest first. No code reads
      it. -/
  tableFrames : List Nat := []

/-- What stops the kernel. -/
inductive Fault where
  | pageFault (address : Nat)
  | kpanic (message : String)
  deriving Repr, DecidableEq

abbrev Kernel := EStateM Fault Machine

/-- The machine a computation leaves behind, whether it returned or stopped. -/
def Kernel.after {α : Type} (x : Kernel α) (s : Machine) : Machine :=
  match x s with
  | .ok _ t => t
  | .error _ t => t

/-- What a computation returns, if it does. -/
def Kernel.value {α : Type} (x : Kernel α) (s : Machine) : Option α :=
  match x s with
  | .ok a _ => some a
  | .error _ _ => none

/-- The slots a walk passes, from the top-level table down. -/
def walkPath (address : Nat) : List Nat :=
  [address / 2 ^ 39 % 512, address / 2 ^ 30 % 512, address / 2 ^ 21 % 512, address / 2 ^ 12 % 512]

namespace Machine

/-- The table or page a path of slots leads to. -/
def tableAt (s : Machine) (path : List Nat) : Option Nat := descend child s.memory s.cr3 path

/-- The frame of a virtual address. -/
def translate (s : Machine) (address : Nat) : Option Nat := s.tableAt (walkPath address)

/-- Write one word of a frame. -/
def write (s : Machine) (frame word value : Nat) : Machine :=
  { s with memory := Function.update s.memory frame (Function.update (s.memory frame) word value) }

/-- Set every word of a frame to zero. -/
def clear (s : Machine) (frame : Nat) : Machine :=
  { s with memory := Function.update s.memory frame fun _ => 0 }

end Machine

/-- Read the word at a virtual address. -/
def load (address : Nat) : Kernel Nat := fun s =>
  match s.translate address with
  | some frame => .ok (s.memory frame (address % 4096 / 8)) s
  | none => .error (.pageFault address) s

/-- Write the word at a virtual address. -/
def store (address value : Nat) : Kernel Unit := fun s =>
  match s.translate address with
  | some frame => .ok () (s.write frame (address % 4096 / 8) value)
  | none => .error (.pageFault address) s

/-- `memset(address, 0, 4096)` for the address of a page. -/
def clearPage (address : Nat) : Kernel Unit := fun s =>
  match s.translate address with
  | some frame => .ok () (s.clear frame)
  | none => .error (.pageFault address) s

/-- `kpanic`. -/
def kpanic {α : Type} (message : String) : Kernel α := fun s => .error (.kpanic message) s

end Mykonos.Paging
