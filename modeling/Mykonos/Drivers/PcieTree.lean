import Mykonos.Acpi.Bounds
import Mykonos.Heap.Mapping

/-! # Scanning for PCIe devices

`pcieTree.cpp`: every function of every device of every bus has a header in the
configuration window of its MCFG entry. The manager of the table maps the windows and
the scan computes where in them the headers are. The registers are read by calls, as the
scan depends on what they hold.
-/

namespace Mykonos.Drivers

open Acpi Lib

/-! ## The scan -/

/-- `read` is a register of a header, `get` the driver that is made for a header and
    appended to the tree. -/
inductive ConfigCall where
  | read (header offset size : Nat)
  | get (header : Nat)
  deriving Repr, DecidableEq

/-- The header that is accessed. -/
def ConfigCall.header : ConfigCall → Nat
  | read header _ _ => header
  | get header => header

abbrev Scanning := Program ConfigCall

def mmioRead (header offset size : Nat) : Scanning Nat := do
  return (← Program.perform (.read header offset size)) % 256 ^ size

def getVendorId (header : Nat) : Scanning Nat := mmioRead header 0 2

def getDeviceId (header : Nat) : Scanning Nat := mmioRead header 2 2

def getRegisterInterface (header : Nat) : Scanning Nat := mmioRead header 9 1

def getSubclass (header : Nat) : Scanning Nat := mmioRead header 10 1

def getClass (header : Nat) : Scanning Nat := mmioRead header 11 1

def getHeaderType (header : Nat) : Scanning Nat := mmioRead header 14 1

/-- The identifiers count unless the vendor is 0xffff, and else the classes. -/
structure PcieDriver where
  vendorId : Nat
  deviceId : Nat
  classId : Nat
  subclass : Nat
  registerInterface : Nat
  deriving Repr, DecidableEq

def pcieDrivers : List PcieDriver := [⟨0xffff, 0xffff, 0x0c, 0x03, 0x30⟩]

def PcieDriver.matched (driver : PcieDriver) (header : Nat) : Scanning Bool := do
  if driver.vendorId ≠ 0xffff then
    if driver.vendorId = (← getVendorId header) then return driver.deviceId = (← getDeviceId header)
    else return false
  else if driver.classId = (← getClass header) then
    if driver.subclass = (← getSubclass header) then
      if driver.registerInterface = 0xff then return true
      else return driver.registerInterface = (← getRegisterInterface header)
    else return false
  else return false

/-- The first driver that matches gets the device. -/
def loadDriver (header : Nat) : List PcieDriver → Scanning Bool
  | [] => return false
  | driver :: drivers => do
      if ← driver.matched header then
        let _ ← Program.perform (.get header)
        return true
      else loadDriver header drivers

/-- `PCIE_DEVICE`. -/
def pcieDevice (base bus device function : Nat) : Nat :=
  (base + bus <<< 20 + device <<< 15 + function <<< 12) % 2 ^ 64

/-- A function that is there is printed and offered to the drivers. -/
def scanFunction (header headerType unknownDeviceCount : Nat) : Scanning Nat := do
  if headerType &&& 0x7f = 0 then
    if (← getVendorId header) ≠ 0xffff then
      let _ ← getVendorId header
      let _ ← getDeviceId header
      let _ ← getClass header
      let _ ← getSubclass header
      if ← loadDriver header pcieDrivers then return unknownDeviceCount
      else return (unknownDeviceCount + 1) % 2 ^ 32
    else return unknownDeviceCount
  else return unknownDeviceCount

/-- The loop over the functions of a device, which ends with the first one when the
    device has no others. -/
def scanFunctions (base bus device : Nat) : Nat → Nat → Nat → Scanning Nat
  | 0, _, unknownDeviceCount => return unknownDeviceCount
  | count + 1, function, unknownDeviceCount => do
      let header := pcieDevice base bus device function
      let headerType ← getHeaderType header
      let unknownDeviceCount ← scanFunction header headerType unknownDeviceCount
      if function = 0 ∧ headerType &&& 0x80 = 0 then return unknownDeviceCount
      else scanFunctions base bus device count (function + 1) unknownDeviceCount

def scanDevices (base bus : Nat) : Nat → Scanning Nat :=
  Program.loop (fun device => scanFunctions base bus device 8 0) 32 0

def scanEntry (mcfgEntry : McfgEntry) : Nat → Scanning Nat :=
  Program.loop (scanDevices mcfgEntry.address)
    (mcfgEntry.lastBusNumber + 1 - mcfgEntry.firstBusNumber)
    mcfgEntry.firstBusNumber

/-- `getEntry` of the manager. -/
def getEntry (entries : List McfgEntry) (index : Nat) : McfgEntry := entries.getD index ⟨0, 0, 0, 0⟩

/-- `PcieDeviceTree::load`. -/
def load (entries : List McfgEntry) : Scanning Nat :=
  Program.loop (fun i => scanEntry (getEntry entries i)) entries.length 0 0

/-! ## Windows -/

/-- `sizeof(PcieDeviceHeader)`. -/
abbrev pcieHeaderSize : Nat := 40

/-- The header lies in the window. A null pointer stands for no window, as the mapping
    has failed. -/
def InWindow (pointer size header : Nat) : Prop :=
  pointer ≠ 0 ∧ pointer ≤ header ∧ header + pcieHeaderSize ≤ pointer + size

instance (pointer size header : Nat) : Decidable (InWindow pointer size header) :=
  inferInstanceAs (Decidable (_ ∧ _))

/-- Scanning the entry stays in the window, and no two functions share a header. -/
structure ScansInside (mcfgEntry : McfgEntry) (pointer size : Nat) : Prop where
  inside : ∀ config unknownDeviceCount,
    (scanEntry mcfgEntry unknownDeviceCount).All config fun c => InWindow pointer size c.header
  apart : ∀ bus device function bus' device' function',
    mcfgEntry.firstBusNumber ≤ bus → bus ≤ mcfgEntry.lastBusNumber → device < 32 → function < 8 →
    mcfgEntry.firstBusNumber ≤ bus' → bus' ≤ mcfgEntry.lastBusNumber → device' < 32 →
    function' < 8 → pcieDevice mcfgEntry.address bus device function =
      pcieDevice mcfgEntry.address bus' device' function' →
    bus = bus' ∧ device = device' ∧ function = function'

/-! ## What the manager maps -/

/-- What the calls are answered when the table stands in memory and mappings are made at
    the pointers. -/
def mappedAt (memory : Nat → UInt8) (pointer : Nat → Nat → Nat) : Call → Nat
  | .mapAddress physicalAddress size _ => pointer physicalAddress size
  | c => answers memory c

/-- An entry as it stands in the table. -/
structure McfgTableEntry where
  address : Nat
  segmentGroup : Nat
  firstBusNumber : Nat
  lastBusNumber : Nat
  deriving Repr, DecidableEq

def tableEntry (memory : Nat → UInt8) (table i : Nat) : McfgTableEntry where
  address := number memory table (44 + i * 16) 8
  segmentGroup := number memory table (44 + i * 16 + 8) 2
  firstBusNumber := number memory table (44 + i * 16 + 10) 1
  lastBusNumber := number memory table (44 + i * 16 + 11) 1

def McfgTableEntry.size (tableEntry : McfgTableEntry) : Nat :=
  windowSize tableEntry.firstBusNumber tableEntry.lastBusNumber

def McfgTableEntry.mapped (tableEntry : McfgTableEntry) (pointer : Nat → Nat → Nat) :
    McfgEntry where
  address := pointer tableEntry.address tableEntry.size
  segmentGroup := tableEntry.segmentGroup
  firstBusNumber := tableEntry.firstBusNumber
  lastBusNumber := tableEntry.lastBusNumber

section Manager

variable {memory : Nat → UInt8} {table : Nat} {pointer : Nat → Nat → Nat}

theorem value_read_mapped {offset count : Nat} :
    (read table offset count).value (mappedAt memory pointer) =
      some (number memory table offset count) := by
  have same : (read table offset count).All (answers memory) fun c => mappedAt memory pointer c =
      answers memory c :=
    all_read.mpr fun i below => rfl
  rw [Program.value_congr same, value_read]

theorem value_mcfgLoop {count i : Nat} :
    (mcfgLoop table count i).value (mappedAt memory pointer) =
      some ((List.range' i count).map fun j => (tableEntry memory table j).mapped pointer) := by
  induction count generalizing i with
  | zero => rfl
  | succ count ih =>
      simp only [mcfgLoop, Program.value_bind, value_read_mapped, Option.bind_some, ih,
        List.range'_succ, List.map_cons, mapAddress, assign, Program.value_perform,
        Program.value_pure]
      rfl

theorem value_mcfgTableManager :
    (mcfgTableManager table).value (mappedAt memory pointer) =
      some ((List.range' 0 (mcfgNumEntries (declared memory table))).map fun j =>
        (tableEntry memory table j).mapped pointer) := by
  have length : (length table).value (mappedAt memory pointer) = some (declared memory table) :=
    value_read_mapped
  rw [mcfgTableManager]
  simp -implicitDefEqProofs only [Program.value_bind, length, value_mcfgLoop,
    Option.bind_some, unmapMemory, Program.value_perform, Program.value_pure]

theorem tableEntry_lastBusNumber_lt (memory : Nat → UInt8) (table i : Nat) :
    (tableEntry memory table i).lastBusNumber < 256 := readLittleEndian_lt _ _ 1

end Manager

/-! ## What the scan touches -/

section Touched

variable {config : ConfigCall → Nat} {P : ConfigCall → Prop} {header : Nat}

@[simp] theorem value_mmioRead (offset size : Nat) :
    (mmioRead header offset size).value config =
      some (config (.read header offset size) % 256 ^ size) := rfl

@[simp] theorem all_mmioRead (offset size : Nat) :
    (mmioRead header offset size).All config P ↔ P (.read header offset size) := by
  simp [mmioRead]

theorem PcieDriver.matched_isSome (driver : PcieDriver) (config : ConfigCall → Nat) (header : Nat) :
    ((driver.matched header).value config).isSome := by
  simp only [PcieDriver.matched, getVendorId, getDeviceId, getClass, getSubclass,
    getRegisterInterface]
  split_ifs <;> simp <;> split_ifs <;> simp <;> split_ifs <;> simp

theorem loadDriver_isSome (drivers : List PcieDriver) (config : ConfigCall → Nat) (header : Nat) :
    ((loadDriver header drivers).value config).isSome := by
  induction drivers with
  | nil => rfl
  | cons driver drivers ih =>
      obtain ⟨matched, found⟩ := Option.isSome_iff_exists.mp (driver.matched_isSome config header)
      cases matched with
      | true => simp [loadDriver, found]
      | false => simpa [loadDriver, found] using ih

theorem PcieDriver.all_matched (driver : PcieDriver)
    (reads : ∀ offset size, P (.read header offset size)) :
    (driver.matched header).All config P := by
  simp only [PcieDriver.matched, getVendorId, getDeviceId, getClass, getSubclass,
    getRegisterInterface]
  split_ifs <;> simp [reads] <;> split_ifs <;> simp [reads] <;> split_ifs <;> simp [reads]

theorem all_loadDriver (drivers : List PcieDriver)
    (touched : ∀ c : ConfigCall, c.header = header → P c) :
    (loadDriver header drivers).All config P := by
  induction drivers with
  | nil => exact Program.all_pure false
  | cons driver drivers ih =>
      rw [loadDriver, Program.all_bind]
      refine ⟨driver.all_matched fun offset size => touched _ rfl, fun matched _ => ?_⟩
      cases matched with
      | true => simpa using touched (.get header) rfl
      | false => simpa using ih

theorem scanFunction_isSome (config : ConfigCall → Nat)
    (header headerType unknownDeviceCount : Nat) :
    ((scanFunction header headerType unknownDeviceCount).value config).isSome := by
  obtain ⟨matched, found⟩ :=
    Option.isSome_iff_exists.mp (loadDriver_isSome pcieDrivers config header)
  simp only [scanFunction, getVendorId, getDeviceId, getClass, getSubclass]
  cases matched <;> split_ifs <;> simp <;> split_ifs <;> simp [found]

theorem all_scanFunction (headerType unknownDeviceCount : Nat)
    (touched : ∀ c : ConfigCall, c.header = header → P c) :
    (scanFunction header headerType unknownDeviceCount).All config P := by
  have reads : ∀ offset size, P (.read header offset size) := fun offset size => touched _ rfl
  have drivers : (loadDriver header pcieDrivers).All config P := all_loadDriver pcieDrivers touched
  simp only [scanFunction, getVendorId, getDeviceId, getClass, getSubclass]
  split_ifs
  · simp [reads]
    split_ifs <;> simp [reads, drivers]
  · simp

theorem scanFunctions_isSome {base bus device count function unknownDeviceCount : Nat} :
    ((scanFunctions base bus device count function unknownDeviceCount).value config).isSome := by
  induction count generalizing function unknownDeviceCount with
  | zero => rfl
  | succ count ih =>
      simp only [scanFunctions, getHeaderType, Program.value_bind, value_mmioRead, Option.bind_some]
      obtain ⟨unknown, found⟩ := Option.isSome_iff_exists.mp (scanFunction_isSome config
        (pcieDevice base bus device function)
        (config (.read (pcieDevice base bus device function) 14 1) % 256 ^ 1)
        unknownDeviceCount)
      rw [found, Option.bind_some]
      split_ifs
      · rfl
      · exact ih

theorem all_scanFunctions {base bus device count function unknownDeviceCount : Nat}
    (touched : ∀ j < count, ∀ c : ConfigCall, c.header =
      pcieDevice base bus device (function + j) → P c) :
    (scanFunctions base bus device count function unknownDeviceCount).All config P := by
  induction count generalizing function unknownDeviceCount with
  | zero => exact Program.all_pure _
  | succ count ih =>
      have here := touched 0 (Nat.succ_pos count)
      simp only [scanFunctions, getHeaderType, Program.all_bind, all_mmioRead]
      refine ⟨here _ rfl, fun headerType _ => ⟨all_scanFunction _ _ here, fun unknown _ => ?_⟩⟩
      split_ifs
      · exact Program.all_pure _
      · refine ih fun j below => ?_
        rw [Nat.add_assoc, Nat.add_comm 1]
        exact touched (j + 1) (Nat.succ_lt_succ below)

theorem scanDevices_isSome {base bus unknownDeviceCount : Nat} :
    ((scanDevices base bus unknownDeviceCount).value config).isSome :=
  Program.value_loop_isSome fun _ _ => scanFunctions_isSome

theorem all_scanEntry {mcfgEntry : McfgEntry} {unknownDeviceCount : Nat}
    (touched : ∀ bus device function, mcfgEntry.firstBusNumber ≤ bus →
      bus ≤ mcfgEntry.lastBusNumber → device < 32 → function < 8 →
      ∀ c : ConfigCall, c.header = pcieDevice mcfgEntry.address bus device function → P c) :
    (scanEntry mcfgEntry unknownDeviceCount).All config P := by
  refine Program.all_loop fun i inside _ => Program.all_loop fun device low _ =>
    all_scanFunctions fun function small => ?_
  rw [Nat.zero_add, Nat.zero_add]
  exact touched _ _ _ (Nat.le_add_right _ i) (by omega) low small

/-- The first function of the first device of the last bus is always looked at. -/
theorem last_bus_touched {mcfgEntry : McfgEntry} {unknownDeviceCount : Nat}
    (ordered : mcfgEntry.firstBusNumber ≤ mcfgEntry.lastBusNumber)
    (all : (scanEntry mcfgEntry unknownDeviceCount).All config P) :
    P (.read (pcieDevice mcfgEntry.address mcfgEntry.lastBusNumber 0 0) 14 1) := by
  have last : mcfgEntry.lastBusNumber - mcfgEntry.firstBusNumber <
      mcfgEntry.lastBusNumber + 1 - mcfgEntry.firstBusNumber := by omega
  obtain ⟨unknown, all⟩ := Program.all_of_all_loop (fun _ _ => scanDevices_isSome) all last
  rw [Nat.add_sub_cancel' ordered] at all
  obtain ⟨unknown, all⟩ :=
    Program.all_of_all_loop (fun _ _ => scanFunctions_isSome) all (show 0 < 32 by decide)
  simp only [scanFunctions, getHeaderType, Program.all_bind, all_mmioRead, Nat.zero_add] at all
  exact all.1

end Touched

/-! ## The scan and the window -/

theorem pcieDevice_eq (base bus device function : Nat) :
    pcieDevice base bus device function =
      (base + bus * 1048576 + device * 32768 + function * 4096) % 2 ^ 64 := by
  simp only [pcieDevice, Nat.shiftLeft_eq]

/-- What `mapAddress` returns does not go around the end of the address space. -/
def IsWindow (pointer size : Nat) : Prop := pointer + size ≤ 2 ^ 64

instance (pointer size : Nat) : Decidable (IsWindow pointer size) :=
  inferInstanceAs (Decidable (_ ≤ _))

/-- This holds of the kernel's own `mapAddress`, also where it returns null. -/
theorem mapAddress_isWindow {s t : Paging.Machine} {address n ptr : Nat} {cacheable : Bool}
    (sane : Heap.Sane s) (some : 0 < n) (bounded : address + n + 4095 < 2 ^ 64)
    (fed : Heap.Fed (Heap.mapAddress address n cacheable) s)
    (got : Heap.mapAddress address n cacheable s = .ok ptr t) : IsWindow ptr n := by
  rw [IsWindow]
  by_cases null : ptr = 0
  · omega
  · obtain ⟨base, -, pointer, shown⟩ := Heap.mapAddress_returns sane bounded fed got null
    have below := shown.range.below (by simp only [Heap.spanPages]; omega)
    simp only [Heap.spanPages, Paging.pageTablePointer] at below
    omega

theorem windowSize_eq {firstBusNumber lastBusNumber : Nat}
    (ordered : firstBusNumber ≤ lastBusNumber) (low : lastBusNumber < 256) :
    windowSize firstBusNumber lastBusNumber = (lastBusNumber - firstBusNumber + 1) * 1048576 := by
  simp only [windowSize]
  omega

theorem scansInside_iff (mcfgEntry : McfgEntry) {size : Nat}
    (ordered : mcfgEntry.firstBusNumber ≤ mcfgEntry.lastBusNumber)
    (low : mcfgEntry.lastBusNumber < 256)
    (sized : size = windowSize mcfgEntry.firstBusNumber mcfgEntry.lastBusNumber)
    (window : IsWindow mcfgEntry.address size) :
    ScansInside mcfgEntry mcfgEntry.address size ↔
      mcfgEntry.address ≠ 0 ∧ mcfgEntry.firstBusNumber = 0 := by
  rw [IsWindow] at window
  rw [windowSize_eq ordered low] at sized
  constructor
  · intro scans
    have last : InWindow _ _ _ := last_bus_touched ordered (scans.inside (fun _ => 0) 0)
    simp only [InWindow, ConfigCall.header, pcieDevice_eq, pcieHeaderSize] at last
    omega
  · rintro ⟨nonnull, zero⟩
    refine ⟨fun config unknown =>
      all_scanEntry fun bus device function _ inside low small c same => ?_, ?_⟩
    · simp only [InWindow, same, pcieDevice_eq, pcieHeaderSize]
      omega
    · intro bus device function bus' device' function' _ inside low small _ inside' low' small' same
      simp only [pcieDevice_eq] at same
      omega

/-- The entry of the manager is there, and scanning it stays in the window that was
    mapped for it. -/
def ScansMapped (memory : Nat → UInt8) (pointer : Nat → Nat → Nat) (table i : Nat) : Prop :=
  ∃ entries, (mcfgTableManager table).value (mappedAt memory pointer) = some entries ∧
    i < entries.length ∧
    ScansInside (getEntry entries i)
      (pointer (tableEntry memory table i).address (tableEntry memory table i).size)
      (tableEntry memory table i).size

theorem getEntry_mapped {memory : Nat → UInt8} {pointer : Nat → Nat → Nat} {table count i : Nat}
    (listed : i < count) :
    getEntry ((List.range' 0 count).map fun j => (tableEntry memory table j).mapped pointer) i =
      (tableEntry memory table i).mapped pointer := by
  simp [getEntry, listed]

/-- The windows are made for the buses from the first on, and the headers are counted
    from bus zero. The scan does not look whether there is a window. -/
theorem scansMapped_iff {memory : Nat → UInt8} {pointer : Nat → Nat → Nat} {table i : Nat}
    (fits : Fits memory table .mcfg) (listed : i < (declared memory table - madtSize) / 16)
    (ordered : (tableEntry memory table i).firstBusNumber ≤
      (tableEntry memory table i).lastBusNumber)
    (window : IsWindow
      (pointer (tableEntry memory table i).address (tableEntry memory table i).size)
      (tableEntry memory table i).size) :
    ScansMapped memory pointer table i ↔
      pointer (tableEntry memory table i).address (tableEntry memory table i).size ≠ 0 ∧
      (tableEntry memory table i).firstBusNumber = 0 := by
  rw [← mcfgNumEntries_eq fits.1 (declared_lt memory table)] at listed
  have scans := scansInside_iff ((tableEntry memory table i).mapped pointer) ordered
    (tableEntry_lastBusNumber_lt memory table i) rfl window
  rw [ScansMapped, value_mcfgTableManager]
  simp only [Option.some.injEq, exists_eq_left', List.length_map, List.length_range',
    listed, true_and, getEntry_mapped listed]
  exact scans

theorem oneWindow_scanned : ScansMapped oneWindow (fun _ _ => 0xffff900000000000) 0x1000 0 := by
  refine (scansMapped_iff ⟨?_, ?_⟩ ?_ ?_ ?_).mpr ⟨?_, ?_⟩ <;> decide +kernel

/-- A MCFG with one window, for bus 1 alone. -/
def secondBus : Nat → UInt8 :=
  memoryAt 0x1000 (sealed [0x4d, 0x43, 0x46, 0x47]
    (List.replicate 8 0 ++ (littleEndian 0xb0000000 8 ++ [0, 0, 1, 1, 0, 0, 0, 0])))

/-- The window has the size of one bus, and the first header is that far behind it. -/
theorem secondBus_leaves : (tableEntry secondBus 0x1000 0).size = 1048576 ∧
    ¬ScansMapped secondBus (fun _ _ => 0xffff900000000000) 0x1000 0 := by
  have sized : (tableEntry secondBus 0x1000 0).size = 1048576 := by decide +kernel
  refine ⟨sized, fun scans => ?_⟩
  obtain ⟨entries, found, -, inside⟩ := scans
  rw [value_mcfgTableManager, show mcfgNumEntries (declared secondBus 0x1000) =
    1 by decide +kernel] at found
  cases found
  rw [getEntry_mapped Nat.one_pos, sized] at inside
  have first := last_bus_touched (by decide +kernel) (inside.inside (fun _ => 0) 0)
  exact absurd first (by decide +kernel)

end Mykonos.Drivers
