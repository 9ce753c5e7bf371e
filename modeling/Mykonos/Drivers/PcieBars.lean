import Mykonos.Heap.Mapping

/-! # Base address registers

`pcieBars.cpp`: the size of the region behind a base address register is found by
writing all ones and reading back which bits took the value. A register keeps the
bits that software cannot change, so the device is six registers with a mask each.
-/

namespace Mykonos.Drivers

open Heap Memory Paging

/-! ## The device -/

/-- The registers `bars` of a `PcieDeviceHeader`, and the bits of each that a write
    can change. -/
structure PcieDevice where
  bars : Nat → BitVec 32
  writable : Nat → BitVec 32

/-- A register after a write. -/
def written (writable old value : BitVec 32) : BitVec 32 :=
  (value &&& writable) ||| (old &&& ~~~writable)

def readBar (number : Nat) : StateT PcieDevice Kernel (BitVec 32) := fun device =>
  pure (device.bars number, device)

def writeBar (number : Nat) (value : BitVec 32) : StateT PcieDevice Kernel Unit := fun device =>
  pure ((), { device with
    bars :=
      Function.update device.bars number
        (written (device.writable number) (device.bars number) value) })

@[simp] theorem readBar_run (number : Nat) (device : PcieDevice) :
    (readBar number).run device = pure (device.bars number, device) := rfl

@[simp] theorem writeBar_run (number : Nat) (value : BitVec 32) (device : PcieDevice) :
    (writeBar number value).run device = pure ((), { device with
      bars := Function.update device.bars number
        (written (device.writable number) (device.bars number) value) }) := rfl

/-- `PCIE_BAR_MEMORY`, which marks the registers that are not in memory. -/
def pcieBarMemory : BitVec 64 := 1

/-- `PCIE_BAR_TYPE`. -/
def pcieBarType (bar : BitVec 64) : BitVec 64 := (bar &&& 6) >>> 1

/-- `PCIE_BAR_64`. -/
def pcieBar64 : BitVec 64 := 2

/-- The rest of `mapBar` once the base is known. The size is negated in 32 bits, also
    where the base is wider. -/
def mapSized (number : Nat) (bar : BitVec 64) : StateT PcieDevice Kernel Nat := do
  writeBar number 0xffffffff
  let mappedSize := (~~~((← readBar number) &&& 0xfffffff0) + 1).setWidth 64
  writeBar number ((bar &&& 0xffffffff).setWidth 32)
  mapAddress bar.toNat mappedSize.toNat false

def mapBar (number : Nat) : StateT PcieDevice Kernel Nat := do
  if number > 5 then
    return 0
  else
    let bar := (← readBar number).setWidth 64
    if bar &&& pcieBarMemory ≠ 0 then
      return 0
    else
      let bar ←
        if number < 5 ∧ pcieBarType bar = pcieBar64 then do
          let next ← readBar (number + 1)
          pure (bar ||| next.setWidth 64 <<< 32)
        else pure bar
      mapSized number (bar &&& ~~~0xf#64)

/-! ## Devices that obey the rules -/

/-- A memory register whose region has `2 ^ k` bytes at `base`: the bits of the
    address below the size and the type bits are read-only. A wide one has the upper
    half of its address in the next register. -/
structure MemoryBar (device : PcieDevice) (number k : Nat) (wide : Bool)
    (base : BitVec 64) : Prop where
  position : if wide then number < 5 else number ≤ 5
  least : 4 ≤ k
  most : if wide then k < 64 else k < 32
  aligned : 2 ^ k ∣ base.toNat
  memory : device.bars number &&& 1 = 0
  type : (device.bars number &&& 6) >>> 1 = if wide then 2 else 0
  low : device.bars number &&& 0xfffffff0 = base.setWidth 32
  high : if wide then device.bars (number + 1) = (base >>> 32).setWidth 32 else base.toNat < 2 ^ 32
  writable : device.writable number = (BitVec.allOnes 64 <<< k).setWidth 32
  writableHigh : wide → device.writable (number + 1) = (BitVec.allOnes 64 <<< k >>> 32).setWidth 32

/-! ## Bits of a register -/

theorem written_written (writable old first second : BitVec 32) :
    written writable (written writable old first) second = written writable old second := by
  ext i bound
  simp only [written, BitVec.getElem_or, BitVec.getElem_and, BitVec.getElem_not]
  cases writable[i] <;> simp

/-- Writing back what the writable bits hold restores a register. -/
theorem written_same {writable old value : BitVec 32}
    (same : value &&& writable = old &&& writable) :
    written writable old value = old := by
  rw [written, same]
  ext i bound
  simp only [BitVec.getElem_or, BitVec.getElem_and, BitVec.getElem_not]
  cases writable[i] <;> simp

theorem addressBits : ∀ i < 32, (0xfffffff0 : BitVec 32).getLsbD i = decide (4 ≤ i) := by decide

theorem typeBits : ∀ i < 64, (~~~0xf#64).getLsbD i = decide (4 ≤ i) := by decide

section Programmed

variable {device : PcieDevice} {number k : Nat} {wide : Bool} {base : BitVec 64}

theorem sizeMask_bits (k : Nat) {i : Nat} (bound : i < 32) :
    ((BitVec.allOnes 64 <<< k).setWidth 32).getLsbD i = decide (k ≤ i) := by
  have inner : i < 64 := by omega
  have shifted : i - k < 64 := by omega
  simp only [BitVec.getLsbD_setWidth, BitVec.getLsbD_shiftLeft, BitVec.getLsbD_allOnes, bound,
    inner, shifted]
  by_cases inside : k ≤ i
  · simp [inside, Nat.not_lt.mpr inside]
  · simp [inside, Nat.lt_of_not_le inside]

theorem MemoryBar.base_bits (h : MemoryBar device number k wide base) {i : Nat} (below : i < k) :
    base.getLsbD i = false := by
  obtain ⟨q, multiple⟩ := h.aligned
  rw [BitVec.getLsbD, multiple, Nat.testBit_two_pow_mul]
  simp only [ge_iff_le, Bool.and_eq_false_imp, decide_eq_true_eq]
  omega

/-- The address bits of the low register. -/
theorem MemoryBar.low_bits (h : MemoryBar device number k wide base) {i : Nat} (bound : i < 32)
    (above : 4 ≤ i) :
    (device.bars number).getLsbD i = base.getLsbD i := by
  have bits := congrArg (BitVec.getLsbD · i) h.low
  simp only [BitVec.getLsbD_and, BitVec.getLsbD_setWidth, addressBits i bound, above, bound] at bits
  simpa using bits

/-- All ones come back in the writable bits alone. -/
theorem MemoryBar.readback (h : MemoryBar device number k wide base) :
    written (device.writable number) (device.bars number) 0xffffffff &&& 0xfffffff0 =
      device.writable number := by
  have least := h.least
  refine BitVec.eq_of_getLsbD_eq fun i bound => ?_
  have ones : (0xffffffff : BitVec 32).getLsbD i = true := by
    rw [show (0xffffffff : BitVec 32) = BitVec.allOnes 32 from rfl, BitVec.getLsbD_allOnes]
    exact decide_eq_true bound
  rw [h.writable, written]
  simp only [BitVec.getLsbD_and, BitVec.getLsbD_or, BitVec.getLsbD_not, sizeMask_bits k bound, ones,
    addressBits i bound]
  by_cases inside : k ≤ i
  · have above : 4 ≤ i := h.least.trans inside
    simp [inside, above]
  · have zero := h.base_bits (Nat.lt_of_not_le inside)
    by_cases above : 4 ≤ i
    · simp [inside, h.low_bits bound above, zero]
    · simp [inside, above]

/-- Negating the writable bits gives the size, as far as 32 bits hold it. -/
theorem negated_mask (k : Nat) :
    ((~~~((BitVec.allOnes 64 <<< k).setWidth 32) + 1 : BitVec 32).setWidth 64).toNat =
      2 ^ k % 2 ^ 32 := by
  have ones : ~~~((BitVec.allOnes 64 <<< k).setWidth 32) = BitVec.ofNat 32 (2 ^ k - 1) := by
    refine BitVec.eq_of_getLsbD_eq fun i bound => ?_
    rw [BitVec.getLsbD_not, sizeMask_bits k bound, BitVec.getLsbD_ofNat,
      Nat.testBit_two_pow_sub_one]
    by_cases inside : k ≤ i
    · simp [inside, Nat.not_lt.mpr inside]
    · simp [inside, bound, Nat.lt_of_not_le inside]
  have positive : 0 < 2 ^ k := Nat.two_pow_pos k
  have sum : BitVec.ofNat 32 (2 ^ k - 1) + 1 = BitVec.ofNat 32 (2 ^ k) := by
    rw [show (1 : BitVec 32) = BitVec.ofNat 32 1 from rfl, ← BitVec.ofNat_add,
      Nat.sub_add_cancel positive]
  rw [ones, sum, BitVec.toNat_setWidth, BitVec.toNat_ofNat]
  omega

/-- Writing the address back restores the register. -/
theorem MemoryBar.restored (h : MemoryBar device number k wide base) :
    written (device.writable number) (device.bars number) ((base &&& 0xffffffff).setWidth 32) =
      device.bars number := by
  have least := h.least
  refine written_same (BitVec.eq_of_getLsbD_eq fun i bound => ?_)
  have ones : (0xffffffff : BitVec 64).getLsbD i = true := by
    revert i
    decide
  rw [h.writable]
  simp only [BitVec.getLsbD_and, BitVec.getLsbD_setWidth, sizeMask_bits k bound, ones, bound]
  by_cases inside : k ≤ i
  · simp [inside, h.low_bits bound (h.least.trans inside)]
  · simp [inside]

/-- The low register alone, when the address fits it. -/
theorem MemoryBar.narrow_base (h : MemoryBar device number k false base) :
    (device.bars number).setWidth 64 &&& ~~~0xf#64 = base := by
  have small : base.toNat < 2 ^ 32 := h.high
  refine BitVec.eq_of_getLsbD_eq fun i bound => ?_
  simp only [BitVec.getLsbD_and, BitVec.getLsbD_setWidth, typeBits i bound, bound]
  by_cases above : 4 ≤ i
  · by_cases inside : i < 32
    · simp [above, h.low_bits inside above]
    · have zero : base.getLsbD i = false :=
        Nat.testBit_lt_two_pow (small.trans_le (Nat.pow_le_pow_right (by decide) (by omega)))
      have none : (device.bars number).getLsbD i = false := BitVec.getLsbD_of_ge _ _ (by omega)
      simp [zero, none]
  · have zero := h.base_bits (show i < k by have := h.least; omega)
    simp [above, zero]

/-- Both registers together. -/
theorem MemoryBar.wide_base (h : MemoryBar device number k true base) :
    ((device.bars number).setWidth 64 ||| (device.bars (number + 1)).setWidth 64 <<< 32) &&&
      ~~~0xf#64 = base := by
  have high : device.bars (number + 1) = (base >>> 32).setWidth 32 := h.high
  refine BitVec.eq_of_getLsbD_eq fun i bound => ?_
  simp only [BitVec.getLsbD_and, BitVec.getLsbD_or, BitVec.getLsbD_setWidth,
    BitVec.getLsbD_shiftLeft, high, BitVec.getLsbD_ushiftRight, typeBits i bound, bound]
  by_cases above : 4 ≤ i
  · by_cases inside : i < 32
    · simp only [h.low_bits inside above, above, inside]
      simp
    · have none : (device.bars number).getLsbD i = false := BitVec.getLsbD_of_ge _ _ (by omega)
      have upper : i - 32 < 32 := by omega
      have index : 32 + (i - 32) = i := by omega
      simp [above, inside, none, upper, index]
      omega
  · have zero := h.base_bits (show i < k by have := h.least; omega)
    simp [above, zero]

theorem MemoryBar.mapSized_eq (h : MemoryBar device number k wide base) :
    (mapSized number base).run device = (do
      let ptr ← mapAddress base.toNat (2 ^ k % 2 ^ 32) false
      pure (ptr, device)) := by
  have size := negated_mask k
  rw [← h.writable, ← h.readback] at size
  simp only [mapSized, StateT.run_bind, readBar_run, writeBar_run, pure_bind, Function.update_self,
    Function.update_idem, written_written, h.restored, Function.update_eq_self, size]
  rfl

/-- What `mapBar` asks for: the base, with the size as far as 32 bits hold it. -/
theorem MemoryBar.mapBar_eq (h : MemoryBar device number k wide base) :
    (mapBar number).run device = (do
      let ptr ← mapAddress base.toNat (2 ^ k % 2 ^ 32) false
      pure (ptr, device)) := by
  have memory : (device.bars number).setWidth 64 &&& pcieBarMemory = 0 := by
    have bit := congrArg (BitVec.setWidth 64) h.memory
    rwa [BitVec.setWidth_and] at bit
  have type : pcieBarType ((device.bars number).setWidth 64) = if wide then 2 else 0 := by
    have bit := congrArg (BitVec.setWidth 64) h.type
    rw [BitVec.setWidth_ushiftRight (by decide), BitVec.setWidth_and] at bit
    rw [pcieBarType, show (6 : BitVec 64) = BitVec.setWidth 64 (6 : BitVec 32) from rfl, bit]
    cases wide <;> rfl
  have small : ¬ number > 5 := by
    have := h.position
    split at this <;> omega
  cases wide with
  | false =>
      have other : ¬ (number < 5 ∧ pcieBarType ((device.bars number).setWidth 64) = pcieBar64) := by
        rw [type]
        simp [pcieBar64]
      simp only [mapBar, small, if_false, StateT.run_bind, readBar_run, memory, other,
        pure_bind, ne_eq, not_true_eq_false, h.narrow_base]
      exact h.mapSized_eq
  | true =>
      have both : number < 5 ∧ pcieBarType ((device.bars number).setWidth 64) = pcieBar64 :=
        ⟨h.position, type⟩
      simp only [mapBar, small, if_false, StateT.run_bind, readBar_run, memory, both,
        pure_bind, ne_eq, not_true_eq_false, and_self, if_true, h.wide_base]
      exact h.mapSized_eq

end Programmed

/-! ## The region behind a register -/

/-- The pages of a region stand behind a pointer, uncached, and no other page has been
    added. -/
structure RegionAt (s t : Machine) (ptr base size : Nat) : Prop where
  nonnull : ptr ≠ 0
  pages : ∃ window, ptr = window + base % 4096 ∧
    Shown s t window (spanPages base size) (base / 4096) false

/-- On this machine `mapBar` maps the region and leaves every register of the device as it
    was. -/
def MapsRegion (s : Machine) (device : PcieDevice) (number base size : Nat) : Prop :=
  ∃ ptr t, (mapBar number).run device s = .ok (ptr, device) t ∧ RegionAt s t ptr base size

section Regions

variable {device : PcieDevice} {number k : Nat} {wide : Bool} {base : BitVec 64}
  {s t : Machine} {ptr : Nat}

/-- A region that is aligned to its size ends within the address space. -/
theorem MemoryBar.ends (h : MemoryBar device number k wide base) : base.toNat + 2 ^ k ≤ 2 ^ 64 := by
  have most : k ≤ 64 := by
    have := h.most
    split at this <;> omega
  have rest : 2 ^ k ∣ 2 ^ 64 - base.toNat := Nat.dvd_sub (Nat.pow_dvd_pow 2 most) h.aligned
  have := Nat.le_of_dvd (Nat.sub_pos_of_lt base.isLt) rest
  omega

/-- The registers come back whatever is mapped. -/
theorem MemoryBar.mapBar_ok (h : MemoryBar device number k wide base) {after : PcieDevice} :
    (mapBar number).run device s = .ok (ptr, after) t ↔
      after = device ∧ mapAddress base.toNat (2 ^ k % 2 ^ 32) false s = .ok ptr t := by
  rw [h.mapBar_eq]
  cases mapped : mapAddress base.toNat (2 ^ k % 2 ^ 32) false s with
  | error fault u =>
      rw [bind_error mapped]
      constructor
      · intro impossible
        exact nomatch impossible
      · rintro ⟨-, impossible⟩
        exact nomatch impossible
  | ok start u =>
      rw [bind_ok mapped]
      constructor
      · intro returned
        injection returned with pair machine
        injection pair with pointer registers
        exact ⟨registers.symm, by rw [pointer, machine]⟩
      · rintro ⟨rfl, returned⟩
        injection returned with pointer machine
        rw [pointer, machine]
        rfl

theorem MemoryBar.fed (h : MemoryBar device number k wide base)
    (fed : Fed ((mapBar number).run device) s) :
    Fed (mapAddress base.toNat (2 ^ k % 2 ^ 32) false) s := by
  rw [h.mapBar_eq] at fed
  exact Fed.first fed fun ptr => .of_same fun _ => rfl

/-- A region of four gigabytes or more is asked for with size zero, and no page is mapped
    for it. -/
theorem MemoryBar.mapBar_large (h : MemoryBar device number k wide base) (large : 32 ≤ k)
    (sane : Sane s) (fed : Fed ((mapBar number).run device) s)
    (got : (mapBar number).run device s = .ok (ptr, device) t) {n : Nat}
    (outside : Outside n) : t.leaf n = s.leaf n := by
  have zero : 2 ^ k % 2 ^ 32 = 0 := Nat.mod_eq_zero_of_dvd (Nat.pow_dvd_pow 2 large)
  have pages : 2 ^ 12 ∣ 2 ^ k := Nat.pow_dvd_pow 2 (by omega)
  have page : base.toNat % 4096 = 0 := Nat.mod_eq_zero_of_dvd (pages.trans h.aligned)
  have none : spanPages base.toNat 0 = 0 := by
    simp only [spanPages]
    omega
  have early := h.fed fed
  have got := (h.mapBar_ok.mp got).2
  have size := span_size_around (n := 0) base.isLt (by omega)
  rw [zero] at early got
  rw [none] at size
  rcases mapAddress_pages sane size early with ⟨u, null, acquired⟩ |
    ⟨window, u, new, returned, -, acquired, -⟩
  · rw [got] at null
    injection null with _ machine
    exact machine ▸ acquired.leaf n outside (by simp)
  · rw [got] at returned
    injection returned with _ machine
    exact machine ▸ acquired.leaf n outside (by simp)

/-- The pages behind a pointer were not mapped before. -/
theorem RegionAt.changes {base size : Nat} (h : RegionAt s t ptr base size) (sane : Sane s)
    (low : base < 2 ^ 64) (some : 0 < size) : ∃ n, Outside n ∧ t.leaf n ≠ s.leaf n := by
  obtain ⟨window, -, shown⟩ := h.pages
  have inside : 0 < spanPages base size := by
    simp only [spanPages]
    omega
  have entry := shown.entries 0 inside
  have present := (leafEntry_fields (show base / 4096 + 0 < 2 ^ 52 by omega) false false).1
  have free : window ∈ s.virtualMemory.free := shown.taken ⟨le_rfl, by omega⟩
  refine ⟨page window, shown.range.outside inside, fun same => ?_⟩
  rw [← entry, Nat.add_zero, same, sane.unmapped window free] at present
  exact absurd present (by decide)

theorem MemoryBar.not_maps (h : MemoryBar device number k wide base) (large : 32 ≤ k)
    (sane : Sane s) (fed : Fed ((mapBar number).run device) s) :
    ¬ MapsRegion s device number base.toNat (2 ^ k) := by
  rintro ⟨ptr, t, got, region⟩
  obtain ⟨n, outside, changed⟩ := region.changes sane base.isLt (Nat.two_pow_pos k)
  exact changed (h.mapBar_large large sane fed got outside)

/-- A register that obeys the rules has its region mapped exactly when the size of the
    region fits 32 bits and a block of the virtual pool has room for its pages. -/
theorem mapBar_maps_iff (programmed : MemoryBar device number k wide base) (sane : Sane s)
    (fed : Fed ((mapBar number).run device) s) :
    MapsRegion s device number base.toNat (2 ^ k) ↔
      k < 32 ∧ ∃ b ∈ s.virtualMemory.blocks, spanPages base.toNat (2 ^ k) * 4096 ≤ b.capacity := by
  by_cases small : k < 32
  swap
  · exact ⟨fun maps => absurd maps (programmed.not_maps (Nat.le_of_not_lt small) sane fed),
      fun fits => absurd fits.1 small⟩
  have below : 2 ^ k < 2 ^ 32 := Nat.pow_lt_pow_right (by decide) small
  have positive : 0 < 2 ^ k := Nat.two_pow_pos k
  have some : 0 < spanPages base.toNat (2 ^ k) := by
    simp only [spanPages]
    omega
  have fits : base.toNat % 4096 + 2 ^ k + 4095 < 2 ^ 64 := by omega
  have size := span_size_around base.isLt fits
  have null := mapAddress_null_iff false sane some size
  have early := programmed.fed fed
  simp only [MapsRegion, programmed.mapBar_ok, true_and, Nat.mod_eq_of_lt below, small] at early ⊢
  constructor
  · rintro ⟨ptr, t, got, region⟩
    by_contra full
    obtain ⟨u, failed⟩ := null.mpr fun b member => by
      by_contra room
      exact full ⟨b, member, Nat.le_of_not_lt room⟩
    rw [got] at failed
    injection failed with pointer _
    exact region.nonnull pointer
  · rintro ⟨b, member, room⟩
    have nonnull : ∀ t, mapAddress base.toNat (2 ^ k) false s ≠ .ok 0 t := fun t failed =>
      absurd (null.mp ⟨t, failed⟩ b member) (Nat.not_lt.mpr room)
    obtain ⟨ptr, t, got⟩ : ∃ ptr t, mapAddress base.toNat (2 ^ k) false s = .ok ptr t := by
      rcases mapAddress_pages sane size early with ⟨t, got, -⟩ | ⟨ptr, t, new, got, -⟩
      · exact ⟨0, t, got⟩
      · exact ⟨_, t, got⟩
    have start : ptr ≠ 0 := fun zero => nonnull t (zero ▸ got)
    obtain ⟨window, -, place, shown⟩ :=
      mapAddress_shows sane base.isLt programmed.ends fits early got start
    exact ⟨ptr, t, got, start, window, place, shown⟩

end Regions

/-- A device with one region, behind its first two registers. -/
def wideDevice (k : Nat) (base : BitVec 64) : PcieDevice where
  bars number :=
    if number = 0 then base.setWidth 32 ||| 4
    else if number = 1 then (base >>> 32).setWidth 32
    else 0
  writable number :=
    if number = 0 then (BitVec.allOnes 64 <<< k).setWidth 32
    else if number = 1 then (BitVec.allOnes 64 <<< k >>> 32).setWidth 32
    else 0

/-- The registers of a USB controller. -/
theorem controller_mapped :
    MapsRegion Session.freshMachine (wideDevice 16 0xfebf0000) 0 0xfebf0000 0x10000 := by
  have programmed : MemoryBar (wideDevice 16 0xfebf0000) 0 16 true 0xfebf0000 :=
    ⟨by decide, by decide, by decide, by decide, by decide, by decide, by decide, by decide,
      by decide, by decide⟩
  have fed : Fed ((mapBar 0).run (wideDevice 16 0xfebf0000)) Session.freshMachine :=
    show 0 ∉ _ by decide +kernel
  exact (mapBar_maps_iff programmed Session.freshMachine_initial.sound.sane fed).mpr
    ⟨by decide, ⟨0xFFFF800000A00000, 0xFFFF800020A00000⟩, by decide, by decide⟩

/-- The memory of a graphics card: four gigabytes. A pointer is returned, and nothing is
    mapped at it. -/
theorem card_not_mapped :
    MemoryBar (wideDevice 32 0x800000000) 0 32 true 0x800000000 ∧
    (∃ t, (mapBar 0).run (wideDevice 32 0x800000000) Session.freshMachine =
        .ok (0xFFFF800000A00000, wideDevice 32 0x800000000) t ∧
      t.translate 0xFFFF800000A00000 = none) ∧
    ¬ MapsRegion Session.freshMachine (wideDevice 32 0x800000000) 0 0x800000000 0x100000000 := by
  have programmed : MemoryBar (wideDevice 32 0x800000000) 0 32 true 0x800000000 :=
    ⟨by decide, by decide, by decide, by decide, by decide, by decide, by decide, by decide,
      by decide, by decide⟩
  have fed : Fed ((mapBar 0).run (wideDevice 32 0x800000000)) Session.freshMachine :=
    show 0 ∉ _ by decide +kernel
  have got : mapAddress 0x800000000 0 false Session.freshMachine =
      .ok 0xFFFF800000A00000 ((mapAddress 0x800000000 0 false).after Session.freshMachine) :=
    ok_of_value (by decide +kernel)
  refine ⟨programmed, ⟨_, programmed.mapBar_ok.mpr ⟨rfl, got⟩, by decide +kernel⟩, ?_⟩
  exact programmed.not_maps le_rfl Session.freshMachine_initial.sound.sane fed

end Mykonos.Drivers
