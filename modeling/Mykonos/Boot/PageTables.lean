import Mykonos.Paging.Effects

/-! # The page tables of the boot

The bootstrap code maps the first gigabyte of physical memory with large pages, once where
it is and once from `kernelVirtualOffset` on. Under these tables `initPageTables` fills the
four tables of the kernel image and loads them.
-/

namespace Mykonos.Boot

open Lib Paging

/-! ## The walk of the processor -/

/-- The bit that makes an entry above the last level one of a large page. -/
def isLarge (entry : Nat) : Bool := entry &&& 0x80 != 0

/-- The frame of a virtual address, with large pages of 1 GiB and of 2 MiB. -/
def processorTranslate (memory : Nat → Nat → Nat) (cr3 address : Nat) : Option Nat :=
  (child (memory cr3 (address / 2 ^ 39 % 512))).bind fun pml3 =>
    (child (memory pml3 (address / 2 ^ 30 % 512))).bind fun pml2 =>
      if isLarge (memory pml3 (address / 2 ^ 30 % 512)) then
        some (pml2 / 2 ^ 18 * 2 ^ 18 + address / 2 ^ 12 % 2 ^ 18)
      else (child (memory pml2 (address / 2 ^ 21 % 512))).bind fun pml1 =>
        if isLarge (memory pml2 (address / 2 ^ 21 % 512)) then
          some (pml1 / 512 * 512 + address / 2 ^ 12 % 512)
        else child (memory pml1 (address / 2 ^ 12 % 512))

/-! ## The bootstrap code -/

/-- The tables in `.bootstrap-bss`, which is linked at its physical address. -/
structure InitialTables where
  initialPml4 : Nat
  initialPml3 : Nat
  initialPml2 : Nat

/-- The registers that `build_page_tables` uses, and physical memory by the words of its
    frames. -/
structure Bootstrap where
  eax : Nat
  ecx : Nat
  edi : Nat
  memory : Nat → Nat → Nat
  cr3 : Nat

/-- `movl` to memory, which writes one half of a word. -/
def storeLong (memory : Nat → Nat → Nat) (address value : Nat) : Nat → Nat → Nat :=
  let word := memory (address / 4096) (address % 4096 / 8)
  let written :=
    if address % 8 < 4 then word / 2 ^ 32 * 2 ^ 32 + value else value * 2 ^ 32 + word % 2 ^ 32
  Function.update memory (address / 4096)
    (Function.update (memory (address / 4096)) (address % 4096 / 8) written)

/-- One round of the loop: `movl`, two times `addl`, and `decl`. -/
def fillRound (s : Bootstrap) : Bootstrap :=
  { s with
    memory := storeLong s.memory s.edi s.eax
    eax := (s.eax + 0x200000) % 2 ^ 32
    edi := (s.edi + 8) % 2 ^ 32
    ecx := (s.ecx + 2 ^ 32 - 1) % 2 ^ 32 }

/-- `jnz` goes back as long as `decl` has not reached zero. -/
def fillPml2 : Nat → Bootstrap → Option Bootstrap
  | 0, _ => none
  | fuel + 1, s => if (fillRound s).ecx = 0 then some (fillRound s) else fillPml2 fuel (fillRound s)

/-- `build_page_tables`. -/
def buildPageTables (initial : InitialTables) (fuel : Nat) (memory : Nat → Nat → Nat) :
    Option Bootstrap :=
  let memory := storeLong memory initial.initialPml4 (initial.initialPml3 ||| 3)
  let memory := storeLong memory (initial.initialPml4 + 256 * 8) (initial.initialPml3 ||| 3)
  let memory := storeLong memory initial.initialPml3 (initial.initialPml2 ||| 3)
  (fillPml2 fuel
    { eax := 0x83, ecx := 512, edi := initial.initialPml2, memory, cr3 := 0 }).map fun s =>
    { s with eax := initial.initialPml4, cr3 := initial.initialPml4 / 4096 }

/-! ## `initPageTables` -/

def kernelVirtualOffset : Nat := 0xFFFF800000000000

/-- The tables of `pageTableInit.cpp`, at their virtual addresses. -/
structure KernelTables where
  pml4 : Nat
  pml3 : Nat
  pml2 : Nat
  pml1 : Nat

/-- `PHYSICAL_ADDRESS`. -/
def physicalAddress (ptr : Nat) : Nat := (ptr + 2 ^ 64 - kernelVirtualOffset) % 2 ^ 64

/-- `(PageTableEntry)address | PRESENT | WRITABLE`. -/
def presentEntry (address : Nat) : Nat :=
  open PageTableFlags in combine (combine address present) writable

/-- Write a word through the tables in use. -/
def storeWord (address value : Nat) : Kernel Unit := fun s =>
  match processorTranslate s.memory s.cr3 address with
  | some frame => .ok () (s.write frame (address % 4096 / 8) value)
  | none => .error (.pageFault address) s

/-- Read a word through the tables in use. -/
def loadWord (address : Nat) : Kernel Nat := fun s =>
  match processorTranslate s.memory s.cr3 address with
  | some frame => .ok (s.memory frame (address % 4096 / 8)) s
  | none => .error (.pageFault address) s

/-- `mov` to `cr3`; the bits below the page offset are no part of the address. -/
def loadCr3 (value : Nat) : Kernel Unit := fun s => .ok () { s with cr3 := entryFrame value }

/-- The loop over `pml1` from an index, for the entries that are left. -/
def fillPml1 (pml1 : Nat) : Nat → Nat → Kernel Unit
  | _, 0 => pure ()
  | i, rest + 1 => do
      storeWord (pml1 + i * 8) (presentEntry (i * 4096 + 0x200000))
      fillPml1 pml1 (i + 1) rest

def initPageTables (tables : KernelTables) : Kernel Unit := do
  storeWord (tables.pml4 + 256 * 8) (presentEntry (physicalAddress tables.pml3))
  storeWord tables.pml3 (presentEntry (physicalAddress tables.pml2))
  storeWord (tables.pml2 + 1 * 8) (presentEntry (physicalAddress tables.pml1))
  fillPml1 tables.pml1 0 512
  storeWord (tables.pml4 + 511 * 8) (presentEntry (physicalAddress tables.pml4))
  loadCr3 (← loadWord (tables.pml4 + 511 * 8))

/-! ## Where the tables are -/

/-- The seven tables in their order in the walks, the ones of the bootstrap code first. -/
def bootFrames (initial : InitialTables) (tables : KernelTables) : List Nat :=
  [initial.initialPml4, initial.initialPml3, initial.initialPml2, physicalAddress tables.pml4,
    physicalAddress tables.pml3, physicalAddress tables.pml2,
    physicalAddress tables.pml1].map (· / 4096)

/-- What the linker script sees to: pages of their own, the ones of the bootstrap code at
    their physical addresses, the others in the image, which the bootstrap tables map. -/
structure Layout (initial : InitialTables) (tables : KernelTables) : Prop where
  low : ∀ a ∈ [initial.initialPml4, initial.initialPml3, initial.initialPml2], a % 4096 =
    0 ∧ a < 2 ^ 30
  high : ∀ a ∈ [tables.pml4, tables.pml3, tables.pml2, tables.pml1],
    a % 4096 = 0 ∧ kernelVirtualOffset ≤ a ∧ a < kernelVirtualOffset + 2 ^ 30
  apart : (bootFrames initial tables).Nodup

/-! ## Entries of large pages -/

theorem isLarge_iff (entry : Nat) : isLarge entry = true ↔ entry / 128 % 2 = 1 := by
  have bit := Nat.and_two_pow entry 7
  rw [Nat.testBit_eq_decide_div_mod_eq] at bit
  have mask : 0x80 = 2 ^ 7 := by decide
  simp only [isLarge, mask, bit]
  by_cases set : entry / 2 ^ 7 % 2 = 1 <;> simp

theorem or_three {a : Nat} (aligned : a % 4096 = 0) : a ||| 3 = a + 3 := by
  have whole : a / 4 * 4 = a := by omega
  rw [← whole, Nat.mul_comm, ← Nat.two_pow_add_eq_or_of_lt (i := 2) (show 3 < 2 ^ 2 by decide)]

theorem presentEntry_eq {a : Nat} (bounded : a < 2 ^ 63) : presentEntry a = a + 3 := by
  simp only [presentEntry, PageTableFlags.combine, PageTableFlags.present, PageTableFlags.writable,
    Nat.shiftLeft_eq]
  omega

/-- An entry for a table, with the two low bits. -/
theorem child_present {frame : Nat} (bounded : frame < 2 ^ 52) :
    child (frame * 4096 + 3) = some frame := by
  rw [child_some, isPresent_iff, entryFrame_eq]
  omega

theorem isLarge_present (frame : Nat) : isLarge (frame * 4096 + 3) = false := by
  rw [Bool.eq_false_iff, ne_eq, isLarge_iff]
  omega

/-! ## What the bootstrap code leaves -/

/-- The contents of the three tables of the bootstrap code. -/
structure Bootstrapped (initial : InitialTables) (memory : Nat → Nat → Nat) : Prop where
  pml4 : ∀ i, memory (initial.initialPml4 / 4096) i =
    if i = 0 ∨ i = 256 then initial.initialPml3 / 4096 * 4096 + 3 else 0
  pml3 : ∀ i, memory (initial.initialPml3 / 4096) i = if i =
    0 then initial.initialPml2 / 4096 * 4096 + 3 else 0
  pml2 : ∀ i < 512, memory (initial.initialPml2 / 4096) i = i * 2 ^ 21 + 0x83

/-- The addresses that the bootstrap tables map: the first gigabyte, and the first gigabyte
    of the upper half. -/
def Covered (address : Nat) : Prop :=
  (address / 2 ^ 39 % 512 = 0 ∨ address / 2 ^ 39 % 512 = 256) ∧ address / 2 ^ 30 % 512 = 0

instance (address : Nat) : Decidable (Covered address) := inferInstanceAs (Decidable (_ ∧ _))

theorem Bootstrapped.translate {initial : InitialTables} {tables : KernelTables}
    {memory : Nat → Nat → Nat} (h : Bootstrapped initial memory) (layout : Layout initial tables)
    (address : Nat) :
    processorTranslate memory (initial.initialPml4 / 4096) address =
      if Covered address then some (address / 4096 % 2 ^ 18) else none := by
  have low := layout.low
  simp only [List.forall_mem_cons, List.not_mem_nil, false_implies, implies_true, and_true] at low
  have slot : address / 2 ^ 21 % 512 < 512 := Nat.mod_lt _ (by decide)
  rw [processorTranslate, h.pml4]
  split_ifs with top covered covered
  · rw [child_present (by omega), Option.bind_some, h.pml3, if_pos covered.2,
      child_present (by omega), Option.bind_some, isLarge_present, if_neg Bool.false_ne_true,
      h.pml2 _ slot]
    have large : isLarge (address / 2 ^ 21 % 512 * 2 ^ 21 + 0x83) = true := by
      rw [isLarge_iff]
      omega
    have frame : child (address / 2 ^ 21 % 512 * 2 ^ 21 + 0x83) =
        some (address / 2 ^ 21 % 512 * 512) := by
      rw [child_some, isPresent_iff, entryFrame_eq]
      omega
    rw [frame, Option.bind_some, if_pos large]
    congr 1
    omega
  · rw [child_present (by omega), Option.bind_some, h.pml3,
      if_neg fun below => covered ⟨top, below⟩, child_zero, Option.bind_none]
  · exact absurd covered.1 top
  · rw [child_zero, Option.bind_none]

theorem storeLong_apply {memory : Nat → Nat → Nat} {address value : Nat} (aligned : address % 8 = 0)
    (zero : memory (address / 4096) (address % 4096 / 8) < 2 ^ 32) (frame word : Nat) :
    storeLong memory address value frame word =
      if frame = address / 4096 ∧ word = address % 4096 / 8 then value else memory frame word := by
  have half : address % 8 < 4 := by omega
  simp only [storeLong, half, if_true, Nat.div_eq_of_lt zero, Nat.zero_mul, Nat.zero_add]
  by_cases here : frame = address / 4096
  · subst here
    by_cases same : word = address % 4096 / 8
    · subst same
      simp
    · simp [same]
  · simp [here]

/-- The loop after some rounds, from a memory with zeros in the table. -/
structure Filling (pml2 k : Nat) (memory : Nat → Nat → Nat) (s : Bootstrap) : Prop where
  eax : s.eax = k * 2 ^ 21 + 0x83
  ecx : s.ecx = 512 - k
  edi : s.edi = pml2 + k * 8
  memory : ∀ frame word, s.memory frame word =
    if frame = pml2 / 4096 ∧ word < k then word * 2 ^ 21 + 0x83 else memory frame word

section Filling

variable {pml2 k fuel : Nat} {memory : Nat → Nat → Nat} {s : Bootstrap}

theorem Filling.round (h : Filling pml2 k memory s) (aligned : pml2 % 4096 = 0)
    (low : pml2 < 2 ^ 30) (zero : ∀ word, memory (pml2 / 4096) word = 0) (more : k < 512) :
    Filling pml2 (k + 1) memory (fillRound s) where
  eax := by
    simp only [fillRound, h.eax]
    omega
  ecx := by
    simp only [fillRound, h.ecx]
    omega
  edi := by
    simp only [fillRound, h.edi]
    omega
  memory frame word := by
    have place : s.edi / 4096 = pml2 / 4096 ∧ s.edi % 4096 / 8 = k ∧ s.edi % 8 = 0 := by
      rw [h.edi]
      omega
    have before : s.memory (s.edi / 4096) (s.edi % 4096 / 8) < 2 ^ 32 := by
      rw [place.1, place.2.1, h.memory, if_neg (by omega), zero]
      decide
    simp only [fillRound]
    rw [storeLong_apply place.2.2 before, place.1, place.2.1, h.memory, h.eax]
    by_cases here : frame = pml2 / 4096
    · by_cases same : word = k
      · rw [if_pos ⟨here, same⟩, if_pos ⟨here, by omega⟩, same]
      · rw [if_neg (fun both => same both.2)]
        by_cases earlier : word < k
        · rw [if_pos ⟨here, earlier⟩, if_pos ⟨here, by omega⟩]
        · rw [if_neg (fun both => earlier both.2), if_neg (fun both => by omega)]
    · rw [if_neg (fun both => here both.1), if_neg (fun both => here both.1),
        if_neg (fun both => here both.1)]

/-- The loop is left after the last of 512 rounds. -/
theorem Filling.loop (h : Filling pml2 k memory s) (aligned : pml2 % 4096 = 0) (low : pml2 < 2 ^ 30)
    (zero : ∀ word, memory (pml2 / 4096) word = 0) (more : k < 512) (enough : 512 - k ≤ fuel) :
    ∃ t, fillPml2 fuel s = some t ∧ Filling pml2 512 memory t := by
  induction fuel generalizing k s with
  | zero => omega
  | succ fuel ih =>
      have next := h.round aligned low zero more
      rw [fillPml2]
      by_cases last : k + 1 = 512
      · rw [if_pos (by rw [next.ecx]; omega)]
        exact ⟨_, rfl, last ▸ next⟩
      · rw [if_neg (by rw [next.ecx]; omega)]
        exact ih next (by omega) (by omega)

end Filling

section Switch

variable {initial : InitialTables} {tables : KernelTables}

/-- The upper two tables, which are written before the loop. -/
theorem rootTables_words {memory : Nat → Nat → Nat} {pml4 pml3 : Nat} (upper lower : Nat)
    (aligned4 : pml4 % 4096 = 0)
    (aligned3 : pml3 % 4096 = 0) (apart : pml4 / 4096 ≠ pml3 / 4096)
    (zero4 : ∀ word, memory (pml4 / 4096) word = 0) (zero3 : ∀ word, memory (pml3 / 4096) word = 0)
    (frame word : Nat) :
    storeLong (storeLong (storeLong memory pml4 upper) (pml4 + 256 * 8) upper) pml3
      lower frame word =
      if frame = pml4 / 4096 then if word = 0 ∨ word = 256 then upper else 0
      else if frame = pml3 / 4096 then if word = 0 then lower else 0
      else memory frame word := by
  have second : (pml4 + 256 * 8) / 4096 = pml4 / 4096 ∧ (pml4 + 256 * 8) % 4096 / 8 = 256 ∧
      (pml4 + 256 * 8) % 8 = 0 := by omega
  have first : pml4 % 4096 / 8 = 0 ∧ pml4 % 8 = 0 := by omega
  have third : pml3 % 4096 / 8 = 0 ∧ pml3 % 8 = 0 := by omega
  have one : ∀ frame word, storeLong memory pml4 upper frame word = _ :=
    storeLong_apply first.2 (by rw [zero4]; decide)
  have blank :
      storeLong memory pml4 upper ((pml4 + 256 * 8) / 4096) ((pml4 + 256 * 8) % 4096 / 8) = 0 := by
    rw [one, second.1, second.2.1, first.1, if_neg fun both => absurd both.2 (by decide), zero4]
  have two :
      ∀ frame word, storeLong (storeLong memory pml4 upper) (pml4 + 256 * 8) upper frame word = _ :=
    storeLong_apply second.2.2 (by rw [blank]; decide)
  have three : storeLong memory pml4 upper (pml3 / 4096) (pml3 % 4096 / 8) = 0 := by
    rw [one, if_neg fun both => apart both.1.symm, zero3]
  rw [storeLong_apply third.2
    (by rw [two, second.1, if_neg fun both => apart both.1.symm, three]; decide), two, one,
    third.1, second.1, second.2.1, first.1]
  by_cases top : frame = pml4 / 4096
  · subst top
    simp only [apart, false_and, if_false, true_and, if_true, zero4]
    split_ifs <;> first | rfl | omega
  · by_cases below : frame = pml3 / 4096
    · subst below
      simp [top, zero3]
    · simp [top, below]

/-- `build_page_tables` comes to its end with the first gigabyte mapped twice, and writes
    nothing but its three tables. -/
theorem buildPageTables_bootstrapped (memory : Nat → Nat → Nat)
    (layout : Layout initial tables) {fuel : Nat} (enough : 512 ≤ fuel)
    (zero : ∀ a ∈ [initial.initialPml4, initial.initialPml3, initial.initialPml2],
      ∀ word, memory (a / 4096) word = 0) :
    ∃ s, buildPageTables initial fuel memory = some s ∧ s.cr3 = initial.initialPml4 / 4096 ∧
      Bootstrapped initial s.memory ∧
      ∀ frame ∉ [initial.initialPml4 / 4096, initial.initialPml3 / 4096,
        initial.initialPml2 / 4096], s.memory frame = memory frame := by
  obtain ⟨low, -, apart⟩ := layout
  simp only [List.forall_mem_cons, List.not_mem_nil, false_implies, implies_true,
    and_true] at low zero
  simp only [bootFrames, List.map_cons, List.nodup_cons, List.mem_cons, not_or] at apart
  obtain ⟨⟨aligned4, low4⟩, ⟨aligned3, low3⟩, aligned2, low2⟩ := low
  obtain ⟨zero4, zero3, zero2⟩ := zero
  obtain ⟨⟨different43, different42, -⟩, ⟨different32, -⟩, -⟩ := apart
  have whole3 := Nat.div_mul_cancel (Nat.dvd_of_mod_eq_zero aligned3)
  have whole2 := Nat.div_mul_cancel (Nat.dvd_of_mod_eq_zero aligned2)
  have words := rootTables_words (initial.initialPml3 ||| 3) (initial.initialPml2 ||| 3)
    aligned4 aligned3 different43 zero4 zero3
  rw [buildPageTables]
  generalize storeLong (storeLong (storeLong memory initial.initialPml4 (initial.initialPml3 ||| 3))
    (initial.initialPml4 + 256 * 8) (initial.initialPml3 ||| 3)) initial.initialPml3
    (initial.initialPml2 ||| 3) =
    before at words ⊢
  rw [or_three aligned3, or_three aligned2] at words
  have blank : ∀ word, before (initial.initialPml2 / 4096) word = 0 := by
    intro word
    rw [words, if_neg fun same => different42 same.symm,
      if_neg fun same => different32 same.symm, zero2]
  have start : Filling initial.initialPml2 0 before
      { eax := 0x83, ecx := 512, edi := initial.initialPml2, memory := before, cr3 := 0 } :=
    ⟨rfl, rfl, rfl, by simp⟩
  obtain ⟨s, looped, filled⟩ := start.loop aligned2 low2 blank (by decide) enough
  have content := filled.memory
  simp only [words] at content
  refine ⟨{ s with eax := initial.initialPml4, cr3 := initial.initialPml4 / 4096 }, ?_, rfl,
    ⟨?_, ?_, ?_⟩, ?_⟩
  · rw [looped, Option.map_some]
  · intro i
    simp only [content, different42, false_and, if_false, if_true, whole3]
  · intro i
    simp only [content, different32, Ne.symm different43, false_and, if_false, if_true, whole2]
  · intro i below
    simp only [content, below, and_self, if_true]
  · intro frame other
    simp only [List.mem_cons, List.not_mem_nil, or_false, not_or] at other
    funext word
    simp only [content, other, false_and, if_false]

/-! ## What `initPageTables` leaves -/

/-- The address is in the part of the upper half that the bootstrap tables map. -/
def InImage (address : Nat) : Prop :=
  kernelVirtualOffset ≤ address ∧ address < kernelVirtualOffset + 2 ^ 30

theorem InImage.physical {address : Nat} (h : InImage address) :
    Covered address ∧ physicalAddress address + kernelVirtualOffset = address ∧
      address / 4096 % 2 ^ 18 = physicalAddress address / 4096 := by
  simp only [InImage, kernelVirtualOffset] at h
  simp only [Covered, physicalAddress, kernelVirtualOffset]
  omega

/-- The bootstrap tables are in use. -/
structure UnderBootstrap (initial : InitialTables) (s : Machine) : Prop where
  cr3 : s.cr3 = initial.initialPml4 / 4096
  content : Bootstrapped initial s.memory

theorem write_apply (s : Machine) (frame word value frame' word' : Nat) :
    (s.write frame word value).memory frame' word' =
      if frame' = frame ∧ word' = word then value else s.memory frame' word' := by
  by_cases same : frame' = frame
  · subst same
    by_cases here : word' = word <;> simp [Machine.write, here]
  · simp [Machine.write, same]

section Under

variable {s : Machine} {address : Nat}

theorem UnderBootstrap.write (h : UnderBootstrap initial s) {frame : Nat}
    (other : frame ∉ [initial.initialPml4 / 4096, initial.initialPml3 / 4096,
      initial.initialPml2 / 4096])
    (word value : Nat) : UnderBootstrap initial (s.write frame word value) := by
  simp only [List.mem_cons, List.not_mem_nil, or_false, not_or, ← ne_eq] at other
  obtain ⟨other4, other3, other2⟩ := other
  refine ⟨h.cr3, fun i => ?_, fun i => ?_, fun i below => ?_⟩
  · rw [write_apply, if_neg fun both => other4 both.1.symm, h.content.pml4]
  · rw [write_apply, if_neg fun both => other3 both.1.symm, h.content.pml3]
  · rw [write_apply, if_neg fun both => other2 both.1.symm, h.content.pml2 i below]

theorem UnderBootstrap.translate (h : UnderBootstrap initial s) (layout : Layout initial tables)
    (inside : InImage address) :
    processorTranslate s.memory s.cr3 address = some (physicalAddress address / 4096) := by
  obtain ⟨covered, -, frame⟩ := inside.physical
  rw [h.cr3, h.content.translate layout, if_pos covered, frame]

theorem UnderBootstrap.storeWord (h : UnderBootstrap initial s) (layout : Layout initial tables)
    (inside : InImage address) (value : Nat) :
    storeWord address value s =
      .ok () (s.write (physicalAddress address / 4096) (address % 4096 / 8) value) := by
  simp only [Boot.storeWord, h.translate layout inside]

theorem UnderBootstrap.loadWord (h : UnderBootstrap initial s) (layout : Layout initial tables)
    (inside : InImage address) :
    loadWord address s = .ok (s.memory (physicalAddress address / 4096) (address % 4096 / 8))
      s := by
  simp only [Boot.loadWord, h.translate layout inside]

end Under

/-- A word of a table of the image. -/
theorem entry_place {table i : Nat} (aligned : table % 4096 = 0) (inside : InImage table)
    (slot : i < 512) :
    InImage (table + i * 8) ∧ physicalAddress (table + i * 8) / 4096 =
      physicalAddress table / 4096 ∧
      (table + i * 8) % 4096 / 8 = i := by
  simp only [InImage, kernelVirtualOffset] at inside
  simp only [InImage, physicalAddress, kernelVirtualOffset]
  omega

/-- The loop fills the words of `pml1` from an index on. -/
theorem fillPml1_fills {s : Machine} (i rest : Nat) (h : UnderBootstrap initial s)
    (layout : Layout initial tables) (aligned : tables.pml1 % 4096 = 0)
    (inside : InImage tables.pml1) (other : physicalAddress tables.pml1 / 4096 ∉
      [initial.initialPml4 / 4096, initial.initialPml3 / 4096, initial.initialPml2 / 4096])
    (all : i + rest = 512) :
    ∃ t, fillPml1 tables.pml1 i rest s = .ok () t ∧ UnderBootstrap initial t ∧
      t = { s with memory := t.memory } ∧
      ∀ frame word, t.memory frame word =
        if frame = physicalAddress tables.pml1 / 4096 ∧ i ≤ word ∧ word < 512 then
          (word + 512) * 4096 + 3
        else s.memory frame word := by
  induction rest generalizing i s with
  | zero =>
      refine ⟨s, rfl, h, rfl, fun frame word => ?_⟩
      rw [if_neg fun both => by omega]
  | succ rest ih =>
      obtain ⟨image, frame, word⟩ := entry_place (i := i) aligned inside (by omega)
      have stored := h.storeWord layout image (presentEntry (i * 4096 + 0x200000))
      rw [frame, word] at stored
      obtain ⟨t, looped, under, only, words⟩ := ih (i + 1) (h.write other i _) (by omega)
      refine ⟨t, (bind_ok stored _).trans looped, under, only, fun frame word => ?_⟩
      rw [words, write_apply, presentEntry_eq (by omega)]
      by_cases here : frame = physicalAddress tables.pml1 / 4096
      · subst here
        simp only [true_and]
        split_ifs <;> omega
      · simp only [here, false_and, if_false]

/-- The contents of the tables of the image. -/
structure Installed (tables : KernelTables) (memory : Nat → Nat → Nat) : Prop where
  pml4 : ∀ i, memory (physicalAddress tables.pml4 / 4096) i =
    if i = 256 then physicalAddress tables.pml3 / 4096 * 4096 + 3
    else if i = 511 then physicalAddress tables.pml4 / 4096 * 4096 + 3 else 0
  pml3 : ∀ i, memory (physicalAddress tables.pml3 / 4096) i =
    if i = 0 then physicalAddress tables.pml2 / 4096 * 4096 + 3 else 0
  pml2 : ∀ i, memory (physicalAddress tables.pml2 / 4096) i =
    if i = 1 then physicalAddress tables.pml1 / 4096 * 4096 + 3 else 0
  pml1 : ∀ i < 512, memory (physicalAddress tables.pml1 / 4096) i = (i + 512) * 4096 + 3

/-- The frames of the image's tables are not those of the bootstrap tables. -/
theorem Layout.elsewhere (layout : Layout initial tables) :
    ∀ a ∈ [tables.pml4, tables.pml3, tables.pml2, tables.pml1], physicalAddress a / 4096 ∉
      [initial.initialPml4 / 4096, initial.initialPml3 / 4096, initial.initialPml2 / 4096] := by
  have apart := layout.apart
  simp only [bootFrames, List.map_cons, List.nodup_cons, List.mem_cons, not_or] at apart
  simp only [List.mem_cons, List.not_mem_nil, or_false, not_or]
  grind

/-- Under the bootstrap tables `initPageTables` writes its four tables without a fault, and
    loads them. -/
theorem initPageTables_installs {s : Machine} (layout : Layout initial tables)
    (under : UnderBootstrap initial s)
    (zero : ∀ a ∈ [tables.pml4, tables.pml3, tables.pml2, tables.pml1], ∀ word,
      s.memory (physicalAddress a / 4096) word = 0) :
    ∃ t, initPageTables tables s = .ok () t ∧ t = { s with memory := t.memory, cr3 := t.cr3 } ∧
      t.cr3 = physicalAddress tables.pml4 / 4096 ∧ Installed tables t.memory := by
  have elsewhere := layout.elsewhere
  have high := layout.high
  have apart := layout.apart
  simp only [List.forall_mem_cons, List.not_mem_nil, false_implies, implies_true, and_true]
    at elsewhere high zero
  simp only [bootFrames, List.map_cons, List.map_nil, List.nodup_cons, List.mem_cons,
    List.not_mem_nil, or_false, not_or, not_false_eq_true, List.nodup_nil, and_true] at apart
  obtain ⟨other4, other3, other2, other1⟩ := elsewhere
  obtain ⟨⟨aligned4, inside4⟩, ⟨aligned3, inside3⟩, ⟨aligned2, inside2⟩, aligned1, inside1⟩ := high
  obtain ⟨zero4, zero3, zero2, zero1⟩ := zero
  obtain ⟨-, -, -, ⟨different43, different42, different41⟩, ⟨different32, different31⟩,
    different21⟩ := apart
  have physical : ∀ a, a % 4096 = 0 → InImage a →
      presentEntry (physicalAddress a) = physicalAddress a / 4096 * 4096 + 3 ∧
      physicalAddress a / 4096 < 2 ^ 18 := by
    intro a aligned inside
    have place := inside.physical.2.1
    simp only [InImage, kernelVirtualOffset] at inside place
    rw [presentEntry_eq (by omega)]
    omega
  obtain ⟨image, frame, word⟩ := entry_place (i := 256) aligned4 inside4 (by decide)
  have first := under.storeWord layout image (presentEntry (physicalAddress tables.pml3))
  rw [frame, word] at first
  have under := under.write other4 256 (presentEntry (physicalAddress tables.pml3))
  have second := under.storeWord layout inside3 (presentEntry (physicalAddress tables.pml2))
  rw [show tables.pml3 % 4096 / 8 = 0 by omega] at second
  have under := under.write other3 0 (presentEntry (physicalAddress tables.pml2))
  obtain ⟨image, frame, word⟩ := entry_place (i := 1) aligned2 inside2 (by decide)
  have third := under.storeWord layout image (presentEntry (physicalAddress tables.pml1))
  rw [frame, word] at third
  have under := under.write other2 1 (presentEntry (physicalAddress tables.pml1))
  obtain ⟨mid, looped, under, only, words⟩ :=
    fillPml1_fills 0 512 under layout aligned1 inside1 other1 rfl
  obtain ⟨image, frame, word⟩ := entry_place (i := 511) aligned4 inside4 (by decide)
  have last := under.storeWord layout image (presentEntry (physicalAddress tables.pml4))
  rw [frame, word] at last
  have under := under.write other4 511 (presentEntry (physicalAddress tables.pml4))
  have loaded := under.loadWord layout image
  rw [frame, word, write_apply, if_pos ⟨rfl, rfl⟩] at loaded
  have loading : (do loadCr3 (← loadWord (tables.pml4 + 511 * 8)))
    (mid.write (physicalAddress tables.pml4 / 4096) 511
      (presentEntry (physicalAddress tables.pml4))) = .ok () _ := (bind_ok loaded _).trans rfl
  refine ⟨_, (bind_ok first _).trans
    ((bind_ok second _).trans ((bind_ok third _).trans ((bind_ok looped _).trans
    ((bind_ok last _).trans loading)))), ?_, ?_,
    ⟨fun i => ?_, fun i => ?_, fun i => ?_, fun i below => ?_⟩⟩
  · rw [only]
    rfl
  · obtain ⟨entry, small⟩ := physical _ aligned4 inside4
    exact (congrArg entryFrame entry).trans
      (child_some.mp (child_present (small.trans (by decide)))).2
  · simp only [write_apply, words, different43, different42, different41, false_and, if_false,
      true_and, zero4, (physical _ aligned4 inside4).1, (physical _ aligned3 inside3).1]
    by_cases recursive : i = 511 <;> simp [recursive]
  · simp only [write_apply, words, Ne.symm different43, different32, different31, false_and,
      if_false, true_and, zero3, (physical _ aligned2 inside2).1]
  · simp only [write_apply, words, Ne.symm different42, Ne.symm different32, different21,
      false_and, if_false, true_and, zero2, (physical _ aligned1 inside1).1]
  · simp only [write_apply, words, Ne.symm different41, false_and, if_false, true_and, Nat.zero_le,
      below, if_true]

/-! ## The new tables -/

/-- The machine after `initPageTables`. -/
structure Loaded (initial : InitialTables) (tables : KernelTables) (t : Machine) : Prop where
  layout : Layout initial tables
  cr3 : t.cr3 = physicalAddress tables.pml4 / 4096
  content : Installed tables t.memory

/-- The paths to the four tables. -/
def tablePaths (tables : KernelTables) : List (List Nat × Nat) :=
  [([], physicalAddress tables.pml4 / 4096), ([256], physicalAddress tables.pml3 / 4096),
    ([256, 0], physicalAddress tables.pml2 / 4096),
    ([256, 0, 1], physicalAddress tables.pml1 / 4096)]

section Loaded

variable {t : Machine}

theorem Layout.frame_lt (layout : Layout initial tables) :
    ∀ a ∈ [tables.pml4, tables.pml3, tables.pml2, tables.pml1],
      physicalAddress a / 4096 < 2 ^ 18 := by
  intro a member
  have place := layout.high a member
  simp only [physicalAddress, kernelVirtualOffset] at place ⊢
  omega

theorem Loaded.children (h : Loaded initial tables t) (i : Nat) :
    child (t.memory (physicalAddress tables.pml4 / 4096) i) =
        (if i = 256 then some (physicalAddress tables.pml3 / 4096)
        else if i = 511 then some (physicalAddress tables.pml4 / 4096) else none) ∧
      child (t.memory (physicalAddress tables.pml3 / 4096) i) =
        (if i = 0 then some (physicalAddress tables.pml2 / 4096) else none) ∧
      child (t.memory (physicalAddress tables.pml2 / 4096) i) =
        (if i = 1 then some (physicalAddress tables.pml1 / 4096) else none) := by
  have small := h.layout.frame_lt
  simp only [List.forall_mem_cons, List.not_mem_nil, false_implies, implies_true, and_true] at small
  have wide {frame : Nat} (bounded : frame < 2 ^ 18) : child (frame * 4096 + 3) = some frame :=
    child_present (bounded.trans (by decide))
  rw [h.content.pml4, h.content.pml3, h.content.pml2, apply_ite child, apply_ite child,
    apply_ite child, apply_ite child, wide small.1, wide small.2.1, wide small.2.2.1,
    wide small.2.2.2, child_zero]
  exact ⟨rfl, rfl, rfl⟩

/-- No path outside the window leads to anything but the four tables. -/
theorem Loaded.tableAt (h : Loaded initial tables t) {path : List Nat}
    (allowed : TablePath path) {frame : Nat} (here : t.tableAt path = some frame) :
    (path, frame) ∈ tablePaths tables := by
  have outside := allowed.outside
  have short := allowed.short
  rw [Machine.tableAt, h.cr3] at here
  cases path with
  | nil =>
      rw [descend_nil, Option.some.injEq] at here
      simp [tablePaths, here]
  | cons first path =>
      have top : first ≠ 511 := fun same => outside (by rw [same]; rfl)
      rw [descend, (h.children first).1, if_neg top] at here
      split_ifs at here with upper
      · rw [Option.bind_some] at here
        cases path with
        | nil =>
            rw [descend_nil, Option.some.injEq] at here
            simp [tablePaths, here, upper]
        | cons second path =>
            rw [descend, (h.children second).2.1] at here
            split_ifs at here with middle
            · rw [Option.bind_some] at here
              cases path with
              | nil =>
                  rw [descend_nil, Option.some.injEq] at here
                  simp [tablePaths, here, upper, middle]
              | cons third path =>
                  rw [descend, (h.children third).2.2] at here
                  split_ifs at here with lower
                  · rw [Option.bind_some] at here
                    obtain rfl : path = [] := List.eq_nil_of_length_eq_zero (by
                      simp only [List.length_cons] at short
                      omega)
                    rw [descend_nil, Option.some.injEq] at here
                    simp [tablePaths, here, upper, middle, lower]
                  · exact absurd here (by simp)
            · exact absurd here (by simp)
      · exact absurd here (by simp)

/-- The way to the last table. -/
theorem Loaded.tableAt_pml1 (h : Loaded initial tables t) :
    t.tableAt [256, 0, 1] = some (physicalAddress tables.pml1 / 4096) := by
  simp only [Machine.tableAt, descend, h.cr3, (h.children 256).1, (h.children 0).2.1,
    (h.children 1).2.2, if_true, Option.bind_some]

theorem Loaded.tree (h : Loaded initial tables t) : TableTree t where
  loop := by
    rw [h.cr3, (h.children 511).1]
    rfl
  unique path other table allowed allowed' here there := by
    have first := h.tableAt allowed here
    have second := h.tableAt allowed' there
    have apart := h.layout.apart
    simp only [bootFrames, List.map_cons, List.map_nil, List.nodup_cons, List.mem_cons,
      List.not_mem_nil, or_false, not_or, not_false_eq_true, List.nodup_nil, and_true] at apart
    simp only [tablePaths, List.mem_cons, Prod.mk.injEq, List.not_mem_nil, or_false] at first second
    grind

/-- The leaf entries map the second 2 MiB to where they are in the upper half. -/
theorem Loaded.leaf (h : Loaded initial tables t) {n : Nat} (outside : Outside n) :
    t.leaf n = if 2 ^ 35 + 512 ≤ n ∧ n < 2 ^ 35 + 1024 then (n - 2 ^ 35) * 4096 + 3 else 0 := by
  have bounded := outside.bounded
  rw [Machine.leaf]
  split_ifs with inside
  · have path : leafPath n = [256, 0, 1] := by
      simp only [leafPath, List.cons.injEq, and_true]
      omega
    rw [path, Machine.slot_of_table h.tableAt_pml1, h.content.pml1 _ (slot_lt n)]
    omega
  · cases here : t.tableAt (leafPath n) with
    | none => exact Machine.slot_of_none here _
    | some table =>
        have found := h.tableAt (leafPath_allowed outside) here
        simp only [tablePaths, leafPath, List.mem_cons, Prod.mk.injEq, List.cons.injEq,
          reduceCtorEq, and_false, false_and, and_true, List.not_mem_nil, or_false,
          false_or] at found
        omega

/-- Without large pages the walk of the processor is the walk of `Machine.translate`. -/
theorem processorTranslate_plain {address : Nat}
    (plain : ∀ path table i, path.length < 3 → t.tableAt path = some table →
      isLarge (t.memory table i) = false) :
    processorTranslate t.memory t.cr3 address = t.translate address := by
  simp only [processorTranslate, Machine.translate, Machine.tableAt, walkPath, descend]
  refine Option.bind_congr fun pml3 first => Option.bind_congr fun pml2 second => ?_
  have here : t.tableAt [address / 2 ^ 39 % 512] = some pml3 := by
    simp only [Machine.tableAt, descend, first, Option.bind_some]
  have below : t.tableAt [address / 2 ^ 39 % 512, address / 2 ^ 30 % 512] = some pml2 := by
    simp only [Machine.tableAt, descend, first, second, Option.bind_some]
  rw [if_neg (by rw [plain _ _ _ (by simp) here]; decide)]
  refine Option.bind_congr fun pml1 third => ?_
  rw [if_neg (by rw [plain _ _ _ (by simp) below]; decide), Option.bind_fun_some]

/-- A table above the last level, through the window or not. -/
theorem Loaded.upper (h : Loaded initial tables t) {path : List Nat} {table : Nat}
    (short : path.length < 3) (here : t.tableAt path = some table) :
    table ∈ [physicalAddress tables.pml4 / 4096, physicalAddress tables.pml3 / 4096,
      physicalAddress tables.pml2 / 4096] := by
  have next (i : Nat) {above : Nat} (member : above ∈ [physicalAddress tables.pml4 / 4096,
      physicalAddress tables.pml3 / 4096]) (found : child (t.memory above i) = some table) :
      table ∈ [physicalAddress tables.pml4 / 4096, physicalAddress tables.pml3 / 4096,
        physicalAddress tables.pml2 / 4096] := by
    rcases List.mem_pair.mp member with rfl | rfl
    · rw [(h.children i).1] at found
      grind
    · rw [(h.children i).2.1] at found
      grind
  rw [Machine.tableAt, h.cr3] at here
  rcases path with _ | ⟨i, _ | ⟨j, _ | ⟨k, rest⟩⟩⟩
  · rw [descend_nil, Option.some.injEq] at here
    simp [here]
  · simp only [descend, Option.bind_fun_some] at here
    exact next i (by simp) here
  · simp only [descend, Option.bind_fun_some] at here
    obtain ⟨above, first, second⟩ := Option.bind_eq_some_iff.mp here
    rw [(h.children i).1] at first
    exact next j (by grind) second
  · simp only [List.length_cons] at short
    omega

theorem Loaded.processorTranslate (h : Loaded initial tables t) (address : Nat) :
    processorTranslate t.memory t.cr3 address = t.translate address := by
  refine processorTranslate_plain fun path table i short here => ?_
  have zero : isLarge 0 = false := by decide
  have member := h.upper short here
  simp only [List.mem_cons, List.not_mem_nil, or_false] at member
  rcases member with rfl | rfl | rfl
  · rw [h.content.pml4, apply_ite isLarge, apply_ite isLarge, isLarge_present,
      isLarge_present, zero, ite_self, ite_self]
  · rw [h.content.pml3, apply_ite isLarge, isLarge_present, zero, ite_self]
  · rw [h.content.pml2, apply_ite isLarge, isLarge_present, zero, ite_self]

end Loaded

theorem image_place {x : Nat} (bounded : x < 2 ^ 30) :
    page (kernelVirtualOffset + x) = 2 ^ 35 + x / 4096 ∧ Outside (page (kernelVirtualOffset + x)) ∧
      Covered (kernelVirtualOffset + x) ∧ (kernelVirtualOffset + x) / 4096 % 2 ^ 18 = x / 4096 := by
  simp only [page, Outside, Covered, kernelVirtualOffset]
  omega

/-- The switch as a whole. Before it the processor sees the first gigabyte twice, after it
    2 MiB of the image and the window; the image of the kernel stays where it is exactly
    when it ends within the first 4 MiB. -/
theorem boot_switches (layout : Layout initial tables) (memory : Nat → Nat → Nat) (pools : Machine)
    (fuel first last : Nat)
    (enough : 512 ≤ fuel)
    (blank : ∀ frame ∈ bootFrames initial tables, ∀ word, memory frame word = 0)
    (above : 0x200000 ≤ first) (some_code : first < last) (below : last ≤ 2 ^ 30) :
    ∃ s t, buildPageTables initial fuel memory = some s ∧
      initPageTables tables { pools with memory := s.memory, cr3 := s.cr3 } = .ok () t ∧
      (∀ address, processorTranslate s.memory s.cr3 address =
        if Covered address then some (address / 4096 % 2 ^ 18) else none) ∧
      TableTree t ∧
      (∀ address, processorTranslate t.memory t.cr3 address = t.translate address) ∧
      (∀ address, Outside (page address) → t.translate address =
        if 2 ^ 35 + 512 ≤ page address ∧ page address < 2 ^ 35 + 1024 then
          some (page address - 2 ^ 35)
        else none) ∧
      ((∀ address, kernelVirtualOffset + first ≤ address → address < kernelVirtualOffset + last →
        processorTranslate t.memory t.cr3 address = processorTranslate s.memory s.cr3 address) ↔
          last ≤ 0x400000) := by
  simp only [bootFrames, List.forall_mem_map] at blank
  obtain ⟨s, built, cr3, content, kept⟩ := buildPageTables_bootstrapped memory layout enough
    fun a member => blank a (by
      simp only [List.mem_cons, List.not_mem_nil, or_false] at member ⊢
      tauto)
  have elsewhere := layout.elsewhere
  obtain ⟨t, ran, -, cr3', content'⟩ :=
    initPageTables_installs (s := { pools with memory := s.memory, cr3 := s.cr3 })
    layout ⟨cr3, content⟩ fun a member word => by
      show s.memory (physicalAddress a / 4096) word = 0
      rw [kept _ (elsewhere a member)]
      refine blank (physicalAddress a) ?_ word
      simp only [List.mem_cons, List.not_mem_nil, or_false] at member ⊢
      rcases member with rfl | rfl | rfl | rfl <;> simp
  have loaded : Loaded initial tables t := ⟨layout, cr3', content'⟩
  have before : ∀ address, processorTranslate s.memory s.cr3 address = _ := fun address =>
    (congrArg (fun root => processorTranslate s.memory root address) cr3).trans
      (content.translate layout address)
  have after : ∀ address, Outside (page address) → t.translate address =
      if 2 ^ 35 + 512 ≤ page address ∧ page address < 2 ^ 35 + 1024 then
        some (page address - 2 ^ 35)
      else none := by
    intro address outside
    have bounded := outside.bounded
    rw [translate_eq, loaded.leaf outside, apply_ite child, child_present (by omega), child_zero]
  have image : ∀ x < 2 ^ 30, processorTranslate s.memory s.cr3 (kernelVirtualOffset + x) =
    some (x / 4096) ∧
      processorTranslate t.memory t.cr3 (kernelVirtualOffset + x) =
        if 512 ≤ x / 4096 ∧ x / 4096 < 1024 then some (x / 4096) else none := by
    intro x bounded
    obtain ⟨number, outside, covered, frame⟩ := image_place bounded
    rw [before, if_pos covered, frame, loaded.processorTranslate, after _ outside, number]
    simp only [Nat.add_le_add_iff_left, Nat.add_lt_add_iff_left, Nat.add_sub_cancel_left, true_and]
  refine ⟨s, t, built, ran, before, loaded.tree, loaded.processorTranslate, after, fun same => ?_,
    fun fits address inside short => ?_⟩
  · by_contra long
    obtain ⟨mapped, gone⟩ := image (last - 1) (by omega)
    rw [same _ (by omega) (by omega), mapped, if_neg (by omega)] at gone
    exact absurd gone (by simp)
  · obtain ⟨x, rfl⟩ := Nat.exists_eq_add_of_le ((Nat.le_add_right _ _).trans inside)
    obtain ⟨mapped, still⟩ := image x (by omega)
    rw [mapped, still, if_pos (by omega)]

end Switch

/-- Tables in an image at 2 MiB. -/
def sampleInitial : InitialTables := ⟨0x201000, 0x202000, 0x203000⟩

def sampleTables : KernelTables :=
  ⟨kernelVirtualOffset + 0x210000, kernelVirtualOffset + 0x211000, kernelVirtualOffset + 0x212000,
    kernelVirtualOffset + 0x213000⟩

theorem sampleLayout : Layout sampleInitial sampleTables := ⟨by decide, by decide, by decide⟩

theorem boot_switches_sample :
    ∃ s t, buildPageTables sampleInitial 512 (fun _ _ => 0) = some s ∧
      initPageTables sampleTables
        { memory := s.memory, cr3 := s.cr3, physicalMemory := {}, virtualMemory := {} } =
        .ok () t ∧
      processorTranslate t.memory t.cr3 0xFFFF800000234567 =
        processorTranslate s.memory s.cr3 0xFFFF800000234567 := by
  obtain ⟨s, t, built, ran, -, -, -, -, image⟩ := boot_switches sampleLayout (fun _ _ => 0)
    { memory := fun _ _ => 0, cr3 := 0, physicalMemory := {}, virtualMemory := {} } 512 0x2000E8
    0x300000 (by decide) (fun _ _ _ => rfl) (by decide) (by decide) (by decide)
  exact ⟨s, t, built, ran, image.mpr (by decide) _ (by decide) (by decide)⟩

end Mykonos.Boot
