import Mathlib.Data.BitVec
import Mathlib.Logic.Function.Basic
import Mathlib.Tactic.Common

/-! # IO-APICs

`apic.h` and the part of `apic.cpp` about the chips that route interrupts. A chip
shows two words of memory: the first selects a register, the second is the register
selected. Each interrupt line of a chip has a redirection entry of two registers.
-/

namespace Mykonos.Apic

/-! ## Descriptors -/

structure LocalApicDescriptor where
  apicId : Nat
  deriving Repr, DecidableEq

structure IoApicDescriptor where
  physicalAddress : Nat
  gsiBase : Nat
  deriving Repr, DecidableEq

/-- `MAX_LOCAL_APICS`. -/
abbrev maxLocalApics : Nat := 64

/-- `MAX_IO_APICS`. -/
abbrev maxIoApics : Nat := 8

/-- `IO_APIC_INTERRUPT_BASE`. -/
abbrev ioApicInterruptBase : Nat := 0x20

/-! ## A chip -/

structure Chip where
  select : Nat
  registers : Nat → BitVec 32

/-- `mmio::read` of a word of the chip. -/
def mmioRead (word : Nat) : StateM Chip (BitVec 32) := fun c =>
  (if word = 0 then BitVec.ofNat 32 c.select else if word = 4 then c.registers c.select else 0, c)

/-- `mmio::write` of a word of the chip. -/
def mmioWrite (word : Nat) (value : BitVec 32) : StateM Chip Unit := fun c =>
  ((), if word = 0 then { c with select := value.toNat }
    else if word = 4 then { c with registers := Function.update c.registers c.select value }
    else c)

def readRegister (registerIndex : Nat) : StateM Chip (BitVec 32) := do
  mmioWrite 0 (BitVec.ofNat 32 registerIndex)
  mmioRead 4

def writeRegister (registerIndex : Nat) (value : BitVec 32) : StateM Chip Unit := do
  mmioWrite 0 (BitVec.ofNat 32 registerIndex)
  mmioWrite 4 value

/-- What `mapGsi` puts into the low half of an entry: the vector, the trigger mode and
    the polarity. -/
def routeWord (vector : BitVec 32) (levelTriggered activeHigh : Bool) : BitVec 32 :=
  vector <<< 0 ||| (BitVec.ofBool levelTriggered).setWidth 32 <<< 15 |||
    (BitVec.ofBool !activeHigh).setWidth 32 <<< 13

/-- The low half of the entry is changed in place. -/
def mapGsi (gsi : Nat) (vector : BitVec 32) (levelTriggered activeHigh : Bool)
    (targetLocalApic : BitVec 8) :
    StateM Chip Unit := do
  let redirectionEntry ← readRegister (0x10 + gsi * 2)
  let redirectionEntry := redirectionEntry ||| vector <<< 0
  let redirectionEntry := redirectionEntry ||| (BitVec.ofBool levelTriggered).setWidth 32 <<< 15
  let redirectionEntry := redirectionEntry ||| (BitVec.ofBool !activeHigh).setWidth 32 <<< 13
  writeRegister (0x10 + gsi * 2) redirectionEntry
  writeRegister (0x10 + gsi * 2 + 1) (targetLocalApic.setWidth 32 <<< 24)

def maskGsi (gsi : Nat) : StateM Chip Unit := do
  writeRegister (0x10 + gsi * 2) ((← readRegister (0x10 + gsi * 2)) ||| (1 : BitVec 32) <<< 16)

def unmaskGsi (gsi : Nat) : StateM Chip Unit := do
  writeRegister (0x10 + gsi * 2) ((← readRegister (0x10 + gsi * 2)) &&& ~~~((1 : BitVec 32) <<< 16))

/-! ## The chips of the machine -/

structure IoApic where
  chip : Chip
  gsiCount : Nat
  gsiBase : Nat

/-- The number of lines that a chip reports, encoded as one less. -/
def readGsiCount : StateM Chip Nat := do
  return (((← readRegister 1) >>> 16) &&& 0xff).toNat + 1

/-- The loop of `initIoApics`, over the descriptors and the chips found behind their
    addresses; `none` is the panic at a base that does not continue the last chip. -/
def initLoop : Nat → List (IoApicDescriptor × Chip) → Option (List IoApic)
  | _, [] => some []
  | nextGsiBase, (descriptor, chip) :: rest =>
      if descriptor.gsiBase ≠ nextGsiBase then none
      else
        let counted := readGsiCount.run chip
        (initLoop ((nextGsiBase + counted.1) % 2 ^ 32) rest).map
          (⟨counted.2, counted.1, descriptor.gsiBase⟩ :: ·)

def initIoApics (descriptors : List (IoApicDescriptor × Chip)) : Option (List IoApic) :=
  initLoop 0 descriptors

/-- The loop that `mapIoApicInterrupt`, `maskIoApicInterrupt` and
    `unmaskIoApicInterrupt` share: the first chip whose range has the interrupt is
    edited, and without one the kernel panics. -/
def editIoApic (gsi : Nat) (edit : Nat → StateM Chip Unit) : List IoApic → Option (List IoApic)
  | [] => none
  | a :: rest =>
      if a.gsiBase ≤ gsi ∧ gsi < (a.gsiBase + a.gsiCount) % 2 ^ 32 then
        some ({ a with chip := ((edit (gsi - a.gsiBase)).run a.chip).2 } :: rest)
      else (editIoApic gsi edit rest).map (a :: ·)

def mapIoApicInterrupt (localApicIds : Nat → BitVec 8) (gsi : Nat) (vector : BitVec 8)
    (levelTriggered activeHigh : Bool) (targetCpuNumber : Nat) :
    List IoApic → Option (List IoApic) :=
  editIoApic gsi fun line =>
    mapGsi line (vector.setWidth 32) levelTriggered activeHigh (localApicIds targetCpuNumber)

def maskIoApicInterrupt (gsi : Nat) : List IoApic → Option (List IoApic) := editIoApic gsi maskGsi

def unmaskIoApicInterrupt (gsi : Nat) : List IoApic → Option (List IoApic) :=
  editIoApic gsi unmaskGsi

def getGsiCount (ioApics : List IoApic) : Nat :=
  ioApics.foldl (fun result a => (result + a.gsiCount) % 2 ^ 32) 0

/-! ## What the calls do to a chip -/

section Registers

variable {index : Nat} {c : Chip}

theorem readRegister_run (small : index < 2 ^ 32) :
    (readRegister index).run c = pure (c.registers index, { c with select := index }) := by
  have same : (BitVec.ofNat 32 index).toNat = index := by
    rw [BitVec.toNat_ofNat]
    exact Nat.mod_eq_of_lt small
  show (c.registers (BitVec.ofNat 32 index).toNat,
    ({ c with select := (BitVec.ofNat 32 index).toNat } : Chip)) = _
  rw [same]
  rfl

theorem writeRegister_run (small : index < 2 ^ 32) (value : BitVec 32) :
    (writeRegister index value).run c =
      pure ((), { c with
        select := index
        registers := Function.update c.registers index value }) := by
  have same : (BitVec.ofNat 32 index).toNat = index := by
    rw [BitVec.toNat_ofNat]
    exact Nat.mod_eq_of_lt small
  show ((), ({ c with
    select := (BitVec.ofNat 32 index).toNat
    registers := Function.update c.registers (BitVec.ofNat 32 index).toNat value } : Chip)) = _
  rw [same]
  rfl

end Registers

/-- The two halves of a redirection entry. -/
structure Redirection where
  low : BitVec 32
  high : BitVec 32

def Chip.redirection (c : Chip) (line : Nat) : Redirection :=
  ⟨c.registers (0x10 + line * 2), c.registers (0x10 + line * 2 + 1)⟩

/-- A chip after an edit of one line: that line's entry is changed by `f` and every
    other register holds what it did. -/
structure Edited (c d : Chip) (line : Nat) (f : Redirection → Redirection) : Prop where
  entry : d.redirection line = f (c.redirection line)
  others : ∀ index, index ≠ 0x10 + line * 2 → index ≠ 0x10 + line * 2 + 1 →
    d.registers index = c.registers index

theorem Edited.redirection {c d : Chip} {line other : Nat} {f : Redirection → Redirection}
    (h : Edited c d line f) (different : other ≠ line) :
    d.redirection other = c.redirection other := by
  rw [Chip.redirection, Chip.redirection, h.others _ (by omega) (by omega),
    h.others _ (by omega) (by omega)]

namespace Redirection

/-- What mapping a line does to its entry. -/
def map (word : BitVec 32) (target : BitVec 8) (r : Redirection) : Redirection :=
  ⟨r.low ||| word, target.setWidth 32 <<< 24⟩

def mask (r : Redirection) : Redirection := { r with low := r.low ||| (1 : BitVec 32) <<< 16 }

def unmask (r : Redirection) : Redirection :=
  { r with low := r.low &&& ~~~((1 : BitVec 32) <<< 16) }

end Redirection

section Lines

variable {line : Nat} {c : Chip}

theorem mapGsi_edits (small : line < 2 ^ 16) (vector : BitVec 32) (levelTriggered activeHigh : Bool)
    (target : BitVec 8) :
    Edited c ((mapGsi line vector levelTriggered activeHigh target).run c).2 line
      (Redirection.map (routeWord vector levelTriggered activeHigh) target) := by
  have first : 0x10 + line * 2 < 2 ^ 32 := by omega
  have second : 0x10 + line * 2 + 1 < 2 ^ 32 := by omega
  have after : ((mapGsi line vector levelTriggered activeHigh target).run c).2 = {
      select := 0x10 + line * 2 + 1
      registers := Function.update
        (Function.update c.registers (0x10 + line * 2)
          (c.registers (0x10 + line * 2) ||| routeWord vector levelTriggered activeHigh))
        (0x10 + line * 2 + 1) (target.setWidth 32 <<< 24) } := by
    simp only [mapGsi, StateT.run_bind, readRegister_run first, writeRegister_run first,
      writeRegister_run second, pure_bind, routeWord, BitVec.or_assoc]
    rfl
  rw [after]
  constructor
  · simp [Chip.redirection, Redirection.map]
  · intro index low high
    simp [Function.update_of_ne low, Function.update_of_ne high]

/-- An edit of the low half alone. -/
theorem low_edits (small : line < 2 ^ 16) (f : BitVec 32 → BitVec 32) :
    Edited c
      ((do writeRegister (0x10 + line * 2) (f (← readRegister (0x10 + line * 2))) :
        StateM Chip Unit).run c).2
      line fun r => { r with low := f r.low } := by
  have first : 0x10 + line * 2 < 2 ^ 32 := by omega
  have after : ((do
      writeRegister (0x10 + line * 2) (f (← readRegister (0x10 + line * 2))) :
        StateM Chip Unit).run c).2 = {
        select := 0x10 + line * 2
        registers := Function.update c.registers (0x10 + line * 2)
            (f (c.registers (0x10 + line * 2))) } := by
    simp only [StateT.run_bind, readRegister_run first, writeRegister_run first, pure_bind]
    rfl
  rw [after]
  constructor
  · simp [Chip.redirection]
  · intro index low high
    simp [Function.update_of_ne low]

theorem maskGsi_edits (small : line < 2 ^ 16) : Edited c ((maskGsi line).run c).2 line .mask :=
  low_edits small (· ||| (1 : BitVec 32) <<< 16)

theorem unmaskGsi_edits (small : line < 2 ^ 16) :
    Edited c ((unmaskGsi line).run c).2 line .unmask :=
  low_edits small (· &&& ~~~((1 : BitVec 32) <<< 16))

end Lines

/-! ## Chips whose ranges follow one another -/

/-- The chip has a line for the interrupt. -/
def IoApic.Covers (a : IoApic) (gsi : Nat) : Prop := a.gsiBase ≤ gsi ∧ gsi < a.gsiBase + a.gsiCount

/-- The ranges begin at a base and leave no gap. -/
inductive Contiguous : Nat → List IoApic → Prop where
  | nil (base : Nat) : Contiguous base []
  | cons {base : Nat} {a : IoApic} {rest : List IoApic} (start : a.gsiBase = base)
      (count : a.gsiCount ≤ 256) (later : Contiguous (base + a.gsiCount) rest) :
        Contiguous base (a :: rest)

/-- The number of lines of all chips together. -/
def lines : List IoApic → Nat
  | [] => 0
  | a :: rest => a.gsiCount + lines rest

/-- The entry of an interrupt, in the chip that covers it. -/
def entry : List IoApic → Nat → Redirection
  | [], _ => ⟨0, 0⟩
  | a :: rest, gsi =>
      if gsi < a.gsiBase + a.gsiCount then a.chip.redirection (gsi - a.gsiBase) else entry rest gsi

/-- Only registers of the interrupt's entry have been written, in the only chip that
    covers it. -/
structure Confined (before after : List IoApic) (gsi : Nat) : Prop where
  chip : ∃ front a back chip, before = front ++ a :: back ∧
    after = front ++ { a with chip := chip } :: back ∧
    a.Covers gsi ∧ (∀ other ∈ front ++ back, ¬ other.Covers gsi) ∧
    ∀ index, index ≠ 0x10 + (gsi - a.gsiBase) * 2 → index ≠ 0x10 + (gsi - a.gsiBase) * 2 + 1 →
      chip.registers index = a.chip.registers index

theorem Contiguous.lines_le {base : Nat} {ioApics : List IoApic} (h : Contiguous base ioApics) :
    lines ioApics ≤ 256 * ioApics.length := by
  induction h with
  | nil => exact Nat.zero_le _
  | cons _ count _ ih =>
      simp only [lines, List.length_cons]
      omega

/-- A chip covers nothing below its base. -/
theorem Contiguous.above {base : Nat} {ioApics : List IoApic}
    (h : Contiguous base ioApics) {gsi : Nat} (below : gsi < base) :
    ∀ a ∈ ioApics, ¬ a.Covers gsi := by
  induction h with
  | nil => simp
  | cons start _ _ ih =>
      intro a member
      cases member with
      | head =>
          intro covers
          have := covers.1
          omega
      | tail _ later => exact ih (by omega) a later

theorem getGsiCount_eq {ioApics : List IoApic} (small : lines ioApics < 2 ^ 32) :
    getGsiCount ioApics = lines ioApics := by
  have sum : ∀ (l : List IoApic) (result : Nat), result + lines l < 2 ^ 32 →
      l.foldl (fun result a => (result + a.gsiCount) % 2 ^ 32) result = result + lines l := by
    intro l
    induction l with
    | nil => intro result _; rfl
    | cons a rest ih =>
        intro result small
        simp only [lines] at small ⊢
        rw [List.foldl_cons, Nat.mod_eq_of_lt (by omega), ih _ (by omega), Nat.add_assoc]
  rw [getGsiCount, sum _ _ (by omega), Nat.zero_add]

theorem readGsiCount_le (c : Chip) : (readGsiCount.run c).1 ≤ 256 := by
  simp only [readGsiCount, StateT.run_bind, readRegister_run (show 1 < 2 ^ 32 by decide), pure_bind]
  show ((c.registers 1 >>> 16) &&& 0xff).toNat + 1 ≤ 256
  rw [BitVec.toNat_and]
  exact Nat.succ_le_succ Nat.and_le_right

theorem initLoop_contiguous {descriptors : List (IoApicDescriptor × Chip)} {base : Nat}
    {ioApics : List IoApic} (accepted : initLoop base descriptors = some ioApics)
    (small : base + 256 * descriptors.length < 2 ^ 32) :
    Contiguous base ioApics ∧ ioApics.length = descriptors.length := by
  induction descriptors generalizing base ioApics with
  | nil =>
      cases accepted
      exact ⟨.nil base, rfl⟩
  | cons first rest ih =>
      obtain ⟨descriptor, chip⟩ := first
      simp only [initLoop] at accepted
      split at accepted
      · cases accepted
      · rename_i follows
        obtain ⟨later, found, same⟩ := Option.map_eq_some_iff.mp accepted
        subst same
        have count := readGsiCount_le chip
        generalize readGsiCount.run chip = counted at found count ⊢
        simp only [List.length_cons] at small
        rw [Nat.mod_eq_of_lt (by omega)] at found
        obtain ⟨contiguous, length⟩ := ih found (by omega)
        exact ⟨.cons (not_not.mp follows) count contiguous, congrArg (· + 1) length⟩

/-- The specification of an edit of the chip that covers an interrupt. -/
theorem editIoApic_spec {base gsi : Nat} {ioApics : List IoApic} {edit : Nat → StateM Chip Unit}
    {f : Redirection → Redirection} (h : Contiguous base ioApics)
    (small : base + lines ioApics < 2 ^ 32) (low : base ≤ gsi) (high : gsi < base + lines ioApics)
    (edits : ∀ line < 2 ^ 16, ∀ c, Edited c ((edit line).run c).2 line f) :
    ∃ after, editIoApic gsi edit ioApics = some after ∧ Confined ioApics after gsi ∧
      Contiguous base after ∧ lines after = lines ioApics ∧
      ∀ other, base ≤ other →
        entry after other = if other = gsi then f (entry ioApics gsi) else entry ioApics other := by
  induction h with
  | nil base => exact absurd high (by simp [lines]; omega)
  | @cons base a rest start count later ih =>
      simp only [lines] at small high
      have wrap : (a.gsiBase + a.gsiCount) % 2 ^ 32 = a.gsiBase + a.gsiCount :=
        Nat.mod_eq_of_lt (by omega)
      simp only [editIoApic, wrap]
      by_cases inside : gsi < a.gsiBase + a.gsiCount
      · have edited := edits (gsi - a.gsiBase) (by omega) a.chip
        refine ⟨{ a with chip := ((edit (gsi - a.gsiBase)).run a.chip).2 } :: rest,
          if_pos ⟨by omega, inside⟩,
          ⟨[], a, rest, _, rfl, rfl, ⟨by omega, inside⟩, ?_, edited.others⟩,
          .cons start count later, rfl, fun other above => ?_⟩
        · exact later.above (by omega)
        · simp only [entry]
          by_cases same : other = gsi
          · subst same
            rw [if_pos inside, if_pos inside, if_pos rfl, edited.entry]
          · rw [if_neg same]
            split
            · exact edited.redirection (by omega)
            · rfl
      · obtain ⟨after, changed, ⟨front, b, back, chip, parts, parts', covers, others, kept⟩,
          contiguous, length,
            entries⟩ :=
          ih (by omega) (by omega) (by omega)
        have outside : ¬ (a.gsiBase ≤ gsi ∧ gsi < a.gsiBase + a.gsiCount) :=
          fun both => inside both.2
        refine ⟨a :: after, ?_, ⟨a :: front, b, back, chip, ?_, ?_, covers, ?_, kept⟩,
          .cons start count contiguous, ?_, fun other above => ?_⟩
        · rw [if_neg outside, changed]
          rfl
        · rw [parts]
          rfl
        · rw [parts']
          rfl
        · intro other member
          cases member with
          | head => exact outside
          | tail _ elsewhere => exact others other elsewhere
        · simp only [lines, length]
        · simp only [entry, inside, if_false]
          by_cases here : other < a.gsiBase + a.gsiCount
          · rw [if_pos here, if_pos here, if_neg (by omega)]
          · rw [if_neg here, if_neg here]
            exact entries other (by omega)

end Mykonos.Apic
