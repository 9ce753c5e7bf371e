import Mykonos.Lib.Words

/-! # The interrupt table

`idt.h` and `interrupts::init`: the processor finds the function of every vector in the
table, with interrupts off in it unless the vector is that of an exception. The constructor
of an entry leaves some of its bits as they happen to be.
-/

namespace Mykonos.Interrupts

open Lib

/-! ## What the processor reads -/

/-- A descriptor of the interrupt table. -/
structure Gate where
  offset : Word
  selector : BitVec 16
  ist : BitVec 3
  /-- Interrupts stay as they are. -/
  trap : Bool
  deriving Repr, DecidableEq

/-- A descriptor in two words. It has to be present, and an interrupt gate or a trap gate
    of the system. -/
def gate? (low high : Word) : Option Gate :=
  if low.getLsbD 47 = true ∧ low.getLsbD 44 = false ∧ low.extractLsb' 41 3 = 7 then
    some {
      offset := high.extractLsb' 0 32 ++ low.extractLsb' 48 16 ++ low.extractLsb' 0 16
      selector := low.extractLsb' 16 16
      ist := low.extractLsb' 32 3
      trap := low.getLsbD 40 }
  else none

/-- What `lidt` loads. -/
structure IdtPointer where
  /-- Size less one. -/
  limit : BitVec 16
  pointer : Word
  deriving Repr, DecidableEq

/-- The descriptor of a vector, unless it is outside the table. -/
def fetch (memory : Store) (idtPointer : IdtPointer) (vector : BitVec 8) : Option Gate :=
  if vector.toNat * 16 + 15 ≤ idtPointer.limit.toNat then
    gate? (memory.read (idtPointer.pointer + vector.setWidth 64 * 16))
      (memory.read (idtPointer.pointer + vector.setWidth 64 * 16 + 8))
  else none

/-! ## What the kernel writes -/

@[ext] structure IdtEntry where
  offsetLow : BitVec 16
  gdtSelector : BitVec 16
  istEntry : BitVec 8
  type : BitVec 4
  zero : BitVec 1
  privilege : BitVec 2
  present : BitVec 1
  offsetMiddle : BitVec 16
  offsetHigh : BitVec 32
  reserved : BitVec 32
  deriving Repr, DecidableEq

namespace IdtEntry

/-- The constructor. `before` is what the bytes held that it is given. -/
def ofFunction (before : IdtEntry) (function : Word) (istNum : BitVec 8) (trap : Bool) : IdtEntry :=
  { before with
    gdtSelector := 8
    istEntry := istNum
    type := if trap then 0xF else 0xE
    present := 1
    offsetLow := (function &&& 0xFFFF).setWidth 16
    offsetMiddle := ((function >>> 16) &&& 0xFFFF).setWidth 16
    offsetHigh := (function >>> 16 >>> 16).setWidth 32 }

/-- The first eight bytes. -/
def low (entry : IdtEntry) : Word :=
  entry.offsetMiddle ++ entry.present ++ entry.privilege ++ entry.zero ++ entry.type ++
    entry.istEntry ++
    entry.gdtSelector ++ entry.offsetLow

/-- The last eight bytes. -/
def high (entry : IdtEntry) : Word := entry.reserved ++ entry.offsetHigh

end IdtEntry

/-- The bytes of an entry at an address, as words. -/
def IdtEntry.words (entry : IdtEntry) (address : Word) : List (Word × Word) :=
  [(address, entry.low), (address + 8, entry.high)]

/-- `idt` is where the table is. -/
def init (idtFunctions : BitVec 8 → Word) (before : BitVec 8 → IdtEntry) (idt : Word)
    (memory : Store) :
    Store × IdtPointer :=
  (memory.writeAll ((List.range 256).flatMap fun i =>
    (IdtEntry.ofFunction (before (BitVec.ofNat 8 i)) (idtFunctions (BitVec.ofNat 8 i)) 0
      (decide (i < 32))).words
      (idt + BitVec.ofNat 64 (16 * i))), ⟨BitVec.ofNat 16 (16 * 256 - 1), idt⟩)

/-! ## The two agree -/

/-- The gate that a vector is to have. -/
def gateOf (idtFunctions : BitVec 8 → Word) (vector : BitVec 8) : Gate where
  offset := idtFunctions vector
  selector := 8
  ist := 0
  trap := decide (vector.toNat < 32)

namespace IdtEntry

theorem low_getLsbD (entry : IdtEntry) (i : Nat) : entry.low.getLsbD i =
    if i < 16 then entry.offsetLow.getLsbD i
    else if i < 32 then entry.gdtSelector.getLsbD (i - 16)
    else if i < 40 then entry.istEntry.getLsbD (i - 32)
    else if i < 44 then entry.type.getLsbD (i - 40)
    else if i < 45 then entry.zero.getLsbD (i - 44)
    else if i < 47 then entry.privilege.getLsbD (i - 45)
    else if i < 48 then entry.present.getLsbD (i - 47)
    else entry.offsetMiddle.getLsbD (i - 48) := by
  simp only [low, BitVec.getLsbD_append]
  grind

/-- A field of the first eight bytes, by where its bits are. -/
theorem low_field (entry : IdtEntry) {start width : Nat} {field : BitVec width}
    (bits : ∀ i < width, entry.low.getLsbD (start + i) = field.getLsbD i) :
    entry.low.extractLsb' start width = field := by
  refine BitVec.eq_of_getLsbD_eq fun i inside => ?_
  rw [BitVec.getLsbD_extractLsb', decide_eq_true inside, Bool.true_and, bits i inside]

theorem low_offsetLow (entry : IdtEntry) : entry.low.extractLsb' 0 16 = entry.offsetLow :=
  entry.low_field fun i inside => by grind [low_getLsbD]

theorem low_gdtSelector (entry : IdtEntry) : entry.low.extractLsb' 16 16 = entry.gdtSelector :=
  entry.low_field fun i inside => by grind [low_getLsbD]

theorem low_istEntry (entry : IdtEntry) : entry.low.extractLsb' 32 3 = entry.istEntry.setWidth 3 :=
  entry.low_field fun i inside => by grind [low_getLsbD]

theorem low_offsetMiddle (entry : IdtEntry) : entry.low.extractLsb' 48 16 = entry.offsetMiddle :=
  entry.low_field fun i inside => by grind [low_getLsbD]

theorem low_type (entry : IdtEntry) : entry.low.extractLsb' 41 3 = entry.type.extractLsb' 1 3 :=
  entry.low_field fun i inside => by grind [low_getLsbD]

theorem high_offsetHigh (entry : IdtEntry) : entry.high.extractLsb' 0 32 = entry.offsetHigh := by
  refine BitVec.eq_of_getLsbD_eq fun i inside => ?_
  rw [high, BitVec.getLsbD_extractLsb', decide_eq_true inside, BitVec.getLsbD_append]
  grind

end IdtEntry

theorem setWidth_mask (word : Word) : (word &&& 0xFFFF).setWidth 16 = word.setWidth 16 := by
  rw [BitVec.setWidth_and, show (0xFFFF : Word).setWidth 16 = BitVec.allOnes 16 from rfl,
    BitVec.and_allOnes]

theorem join_offset (function : Word) :
    (function >>> 16 >>> 16).setWidth 32 ++ ((function >>> 16) &&& 0xFFFF).setWidth 16 ++
      (function &&& 0xFFFF).setWidth 16 = function := by
  rw [setWidth_mask, setWidth_mask]
  refine BitVec.eq_of_getLsbD_eq fun i inside => ?_
  simp only [BitVec.getLsbD_append, BitVec.getLsbD_setWidth, BitVec.getLsbD_ushiftRight]
  grind

theorem gate?_ofFunction (before : IdtEntry) (function : Word) (trap : Bool) :
    gate? (IdtEntry.ofFunction before function 0 trap).low
      (IdtEntry.ofFunction before function 0 trap).high =
      if before.zero = 0 then some ⟨function, 8, 0, trap⟩ else none := by
  obtain ⟨entry, made⟩ : ∃ entry, entry = IdtEntry.ofFunction before function 0 trap := ⟨_, rfl⟩
  have present : entry.low.getLsbD 47 = true := by
    rw [IdtEntry.low_getLsbD]
    simp [made, IdtEntry.ofFunction]
  have zero : entry.low.getLsbD 44 = false ↔ before.zero = 0 := by
    rw [IdtEntry.low_getLsbD]
    rcases BitVec.eq_zero_or_eq_one before.zero with clear | set
    · simp [made, IdtEntry.ofFunction, clear]
    · simp [made, IdtEntry.ofFunction, set]
  have kind : entry.low.extractLsb' 41 3 = 7 := by
    have types : (if trap then (0xF : BitVec 4) else 0xE).extractLsb' 1 3 = 7 := by
      cases trap <;> decide
    rw [IdtEntry.low_type, made, IdtEntry.ofFunction, types]
  have trapped : entry.low.getLsbD 40 = trap := by
    rw [IdtEntry.low_getLsbD]
    cases trap <;> simp [made, IdtEntry.ofFunction]
  rw [← made, gate?]
  simp only [present, zero, kind, trapped, true_and, and_true]
  congr 2
  rw [IdtEntry.high_offsetHigh, IdtEntry.low_offsetMiddle, IdtEntry.low_offsetLow,
    IdtEntry.low_gdtSelector, IdtEntry.low_istEntry, made]
  congr
  exact join_offset function

theorem apart_words (address : Word) {i j : Nat} (less : i < j) (small : j < 2 ^ 32) :
    Apart (address + BitVec.ofNat 64 (8 * i)) 8 (address + BitVec.ofNat 64 (8 * j)) 8 := by
  rw [apart_add]
  have left : (BitVec.ofNat 64 (8 * i)).toNat = 8 * i := by
    rw [BitVec.toNat_ofNat, Nat.mod_eq_of_lt (by omega)]
  have right : (BitVec.ofNat 64 (8 * j)).toNat = 8 * j := by
    rw [BitVec.toNat_ofNat, Nat.mod_eq_of_lt (by omega)]
  constructor
  · rw [BitVec.toNat_sub_of_le (by rw [BitVec.le_def]; omega)]
    omega
  · rw [BitVec.toNat_sub]
    omega

theorem entries_apart (entry : Nat → IdtEntry) (idt : Word) :
    ((List.range 256).flatMap fun i => (entry i).words (idt + BitVec.ofNat 64 (16 * i))).Pairwise
      fun one other => Apart one.1 8 other.1 8 := by
  have place (i : Nat) {word : Word × Word} (member : word ∈
    (entry i).words (idt + BitVec.ofNat 64 (16 * i))) :
      ∃ k, 2 * i ≤ k ∧ k ≤ 2 * i + 1 ∧ word.1 = idt + BitVec.ofNat 64 (8 * k) := by
    simp only [IdtEntry.words, List.mem_cons, List.not_mem_nil, or_false] at member
    rcases member with rfl | rfl
    · exact ⟨2 * i, Nat.le_refl _, Nat.le_succ _, by rw [← Nat.mul_assoc]⟩
    · refine ⟨2 * i + 1, Nat.le_succ _, Nat.le_refl _, ?_⟩
      rw [Nat.mul_add, BitVec.ofNat_add, ← BitVec.add_assoc, ← Nat.mul_assoc]
      rfl
  rw [List.pairwise_flatMap]
  refine ⟨fun i member => List.pairwise_pair.mpr ?_, ?_⟩
  · have small := List.mem_range.mp member
    have apart := apart_words idt (Nat.lt_succ_self (2 * i)) (by omega)
    rw [Nat.mul_succ 8 (2 * i), BitVec.ofNat_add, ← BitVec.add_assoc, ← Nat.mul_assoc] at apart
    exact apart
  · refine List.pairwise_lt_range.imp_of_mem fun {i j} _ inside less one member other member' => ?_
    obtain ⟨k, -, below, here⟩ := place i member
    obtain ⟨k', above, high, there⟩ := place j member'
    have small := List.mem_range.mp inside
    rw [here, there]
    exact apart_words idt (by omega) (by omega)

theorem fetch_of_words {memory : Store} {idtPointer : IdtPointer} {vector : BitVec 8}
    {low high : Word} (inside : vector.toNat * 16 + 15 ≤ idtPointer.limit.toNat)
    (first : memory.read (idtPointer.pointer + vector.setWidth 64 * 16) = low)
    (second : memory.read (idtPointer.pointer + vector.setWidth 64 * 16 + 8) = high) :
    fetch memory idtPointer vector = gate? low high := by
  rw [fetch, if_pos inside, first, second]

/-- After `init` the processor finds for every vector the gate that it is to have, unless
    the bit that has to be clear was set where the constructor was given its bytes. -/
theorem init_fetch (idtFunctions : BitVec 8 → Word) (before : BitVec 8 → IdtEntry) (idt : Word)
    (memory : Store) (vector : BitVec 8) :
    fetch (init idtFunctions before idt memory).1 (init idtFunctions before idt memory).2 vector =
      if (before vector).zero = 0 then some (gateOf idtFunctions vector) else none := by
  obtain ⟨entry, made⟩ : ∃ entry : Nat → IdtEntry, entry = fun i =>
    IdtEntry.ofFunction (before (BitVec.ofNat 8 i)) (idtFunctions (BitVec.ofNat 8 i)) 0
      (decide (i < 32)) := ⟨_, rfl⟩
  have apart := entries_apart entry idt
  have member : ∀ word ∈ (entry vector.toNat).words (idt + BitVec.ofNat 64 (16 * vector.toNat)),
      word ∈ (List.range 256).flatMap fun i => (entry i).words (idt + BitVec.ofNat 64 (16 * i)) :=
        fun word inside =>
    List.mem_flatMap.mpr ⟨vector.toNat, List.mem_range.mpr vector.isLt, inside⟩
  have first := Store.read_writeAll_of_mem memory apart (member _ List.mem_cons_self)
  have second := Store.read_writeAll_of_mem memory apart
    (member _ (List.mem_cons_of_mem _ List.mem_cons_self))
  have place : vector.setWidth 64 * 16 = BitVec.ofNat 64 (16 * vector.toNat) := by
    have small := vector.isLt
    refine BitVec.eq_of_toNat_eq ?_
    simp
    omega
  have found : (entry vector.toNat) =
      IdtEntry.ofFunction (before vector) (idtFunctions vector) 0 (decide (vector.toNat < 32)) := by
    simp only [made, BitVec.ofNat_toNat, BitVec.setWidth_eq]
  have limit : vector.toNat * 16 + 15 ≤ (init idtFunctions before idt memory).2.limit.toNat := by
    have small := vector.isLt
    have size : (init idtFunctions before idt memory).2.limit.toNat = 4095 := rfl
    omega
  have stands : (init idtFunctions before idt memory).1 =
      memory.writeAll ((List.range 256).flatMap fun i =>
        (entry i).words (idt + BitVec.ofNat 64 (16 * i))) := by
    simp only [init, made]
  rw [← place] at first second
  rw [← stands] at first second
  rw [fetch_of_words limit first second, found, gate?_ofFunction]
  rfl

end Mykonos.Interrupts
