import Mykonos.Lib.Words

/-! # Switching registers

`swapRegisters` and `restoreRegisters`, instruction by instruction. The calls they make
follow the calling convention and may leave anything in the registers it does not
protect. Every address these routines use is taken to be mapped, and to the same memory
in every address space.
-/

namespace Mykonos.Tasks.Switch

open Lib

/-! ## The processor -/

inductive Register where
  | rax | rcx | rdx | rbx | rsp | rbp | rsi | rdi | r8 | r9 | r10 | r11 | r12 | r13 | r14 | r15
  deriving Repr, DecidableEq

/-- The bits of `RFLAGS` that `popfq` loads. -/
def loadable : Word := 0x247FD5

/-- `RFLAGS`: of the other bits the second is set and the rest are clear. -/
structure Flags where
  word : Word
  fixed : word &&& ~~~loadable = 2

/-- The word can stand in `RFLAGS`. -/
def Held (word : Word) : Prop := word &&& ~~~loadable = 2

instance (word : Word) : Decidable (Held word) := inferInstanceAs (Decidable (_ = _))

namespace Flags

/-- What `popfq` makes of a word. -/
def load (word : Word) : Flags where
  word := (word &&& loadable) ||| 2
  fixed := by
    rw [BitVec.and_or_distrib_right, BitVec.and_assoc, show loadable &&& ~~~loadable = 0#64
      from rfl, BitVec.and_zero]
    rfl

/-- `ZF`. -/
def zero (flags : Flags) : Bool := flags.word.getLsbD 6

/-- One flag of a comparison. -/
def status (bit : Nat) (set : Bool) : Word := if set then BitVec.twoPow 64 bit else 0

/-- The flags after `b` has been subtracted from `a`: `CF`, `PF`, `AF`, `ZF`, `SF` and
    `OF` are set by the difference and the others stay. -/
def compare (flags : Flags) (a b : Word) : Flags :=
  load ((flags.word &&& ~~~0x8D5) ||| status 0 (a.ult b) |||
    status 2 (((List.range 8).filter (a - b).getLsbD).length % 2 == 0) |||
    status 4 ((a &&& 15).ult (b &&& 15)) ||| status 6 (a == b) ||| status 7 (a - b).msb |||
    status 11 (a.msb != b.msb && (a - b).msb != a.msb))

end Flags

/-- `rip` is where execution goes on when a routine has returned. -/
structure Processor where
  register : Register → Word
  cr3 : Word
  rip : Word
  rflags : Flags
  memory : Store

inductive Operand where
  | register (name : Register)
  /-- `offset(%base)`. -/
  | memory (offset : Word) (base : Register)
  | cr3
  deriving Repr, DecidableEq

inductive Function where
  | unlockTask
  | lockTask
  deriving Repr, DecidableEq

inductive Instruction where
  | movq (source destination : Operand)
  | pushq (source : Operand)
  | popq (destination : Operand)
  | pushfq
  | popfq
  /-- The second less the first. -/
  | cmp (first second : Register)
  | je (target : Nat)
  | label (name : Nat)
  | call (function : Function)
  | retq
  deriving Repr, DecidableEq

namespace Processor

def value (p : Processor) : Operand → Word
  | .register name => p.register name
  | .memory offset base => p.memory.read (p.register base + offset)
  | .cr3 => p.cr3

def set (p : Processor) (name : Register) (value : Word) : Processor :=
  { p with register := Function.update p.register name value }

def assign (p : Processor) (value : Word) : Operand → Processor
  | .register name => p.set name value
  | .memory offset base => { p with memory := p.memory.write (p.register base + offset) value }
  | .cr3 => { p with cr3 := value }

def push (p : Processor) (value : Word) : Processor :=
  { p.set .rsp (p.register .rsp - 8) with memory := p.memory.write (p.register .rsp - 8) value }

/-- The word on top of the stack. -/
def top (p : Processor) : Word := p.memory.read (p.register .rsp)

def drop (p : Processor) : Processor := p.set .rsp (p.register .rsp + 8)

end Processor

namespace Processor

@[simp] theorem set_self (p : Processor) (name : Register) (value : Word) :
    (p.set name value).register name = value :=
  Function.update_self _ _ _

theorem set_of_ne (p : Processor) {name other : Register} (different : other ≠ name)
    (value : Word) :
    (p.set name value).register other = p.register other := Function.update_of_ne different _ _

@[simp] theorem push_rsp (p : Processor) (value : Word) :
    (p.push value).register .rsp = p.register .rsp - 8 :=
  p.set_self .rsp _

theorem push_of_ne (p : Processor) {name : Register} (different : name ≠ .rsp) (value : Word) :
    (p.push value).register name = p.register name := p.set_of_ne different _

@[simp] theorem drop_rsp (p : Processor) : p.drop.register .rsp = p.register .rsp + 8 :=
  p.set_self .rsp _

theorem drop_of_ne (p : Processor) {name : Register} (different : name ≠ .rsp) :
    p.drop.register name = p.register name := p.set_of_ne different _

end Processor

/-- What the functions outside the two routines do, from the call to the return. -/
abbrev Calls := Function → Processor → Processor

/-- One instruction that does not jump. -/
def execute (calls : Calls) (p : Processor) : Instruction → Processor
  | .movq source destination => p.assign (p.value source) destination
  | .pushq source => p.push (p.value source)
  | .popq destination => p.drop.assign p.top destination
  | .pushfq => p.push p.rflags.word
  | .popfq => { p.drop with rflags := Flags.load p.top }
  | .cmp first second =>
      { p with rflags := p.rflags.compare (p.register second) (p.register first) }
  | .call function => calls function p
  | .retq => { p.drop with rip := p.top }
  | .je _ | .label _ => p

/-- The rest of a routine, from the instruction on, or from a label further down. -/
def run (calls : Calls) : List Instruction → Option Nat → Processor → Processor
  | [], _, p => p
  | instruction :: rest, some target, p =>
      run calls rest (if instruction = .label target then none else some target) p
  | .je target :: rest, none, p => run calls rest (if p.rflags.zero then some target else none) p
  | instruction :: rest, none, p => run calls rest none (execute calls p instruction)

/-! ## `struct Registers` -/

/-- `RAX_OFFSET` and so on. -/
def Register.offset : Register → Word
  | rax => 0
  | rcx => 8
  | rdx => 16
  | rbx => 24
  | rsp => 32
  | rbp => 40
  | rsi => 48
  | rdi => 56
  | r8 => 64
  | r9 => 72
  | r10 => 80
  | r11 => 88
  | r12 => 96
  | r13 => 104
  | r14 => 112
  | r15 => 120

/-- `CR3_OFFSET`. -/
def cr3Offset : Word := 128

/-- `RIP_OFFSET`. -/
def ripOffset : Word := 136

/-- `RFLAGS_OFFSET`. -/
def rflagsOffset : Word := 144

/-- `sizeof(Registers)`. -/
def registersSize : Nat := 152

@[ext] structure Registers where
  register : Register → Word
  cr3 : Word
  rip : Word
  rflags : Word

/-- The registers saved at an address. -/
def Registers.at (memory : Store) (address : Word) : Registers where
  register name := memory.read (address + name.offset)
  cr3 := memory.read (address + cr3Offset)
  rip := memory.read (address + ripOffset)
  rflags := memory.read (address + rflagsOffset)

/-! ## The two routines -/

/-- `movq %name, NAME_OFFSET(%rdi)`. -/
def saveRegister (name : Register) : Instruction :=
  .movq (.register name) (.memory name.offset .rdi)

/-- `movq NAME_OFFSET(%rdi), %name`. -/
def loadRegister (name : Register) : Instruction :=
  .movq (.memory name.offset .rdi) (.register name)

/-- Up to the call of `unlockTask`. -/
def saveCode : List Instruction :=
  open Register in
  [.popq (.memory ripOffset rdi), .pushfq, .popq (.memory rflagsOffset rdi)] ++
  [rax, rcx, rdx, rbx, rsp, rbp, rsi, rdi, r8, r9, r10, r11, r12, r13, r14, r15].map saveRegister ++
  [.movq .cr3 (.register rax), .movq (.register rax) (.memory cr3Offset rdi),
    .movq (.register rsi) (.register rbx)]

/-- From the call of `unlockTask` to the jump. -/
def unlockCode : List Instruction := [.call .unlockTask, .movq (.register .rbx) (.register .rdi)]

/-- Up to the label. -/
def lockCode : List Instruction :=
  open Register in
  [.movq (.register rdi) (.register rbx), .call .lockTask, .movq (.register rbx) (.register rdi),
    .movq (.memory cr3Offset rdi) (.register rdx), .cmp rax rdx, .je 1,
    .movq (.register rdx) .cr3, .label 1]

/-- From the label on. -/
def loadCode : List Instruction :=
  open Register in
  [rax, rcx, rdx, rbx, rsp, rbp, rsi, r8, r9, r10, r11, r12, r13, r14, r15].map loadRegister ++
  [.pushq (.memory ripOffset rdi), .pushq (.memory rflagsOffset rdi), loadRegister rdi,
    .popfq, .retq]

def restoreRegisters (calls : Calls) (p : Processor) : Processor :=
  run calls (lockCode ++ loadCode) none p

/-- The jump at the end leads to the instruction that follows it. -/
def swapRegisters (calls : Calls) (p : Processor) : Processor :=
  run calls (saveCode ++ unlockCode ++ (lockCode ++ loadCode)) none p

/-! ## What the code between the jumps does -/

section Code

variable {calls : Calls} {p : Processor}

/-- The instruction neither jumps nor is jumped to. -/
def Instruction.plain : Instruction → Bool
  | je _ | label _ => false
  | _ => true

theorem run_cons {instruction : Instruction} (plain : instruction.plain = true)
    (rest : List Instruction) (p : Processor) :
    run calls (instruction :: rest) none p = run calls rest none (execute calls p instruction) := by
  cases instruction <;> first | rfl | cases plain

theorem run_append (calls : Calls) {code : List Instruction}
    (plain : code.all Instruction.plain = true) (rest : List Instruction) (p : Processor) :
    run calls (code ++ rest) none p = run calls rest none (code.foldl (execute calls) p) := by
  induction code generalizing p with
  | nil => rfl
  | cons instruction code ih =>
      rw [List.all_cons, Bool.and_eq_true] at plain
      rw [List.cons_append, run_cons plain.1, ih plain.2, List.foldl_cons]

theorem foldl_saveRegister (names : List Register) (p : Processor) :
    (names.map saveRegister).foldl (execute calls) p =
      { p with
        memory := p.memory.writeAll (names.map fun name => (p.register .rdi + name.offset,
            p.register name)) } := by
  induction names generalizing p with
  | nil => rfl
  | cons name names ih =>
      rw [List.map_cons, List.foldl_cons, ih]
      rfl

theorem foldl_loadRegister {names : List Register} (pointer : .rdi ∉ names) (p : Processor) :
    (names.map loadRegister).foldl (execute calls) p =
      { p with
        register := fun name =>
          if name ∈ names then p.memory.read (p.register .rdi + name.offset)
          else p.register name } := by
  induction names generalizing p with
  | nil => simp
  | cons first names ih =>
      obtain ⟨other, rest⟩ := not_or.mp (mt List.mem_cons.mpr pointer)
      rw [List.map_cons, List.foldl_cons, ih rest]
      have kept : (execute calls p (loadRegister first)).register .rdi = p.register .rdi :=
        Processor.set_of_ne p other _
      rw [kept]
      simp only [loadRegister, execute, Processor.assign, Processor.set, Processor.value,
        List.mem_cons]
      congr 1
      funext name
      by_cases here : name = first
      · subst here
        simp
      · simp [here]

end Code

/-! ## Restoring -/

/-- What the calling convention leaves alone. -/
structure Abi (calls : Calls) : Prop where
  register : ∀ function p, ∀ name ∈ [Register.rbx, .rsp, .rbp, .r12, .r13, .r14, .r15],
    (calls function p).register name = p.register name
  cr3 : ∀ function p, (calls function p).cr3 = p.cr3

/-- Neither function writes to the registers saved at an address. -/
def Keeps (calls : Calls) (address : Word) : Prop :=
  ∀ function p, Registers.at (calls function p).memory address = Registers.at p.memory address

/-- Execution goes on with the registers. -/
structure Continues (p : Processor) (image : Registers) : Prop where
  register : p.register = image.register
  cr3 : p.cr3 = image.cr3
  rip : p.rip = image.rip
  rflags : p.rflags.word = image.rflags

/-- `%rax` when `lockTask` returns to `restoreRegisters`. -/
def leftInRax (calls : Calls) (p : Processor) : Word :=
  (calls .lockTask (p.set .rbx (p.register .rdi))).register .rax

section Restore

variable {calls : Calls} {p : Processor}

theorem getLsbD_status (bit : Nat) (set : Bool) (i : Nat) (bounded : bit < 64) :
    (Flags.status bit set).getLsbD i = (set && decide (i = bit)) := by
  cases set with
  | false => simp [Flags.status]
  | true =>
      rw [Flags.status, if_pos rfl, BitVec.getLsbD_twoPow, Bool.true_and, decide_eq_true bounded,
        Bool.true_and]
      exact decide_eq_decide.mpr eq_comm

theorem zero_compare (flags : Flags) (a b : Word) : (flags.compare a b).zero = decide (a = b) := by
  have mask : loadable.getLsbD 6 = true := rfl
  have cleared : (~~~(0x8D5 : Word)).getLsbD 6 = false := rfl
  have reserved : (2 : Word).getLsbD 6 = false := rfl
  simp only [Flags.compare, Flags.load, Flags.zero, BitVec.getLsbD_or, BitVec.getLsbD_and, mask,
    cleared, reserved, getLsbD_status _ _ _ (show 0 < 64 by decide),
    getLsbD_status _ _ _ (show 2 < 64 by decide), getLsbD_status _ _ _ (show 4 < 64 by decide),
    getLsbD_status _ _ _ (show 6 < 64 by decide), getLsbD_status _ _ _ (show 7 < 64 by decide),
    getLsbD_status _ _ _ (show 11 < 64 by decide)]
  simp [beq_eq_decide]

/-- The way to the label. -/
theorem run_lockCode (abi : Abi calls) (rest : List Instruction) (p : Processor) :
    ∃ q : Processor, run calls (lockCode ++ rest) none p = run calls rest none q ∧
      q.register .rdi = p.register .rdi ∧
      q.memory = (calls .lockTask (p.set .rbx (p.register .rdi))).memory ∧
      q.cr3 = if leftInRax calls p = q.memory.read (p.register .rdi + cr3Offset) then p.cr3
        else q.memory.read (p.register .rdi + cr3Offset) := by
  obtain ⟨locked, returned⟩ : ∃ q, q = calls .lockTask (p.set .rbx (p.register .rdi)) := ⟨_, rfl⟩
  have pointer : locked.register .rbx = p.register .rdi := by
    rw [returned, abi.register _ _ .rbx (by simp), Processor.set_self]
  have cr3 : locked.cr3 = p.cr3 := by
    rw [returned, abi.cr3]
    rfl
  obtain ⟨wanted, loaded⟩ : ∃ w, w = locked.memory.read (p.register .rdi + cr3Offset) := ⟨_, rfl⟩
  obtain ⟨q, compared⟩ : ∃ q, q = { (locked.set .rdi (locked.register .rbx)).set .rdx wanted with
      rflags := locked.rflags.compare wanted (locked.register .rax) } := ⟨_, rfl⟩
  have straight : run calls (lockCode ++ rest) none p =
      run calls ([.je 1, .movq (.register .rdx) .cr3, .label 1] ++ rest) none q := by
    rw [compared, loaded, ← pointer, returned]
    rfl
  have pointed : q.register .rdi = p.register .rdi := by
    rw [compared]
    change ((locked.set .rdi (locked.register .rbx)).set .rdx wanted).register .rdi = _
    rw [Processor.set_of_ne _ (by decide), Processor.set_self, pointer]
  have asked : q.register .rdx = wanted := by
    rw [compared]
    change ((locked.set .rdi (locked.register .rbx)).set .rdx wanted).register .rdx = _
    rw [Processor.set_self]
  have answer : q.rflags.zero = decide (leftInRax calls p = wanted) := by
    rw [compared, zero_compare, returned, leftInRax]
    exact decide_eq_decide.mpr eq_comm
  have kept : q.memory = locked.memory := by
    rw [compared]
    rfl
  have before : q.cr3 = p.cr3 := by
    rw [compared, ← cr3]
    rfl
  rw [straight, ← returned]
  have read : q.memory.read (p.register .rdi + cr3Offset) = wanted := by rw [kept, loaded]
  by_cases stale : leftInRax calls p = wanted
  · refine ⟨q, ?_, pointed, kept, by rw [read, if_pos stale, before]⟩
    simp only [List.cons_append, List.nil_append, run, answer, stale, decide_true, if_true,
      reduceCtorEq, if_false]
  · refine ⟨{ q with cr3 := wanted }, ?_, pointed, kept, ?_⟩
    · simp only [List.cons_append, List.nil_append, run, answer, stale, decide_false,
        Bool.false_eq_true, if_false, execute, Processor.assign, Processor.value, asked]
    · change wanted = if leftInRax calls p = q.memory.read _ then p.cr3 else q.memory.read _
      rw [read, if_neg stale]

theorem run_pushes (calls : Calls) (rest : List Instruction) (q : Processor) :
    ∃ u : Processor, run calls (.pushq (.memory ripOffset .rdi) ::
      .pushq (.memory rflagsOffset .rdi) :: rest) none q =
        run calls rest none u ∧
      (∀ name, u.register name = if name = .rsp then q.register .rsp - 16 else q.register name) ∧
      u.cr3 = q.cr3 ∧
      ∃ once, once = q.memory.write (q.register .rsp - 8)
        (q.memory.read (q.register .rdi + ripOffset)) ∧
        u.memory = once.write (q.register .rsp - 16)
          (once.read (q.register .rdi + rflagsOffset)) := by
  obtain ⟨once, pushed⟩ : ∃ u, u = q.push (q.value (.memory ripOffset .rdi)) := ⟨_, rfl⟩
  have down : q.register .rsp - 8 - 8 = q.register .rsp - 16 := by grind
  have pointer : once.register .rdi = q.register .rdi := by
    rw [pushed, Processor.push_of_ne _ (by decide)]
  have top : once.register .rsp = q.register .rsp - 8 := by
    rw [pushed, Processor.push_rsp]
  refine ⟨once.push (once.value (.memory rflagsOffset .rdi)), by rw [pushed]; rfl, fun name => ?_,
    by rw [pushed]; rfl, once.memory, by rw [pushed]; rfl, ?_⟩
  · split_ifs with here
    · rw [here, Processor.push_rsp, top, down]
    · rw [Processor.push_of_ne _ here, pushed, Processor.push_of_ne _ here]
  · rw [← pointer, ← down, ← top]
    rfl

theorem run_pops (calls : Calls) (q : Processor) :
    ∃ t : Processor, run calls [loadRegister .rdi, .popfq, .retq] none q = t ∧
      (∀ name, t.register name = if name = .rsp then q.register .rsp + 16 else
        if name = .rdi then q.memory.read (q.register .rdi + Register.rdi.offset)
        else q.register name) ∧
      t.cr3 = q.cr3 ∧ t.rip = q.memory.read (q.register .rsp + 8) ∧
      t.rflags = Flags.load (q.memory.read (q.register .rsp)) := by
  have up : q.register .rsp + 8 + 8 = q.register .rsp + 16 := by grind
  refine ⟨_, rfl, fun name => ?_, rfl, rfl, rfl⟩
  rw [← up]
  by_cases top : name = .rsp
  · rw [if_pos top, top]
    rfl
  · rw [if_neg top]
    refine (Processor.set_of_ne _ top _).trans ((Processor.set_of_ne _ top _).trans ?_)
    split_ifs with pointer
    · rw [pointer]
      exact Processor.set_self q _ _
    · exact Processor.set_of_ne q pointer _

/-- Execution leaves by way of two words below the stack pointer. -/
theorem run_leave (calls : Calls) (q : Processor)
    (stack : Apart (q.register .rsp - 16) 16 (q.register .rdi) registersSize) :
    ∃ t, run calls [.pushq (.memory ripOffset .rdi), .pushq (.memory rflagsOffset .rdi),
      loadRegister .rdi, .popfq,
        .retq] none q = t ∧
      (∀ name, t.register name = if name =
        .rdi then (Registers.at q.memory (q.register .rdi)).register .rdi
        else q.register name) ∧
      t.cr3 = q.cr3 ∧ t.rip = (Registers.at q.memory (q.register .rdi)).rip ∧
      t.rflags = Flags.load (Registers.at q.memory (q.register .rdi)).rflags := by
  obtain ⟨u, pushing, registers, cr3, once, first, second⟩ := run_pushes calls
    [loadRegister .rdi, .popfq, .retq] q
  obtain ⟨t, popping, restored, same, rip, rflags⟩ := run_pops calls u
  obtain ⟨base, pointer⟩ : ∃ base, base = q.register .rdi := ⟨_, rfl⟩
  obtain ⟨rsp, top⟩ : ∃ rsp, rsp = q.register .rsp := ⟨_, rfl⟩
  have deep : ∀ offset : Word, offset.toNat + 8 ≤ registersSize →
      Apart (rsp - 16) 8 (base + offset) 8 := by
    intro offset inside
    have below := stack.right (show 8 ≤ 16 by decide) inside (by decide) (by decide)
    rwa [← top, ← pointer] at below
  have shallow : ∀ offset : Word, offset.toNat + 8 ≤ registersSize →
      Apart (rsp - 8) 8 (base + offset) 8 := by
    intro offset inside
    have below :=
      stack.part (i := 8) (j := offset) (w := 8) (u := 8) (by decide) inside (by decide) (by decide)
    rwa [← top, ← pointer, show rsp - 16 + 8 = rsp - 8 by grind] at below
  have neighbours : Apart (rsp - 16) 8 (rsp - 8) 8 := by
    have forth : rsp - 8 - (rsp - 16) = 8 := by grind
    have back : rsp - 16 - (rsp - 8) = -8 := by grind
    rw [Apart, forth, back]
    decide
  have up : rsp - 16 + 8 = rsp - 8 := by grind
  have home : rsp - 16 + 16 = rsp := by grind
  rw [← pointer, ← top] at first second
  rw [registers, registers, if_pos rfl, if_neg (by decide), ← top, ← pointer, home, second,
    Store.read_write_of_apart _ _ (deep _ (by decide)), first,
    Store.read_write_of_apart _ _ (shallow _ (by decide))] at restored
  rw [registers, if_pos rfl, ← top, up, second, Store.read_write_of_apart _ _ neighbours, first,
    Store.read_write_self] at rip
  rw [registers, if_pos rfl, ← top, second, Store.read_write_self, first,
    Store.read_write_of_apart _ _ (shallow _ (by decide))] at rflags
  refine ⟨t, pushing.trans popping, fun name => ?_, same.trans cr3, ?_, ?_⟩
  · rw [restored, registers]
    by_cases here : name = .rsp
    · rw [here, if_pos rfl, if_neg (by decide), top]
    · rw [if_neg here, if_neg here, ← pointer]
      rfl
  · rw [rip, ← pointer]
    rfl
  · rw [rflags, ← pointer]
    rfl

theorem run_loadCode (calls : Calls) (p : Processor) {image : Registers}
    (stands : Registers.at p.memory (p.register .rdi) = image)
    (stack : Apart (image.register .rsp - 16) 16 (p.register .rdi) registersSize) :
    ∃ t, run calls loadCode none p = t ∧ t.register = image.register ∧ t.cr3 = p.cr3 ∧
      t.rip = image.rip ∧ t.rflags = Flags.load image.rflags := by
  subst stands
  obtain ⟨names, listed⟩ :
      ∃ names, names = [Register.rax, .rcx, .rdx, .rbx, .rsp, .rbp, .rsi, .r8, .r9, .r10, .r11,
    .r12, .r13, .r14, .r15] := ⟨_, rfl⟩
  have all : ∀ name, name ∈ names ↔ name ≠ .rdi := by
    rw [listed]
    intro name
    cases name <;> decide
  have straight :=
    run_append calls (show (names.map loadRegister).all Instruction.plain =
      true by rw [listed]; rfl)
    [.pushq (.memory ripOffset .rdi), .pushq (.memory rflagsOffset .rdi), loadRegister .rdi,
      .popfq, .retq] p
  rw [foldl_loadRegister (fun inside => (all _).mp inside rfl)] at straight
  obtain ⟨q, loaded⟩ : ∃ q : Processor, q = { p with
      register := fun name =>
        if name ∈ names then p.memory.read (p.register .rdi + name.offset)
        else p.register name } := ⟨_, rfl⟩
  have others : ∀ name, name ≠ .rdi →
      q.register name = p.memory.read (p.register .rdi + name.offset) := by
    intro name other
    rw [loaded]
    exact if_pos ((all name).mpr other)
  have pointer : q.register .rdi = p.register .rdi := by
    rw [loaded]
    exact if_neg fun inside => (all _).mp inside rfl
  have memory : q.memory = p.memory := by rw [loaded]
  rw [← loaded] at straight
  obtain ⟨t, leaving, registers, cr3, rip, rflags⟩ :=
    run_leave calls q (by rwa [others _ (by decide), pointer])
  rw [memory, pointer] at registers rip rflags
  refine ⟨t, ?_, ?_, cr3.trans (by rw [loaded]), rip, rflags⟩
  · rw [← leaving, ← straight, listed]
    rfl
  · funext name
    rw [registers]
    split_ifs with here
    · rw [here]
    · exact others name here

/-- Every register but `%cr3` is restored, and `%cr3` is not if `%rax` happens to hold
    the value it is to have. -/
theorem restoreRegisters_spec (abi : Abi calls) (p : Processor) {image : Registers}
    (stands : Registers.at p.memory (p.register .rdi) = image)
    (kept : Keeps calls (p.register .rdi))
    (stack : Apart (image.register .rsp - 16) 16 (p.register .rdi) registersSize) :
    ∃ t, restoreRegisters calls p = t ∧ t.register = image.register ∧ t.rip = image.rip ∧
      t.rflags = Flags.load image.rflags ∧ t.cr3 =
        if leftInRax calls p = image.cr3 then p.cr3 else image.cr3 := by
  obtain ⟨q, locking, pointer, memory, chosen⟩ := run_lockCode abi loadCode p
  have standing : Registers.at q.memory (q.register .rdi) = image := by
    rw [pointer, memory, kept, ← stands]
    rfl
  obtain ⟨t, loading, registers, cr3, rip, rflags⟩ :=
    run_loadCode calls q standing (by rwa [pointer])
  refine ⟨t, locking.trans loading, registers, rip, rflags, ?_⟩
  rw [cr3, chosen, ← standing, pointer]
  rfl

theorem load_word_iff (word : Word) : (Flags.load word).word = word ↔ Held word := by
  constructor
  · intro same
    have fixed := (Flags.load word).fixed
    rwa [same] at fixed
  · intro held
    have whole : word = word &&& (loadable ||| ~~~loadable) := by
      rw [show loadable ||| ~~~loadable = BitVec.allOnes 64 from rfl, BitVec.and_allOnes]
    rw [BitVec.and_or_distrib_left, held] at whole
    exact whole.symm

/-- The values of `%cr3` and of the flags decide. -/
theorem restoreRegisters_iff (abi : Abi calls) (p : Processor) {image : Registers}
    (stands : Registers.at p.memory (p.register .rdi) = image)
    (kept : Keeps calls (p.register .rdi))
    (stack : Apart (image.register .rsp - 16) 16 (p.register .rdi) registersSize) :
    Continues (restoreRegisters calls p) image ↔
      (leftInRax calls p = image.cr3 → p.cr3 = image.cr3) ∧ Held image.rflags := by
  obtain ⟨t, restored, registers, rip, rflags, cr3⟩ := restoreRegisters_spec abi p stands kept stack
  rw [restored, ← load_word_iff, ← rflags]
  constructor
  · rintro ⟨-, same, -, held⟩
    refine ⟨fun stale => ?_, held⟩
    rw [← same, cr3, if_pos stale]
  · rintro ⟨fresh, held⟩
    refine ⟨registers, ?_, rip, held⟩
    rw [cr3]
    split_ifs with stale
    · exact fresh stale
    · rfl

end Restore

/-! ## Saving -/

/-- The registers as they are to be once the call has returned. -/
def Registers.atCall (p : Processor) : Registers where
  register name := if name = .rsp then p.register .rsp + 8 else p.register name
  cr3 := p.cr3
  rip := p.top
  rflags := p.rflags.word

section Save

/-- The stack pointer comes back to the word above the return address. -/
theorem foldl_capture (calls : Calls) (p : Processor) :
    ∃ q, [Instruction.popq (.memory ripOffset .rdi), .pushfq,
      .popq (.memory rflagsOffset .rdi)].foldl
        (execute calls) p = q ∧
      (∀ name, q.register name = (Registers.atCall p).register name) ∧ q.cr3 = p.cr3 ∧
      q.memory = p.memory.writeAll [(p.register .rdi + ripOffset, p.top),
        (p.register .rsp, p.rflags.word), (p.register .rdi + rflagsOffset, p.rflags.word)] := by
  obtain ⟨once, popped⟩ : ∃ u, u = p.drop.assign p.top (.memory ripOffset .rdi) := ⟨_, rfl⟩
  obtain ⟨twice, pushed⟩ : ∃ u, u = once.push p.rflags.word := ⟨_, rfl⟩
  have home : p.register .rsp + 8 - 8 = p.register .rsp := by grind
  have top : once.register .rsp = p.register .rsp + 8 := by
    rw [popped]
    exact p.drop_rsp
  have bottom : twice.register .rsp = p.register .rsp := by
    rw [pushed, Processor.push_rsp, top, home]
  have others : ∀ name, name ≠ .rsp → twice.register name = p.register name := by
    intro name other
    rw [pushed, Processor.push_of_ne _ other, popped]
    exact p.drop_of_ne other
  have memory :
      twice.memory = (p.memory.write (p.register .rdi + ripOffset) p.top).write (p.register .rsp)
      p.rflags.word := by
    rw [pushed, ← home, ← top, popped]
    rfl
  have found : twice.top = p.rflags.word := by
    rw [Processor.top, bottom, memory, Store.read_write_self]
  refine ⟨twice.drop.assign twice.top (.memory rflagsOffset .rdi), by rw [pushed, popped]; rfl,
    fun name => ?_, by rw [pushed, popped]; rfl, ?_⟩
  · change twice.drop.register name = if name = .rsp then _ else _
    split_ifs with here
    · rw [here, Processor.drop_rsp, bottom]
    · rw [Processor.drop_of_ne _ here, others name here]
  · have pointer : twice.drop.register .rdi = p.register .rdi := by
      rw [Processor.drop_of_ne _ (by decide), others _ (by decide)]
    change twice.memory.write (twice.drop.register .rdi + rflagsOffset) twice.top = _
    rw [pointer, found, memory]
    rfl

/-- The fields of `struct Registers`, in the order they are saved. -/
def fieldOffsets : List Word :=
  [ripOffset, rflagsOffset, 0, 8, 16, 24, 32, 40, 48, 56, 64, 72, 80, 88, 96, 104, 112,
    120, cr3Offset]

/-- The words written until the call of `unlockTask`, one of them to the stack. -/
def savedWords (p : Processor) : List (Word × Word) :=
  open Register in
  [(p.register rdi + ripOffset, p.top), (p.register rsp, p.rflags.word),
    (p.register rdi + rflagsOffset, p.rflags.word)] ++
  [rax, rcx, rdx, rbx, rsp, rbp, rsi, rdi, r8, r9, r10, r11, r12, r13, r14, r15].map (fun name =>
    (p.register rdi + name.offset, (Registers.atCall p).register name)) ++
  [(p.register rdi + cr3Offset, p.cr3)]

theorem foldl_saveCode (calls : Calls) (p : Processor) :
    ∃ q, saveCode.foldl (execute calls) p = q ∧ q.register .rbx = p.register .rsi ∧
      q.register .rsp = p.register .rsp + 8 ∧ q.register .rdi = p.register .rdi ∧ q.cr3 = p.cr3 ∧
      q.memory = p.memory.writeAll (savedWords p) := by
  obtain ⟨u, capturing, registers, cr3, memory⟩ := foldl_capture calls p
  have pointer : u.register .rdi = p.register .rdi := registers .rdi
  have top : u.register .rsp = p.register .rsp + 8 := registers .rsp
  have target : u.register .rsi = p.register .rsi := registers .rsi
  refine ⟨_, rfl, ?_⟩
  rw [saveCode, List.foldl_append, List.foldl_append, capturing, foldl_saveRegister]
  refine ⟨target, top, pointer, cr3, ?_⟩
  rw [savedWords, Store.writeAll_append, Store.writeAll_append, ← memory]
  simp only [← registers, ← pointer, ← cr3]
  rfl

theorem fieldOffset_inside {offset : Word} (member : offset ∈ fieldOffsets) :
    offset.toNat + 8 ≤ registersSize := by
  have all : fieldOffsets.all fun offset => offset.toNat + 8 ≤ registersSize := by decide
  simpa using List.all_eq_true.mp all offset member

theorem savedWords_addresses (p : Processor) :
    (savedWords p).map Prod.fst = (p.register .rdi + ripOffset) :: p.register .rsp ::
      fieldOffsets.tail.map (p.register .rdi + ·) := rfl

theorem savedWords_apart (p : Processor)
    (slot : Apart (p.register .rsp) 8 (p.register .rdi) registersSize) :
    (savedWords p).Pairwise fun one other => Apart one.1 8 other.1 8 := by
  have fields : fieldOffsets.Pairwise fun one other => Apart one 8 other 8 := by decide +kernel
  have beside :
      ∀ offset ∈ fieldOffsets, Apart (p.register .rsp) 8 (p.register .rdi + offset) 8 := by
    exact fun offset member =>
      slot.right (Nat.le_refl 8) (fieldOffset_inside member) (by decide) (by decide)
  obtain ⟨first, rest⟩ := List.pairwise_cons.mp fields
  have placed : ((savedWords p).map Prod.fst).Pairwise fun one other => Apart one 8 other 8 := by
    rw [savedWords_addresses, List.pairwise_cons, List.pairwise_cons, List.forall_mem_cons,
      List.pairwise_map]
    refine ⟨⟨(beside _ List.mem_cons_self).symm, ?_⟩, ?_, ?_⟩
    · intro address member
      obtain ⟨offset, later, rfl⟩ := List.mem_map.mp member
      exact (apart_add _).mpr (first offset later)
    · intro address member
      obtain ⟨offset, later, rfl⟩ := List.mem_map.mp member
      exact beside offset (List.mem_cons_of_mem _ later)
    · exact rest.imp fun apart => (apart_add _).mpr apart
  exact List.pairwise_map.mp placed

/-- The registers of the caller stand where the first argument points. -/
theorem savedWords_stand (p : Processor)
    (slot : Apart (p.register .rsp) 8 (p.register .rdi) registersSize) :
    Registers.at (p.memory.writeAll (savedWords p)) (p.register .rdi) = Registers.atCall p := by
  have apart := savedWords_apart p slot
  have stands : ∀ entry ∈ savedWords p, (p.memory.writeAll (savedWords p)).read entry.1 = entry.2 :=
    fun _ member => Store.read_writeAll_of_mem _ apart member
  refine Registers.ext (funext fun name => stands (_, _) ?_) (stands (_, p.cr3) ?_)
    (stands (_, p.top) ?_) (stands (_, p.rflags.word) ?_)
  · refine List.mem_append_left _ (List.mem_append_right _ (List.mem_map.mpr ⟨name, ?_, rfl⟩))
    cases name <;> decide
  · exact List.mem_append_right _ (List.mem_singleton_self _)
  · exact List.mem_append_left _ (List.mem_append_left _ List.mem_cons_self)
  · exact List.mem_append_left _ (List.mem_append_left _ (by simp))

/-- Registers saved elsewhere stay as they are. -/
theorem savedWords_elsewhere (p : Processor) {address : Word}
    (other : Apart (p.register .rdi) registersSize address registersSize)
    (slot : Apart (p.register .rsp) 8 address registersSize) :
    Registers.at (p.memory.writeAll (savedWords p)) address = Registers.at p.memory address := by
  have kept : ∀ offset : Word, offset.toNat + 8 ≤ registersSize →
      (p.memory.writeAll (savedWords p)).read (address + offset) =
        p.memory.read (address + offset) := by
    intro offset inside
    refine Store.read_writeAll_of_apart _ fun entry member => ?_
    have place : entry.1 = p.register .rsp ∨ ∃ field ∈ fieldOffsets, entry.1 =
        p.register .rdi + field := by
      have listed := List.mem_map_of_mem (f := Prod.fst) member
      rw [savedWords_addresses, List.mem_cons, List.mem_cons, List.mem_map] at listed
      rcases listed with first | stack | ⟨field, later, here⟩
      · exact .inr ⟨ripOffset, List.mem_cons_self, first⟩
      · exact .inl stack
      · exact .inr ⟨field, List.mem_cons_of_mem _ later, here.symm⟩
    rcases place with stack | ⟨field, listed, here⟩
    · rw [stack]
      exact slot.right (Nat.le_refl 8) inside (by decide) (by decide)
    · rw [here]
      exact other.part (fieldOffset_inside listed) inside (by decide) (by decide)
  exact Registers.ext (funext fun name => kept _ (by cases name <;> decide)) (kept _ (by decide))
    (kept _ (by decide)) (kept _ (by decide))

end Save

/-! ## From one task to another and back -/

/-- Where `unlockTask` is called. -/
def saved (calls : Calls) (p : Processor) : Processor := run calls saveCode none p

/-- Where `swapRegisters` jumps to `restoreRegisters`. -/
def handedOver (calls : Calls) (p : Processor) : Processor :=
  run calls (saveCode ++ unlockCode) none p

/-- The two arguments are the same or lie apart, and the stack is neither. -/
structure Separate (p : Processor) : Prop where
  arguments : p.register .rdi = p.register .rsi ∨
    Apart (p.register .rdi) registersSize (p.register .rsi) registersSize
  source : Apart (p.register .rsp) 8 (p.register .rdi) registersSize
  destination : Apart (p.register .rsp) 8 (p.register .rsi) registersSize

/-- There is room for two words below the stack pointer. -/
def Room (image : Registers) (address : Word) : Prop :=
  Apart (image.register .rsp - 16) 16 address registersSize

/-- What `*to` holds when it is loaded. -/
def target (p : Processor) : Registers :=
  if p.register .rdi = p.register .rsi then Registers.atCall p
  else Registers.at p.memory (p.register .rsi)

section Switch

variable {calls : Calls} {p : Processor}

theorem saved_eq (calls : Calls) (p : Processor) :
    saved calls p = saveCode.foldl (execute calls) p := by
  rw [saved, ← List.append_nil saveCode, run_append calls (by rfl), List.append_nil]
  rfl

theorem saved_stands (calls : Calls)
    (slot : Apart (p.register .rsp) 8 (p.register .rdi) registersSize) :
    Registers.at (saved calls p).memory (p.register .rdi) = Registers.atCall p := by
  obtain ⟨q, saving, -, -, -, -, memory⟩ := foldl_saveCode calls p
  rw [saved_eq, saving, memory, savedWords_stand p slot]

theorem swapRegisters_eq (calls : Calls) (p : Processor) :
    swapRegisters calls p = restoreRegisters calls (handedOver calls p) := by
  have first :=
    run_append calls (show (saveCode ++ unlockCode).all Instruction.plain = true from rfl)
    (lockCode ++ loadCode) p
  have alone :=
    run_append calls (show (saveCode ++ unlockCode).all Instruction.plain = true from rfl) [] p
  rw [List.append_nil] at alone
  rw [swapRegisters, first, restoreRegisters, handedOver, alone]
  rfl

theorem handedOver_spec (abi : Abi calls) (separate : Separate p)
    (kept : Keeps calls (p.register .rsi)) :
    (handedOver calls p).register .rdi = p.register .rsi ∧ (handedOver calls p).cr3 = p.cr3 ∧
      Registers.at (handedOver calls p).memory (p.register .rsi) = target p := by
  obtain ⟨q, saving, pointer, -, -, cr3, memory⟩ := foldl_saveCode calls p
  have unlocked : handedOver calls p =
      (calls .unlockTask q).set .rdi ((calls .unlockTask q).register .rbx) := by
    have first :=
      run_append calls (show saveCode.all Instruction.plain = true from rfl) unlockCode p
    rw [handedOver, first, saving]
    rfl
  rw [unlocked]
  refine ⟨?_, (abi.cr3 _ _).trans cr3, (kept _ _).trans ?_⟩
  · rw [Processor.set_self, abi.register _ _ .rbx (by simp), pointer]
  · rw [memory, target]
    split_ifs with same
    · rw [← same, savedWords_stand p separate.source]
    · exact savedWords_elsewhere p (separate.arguments.resolve_left same) separate.destination

end Switch

/-- The new task goes on with the registers that were saved for it, and the old one, once
    it is restored, with those it had at the call, exactly when each time `lockTask`
    leaves something else in `%rax` than the CR3 to be loaded, or that one is loaded
    already. -/
theorem switch_round_trip_iff {calls : Calls} (abi : Abi calls) (p : Processor)
    (separate : Separate p) (kept : Keeps calls (p.register .rsi))
    (room : Room (target p) (p.register .rsi)) :
    (Continues (swapRegisters calls p) (target p) ↔
      (leftInRax calls (handedOver calls p) = (target p).cr3 → p.cr3 = (target p).cr3) ∧
        Held (target p).rflags) ∧
    ∀ (later : Calls) (q : Processor), Abi later → Keeps later (p.register .rdi) →
      q.register .rdi = p.register .rdi →
      Registers.at q.memory (p.register .rdi) =
        Registers.at (saved calls p).memory (p.register .rdi) →
      Room (Registers.atCall p) (p.register .rdi) →
      (Continues (restoreRegisters later q) (Registers.atCall p) ↔
        (leftInRax later q = p.cr3 → q.cr3 = p.cr3)) := by
  constructor
  · obtain ⟨pointer, cr3, stands⟩ := handedOver_spec abi separate kept
    rw [swapRegisters_eq, restoreRegisters_iff abi _ (by rw [pointer, stands]) (by rwa [pointer])
      (by rwa [pointer]), cr3]
  · intro later q follows keeps pointer stands space
    rw [saved_stands calls separate.source] at stands
    rw [restoreRegisters_iff follows q (by rw [pointer, stands]) (by rwa [pointer])
      (by rwa [pointer])]
    exact and_iff_left p.rflags.fixed

/-! ## A swap of two tasks -/

/-- Both functions only leave a number in `%rax`. -/
def leaving (rax : Word) : Calls := fun _ p => p.set .rax rax

theorem leaving_abi (rax : Word) : Abi (leaving rax) := by
  refine ⟨fun _ p name member => p.set_of_ne ?_ rax, fun _ _ => rfl⟩
  rintro rfl
  exact absurd member (by decide)

theorem leaving_keeps (rax address : Word) : Keeps (leaving rax) address := fun _ _ => rfl

/-- The old task has its registers at `0x1000` and its stack at `0x8000`, the new one
    runs in the address space 5. -/
def swapping : Processor where
  register
    | .rdi => 0x1000
    | .rsi => 0x2000
    | .rsp => 0x8000
    | _ => 0
  cr3 := 1
  rip := 0
  rflags := Flags.load 0
  memory address := if address = 0x2080 then 5 else if address = 0x2090 then 2 else 0

theorem swapping_separate : Separate swapping := ⟨.inr (by decide), by decide, by decide⟩

theorem swapping_target : target swapping = Registers.at swapping.memory 0x2000 :=
  if_neg (by decide)

theorem swapping_room : Room (target swapping) 0x2000 := by
  rw [swapping_target]
  exact show Apart _ _ _ _ by decide

/-- A processor about to restore the old task. -/
def restoring : Processor :=
  { saved (leaving 0) swapping with
    register
      | .rdi => 0x1000
      | _ => 7
    cr3 := 9 }

/-- With nothing of the kind in `%rax` the new task goes on in its address space, and
    later the old one, on another processor, in its own. -/
theorem swapping_continues :
    Continues (swapRegisters (leaving 0) swapping) (target swapping) ∧
    Continues (restoreRegisters (leaving 0) restoring) (Registers.atCall swapping) := by
  have switch :=
    switch_round_trip_iff (leaving_abi 0) swapping swapping_separate
      (leaving_keeps 0 _) swapping_room
  constructor
  · refine switch.1.mpr ?_
    rw [swapping_target]
    exact ⟨fun stale => absurd stale (by decide), by decide⟩
  · have room : Room (Registers.atCall swapping) 0x1000 := show Apart _ _ _ _ by decide
    have memory : Registers.at restoring.memory (swapping.register .rdi) =
        Registers.at (saved (leaving 0) swapping).memory (swapping.register .rdi) := by
      rw [restoring]
    refine (switch.2 (leaving 0) restoring (leaving_abi 0) (leaving_keeps 0 _) rfl memory room).mpr
      fun stale => ?_
    exact absurd (stale : (0 : Word) = 1) (by decide)

/-- With the new CR3 left in `%rax` by `lockTask`, the new task goes on in the address
    space of the old one. -/
theorem old_cr3_kept :
    ¬ ∀ calls p, Abi calls → Separate p → Keeps calls (p.register .rsi) →
    Room (target p) (p.register .rsi) →
      Held (target p).rflags → Continues (swapRegisters calls p) (target p) := by
  intro always
  have continues :=
    always (leaving 5) swapping (leaving_abi 5) swapping_separate (leaving_keeps 5 _) swapping_room
    (by rw [swapping_target]; decide)
  obtain ⟨pointer, cr3, stands⟩ :=
    handedOver_spec (leaving_abi 5) swapping_separate (leaving_keeps 5 _)
  rw [swapRegisters_eq, restoreRegisters_iff (leaving_abi 5) _ (by rw [pointer, stands])
    (leaving_keeps 5 _) (by rw [pointer]; exact swapping_room), cr3, swapping_target] at continues
  exact absurd (continues.1 (by decide)) (by decide)

end Mykonos.Tasks.Switch
