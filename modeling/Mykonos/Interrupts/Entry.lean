import Mykonos.Interrupts.Gates
import Mykonos.Lib.Run
import Mykonos.Lib.Stack
import Mykonos.Tasks.Registers

/-! # Into an interrupt and out of it

`idtHandlers.S`, instruction by instruction, with what the processor does before and at
`iretq`. The handlers keep to the calling convention. A program that keeps nothing below
its stack pointer does not notice that it is interrupted.
-/

namespace Mykonos.Interrupts.Entry

open Lib
open Tasks.Switch (Register Operand Processor Flags)

/-! ## The processor -/

/-- The segments are saved by an interrupt. -/
structure Cpu extends Processor where
  cs : BitVec 16
  ss : BitVec 16

/-- What the stubs call, from the call to the return. -/
inductive Handler where
  | handleInterrupt
  | handleCpuException
  deriving Repr, DecidableEq

abbrev Handlers := Handler → Processor → Processor

inductive Instruction where
  | pushq (source : Register)
  | pushImmediate (value : Word)
  | popq (destination : Register)
  | movq (source : Operand) (destination : Register)
  | leaq (offset : Word) (base destination : Register)
  | addq (value : Word) (destination : Register)
  | subq (value : Word) (destination : Register)
  | callq (handler : Handler)
  | iretq
  deriving Repr, DecidableEq

/-- The flags after `b` has been added to `a`. -/
def sumFlags (flags : Flags) (a b : Word) : Flags :=
  Flags.load ((flags.word &&& ~~~0x8D5) ||| Flags.status 0 ((a + b).ult a) |||
    Flags.status 2 (((List.range 8).filter (a + b).getLsbD).length % 2 == 0) |||
    Flags.status 4 (((a &&& 15) + (b &&& 15)).getLsbD 4) ||| Flags.status 6 (a + b == 0) |||
    Flags.status 7 (a + b).msb ||| Flags.status 11 (a.msb == b.msb && (a + b).msb != a.msb))

/-- The interrupt flag. -/
def interruptible (flags : Flags) : Bool := flags.word.getLsbD 9

namespace Cpu

theorem ext {c d : Cpu} (register : c.register = d.register) (cr3 : c.cr3 = d.cr3)
    (rip : c.rip = d.rip) (rflags : c.rflags = d.rflags) (memory : c.memory = d.memory)
    (cs : c.cs = d.cs) (ss : c.ss = d.ss) : c = d := by
  rcases c with ⟨⟨⟩, _⟩
  rcases d with ⟨⟨⟩, _⟩
  subst register cr3 rip rflags memory cs ss
  rfl

def on (c : Cpu) (f : Processor → Processor) : Cpu := { c with toProcessor := f c.toProcessor }

/-- `iretq`. -/
def iret (c : Cpu) : Cpu where
  register := Function.update c.register .rsp (c.memory.read (c.register .rsp + 8 + 8 + 8))
  cr3 := c.cr3
  rip := c.memory.read (c.register .rsp)
  rflags := Flags.load (c.memory.read (c.register .rsp + 8 + 8))
  memory := c.memory
  cs := (c.memory.read (c.register .rsp + 8)).setWidth 16
  ss := (c.memory.read (c.register .rsp + 8 + 8 + 8 + 8)).setWidth 16

def execute (handlers : Handlers) (c : Cpu) : Instruction → Cpu
  | .pushq source => c.on (·.push (c.register source))
  | .pushImmediate value => c.on (·.push value)
  | .popq destination => c.on fun p => p.drop.set destination p.top
  | .movq source destination => c.on (·.set destination (c.value source))
  | .leaq offset base destination => c.on (·.set destination (c.register base + offset))
  | .addq value destination => c.on fun p =>
      { p.set destination (p.register destination + value) with
        rflags := sumFlags p.rflags (p.register destination) value }
  | .subq value destination => c.on fun p =>
      { p.set destination (p.register destination - value) with
        rflags := p.rflags.compare (p.register destination) value }
  | .callq handler => c.on (handlers handler)
  | .iretq => c.iret

/-- The words that the processor pushes, with an error code for some exceptions. -/
def frame (c : Cpu) (errorCode : Option Word) : List Word :=
  [c.ss.setWidth 64, c.register .rsp, c.rflags.word, c.cs.setWidth 64, c.rip] ++ errorCode.toList

/-- The processor goes through a gate, without a change of the privilege level. The stack
    is aligned first, and `TF`, `NT` and, unless it is a trap gate, `IF` are cleared. -/
def deliver (c : Cpu) (gate : Gate) (errorCode : Option Word) : Cpu where
  toProcessor :=
    { (c.frame errorCode).foldl Processor.push (c.set .rsp (c.register .rsp &&& ~~~15)) with
      rip := gate.offset
      rflags := Flags.load (c.rflags.word &&& ~~~(if gate.trap then 0x4100 else 0x4300)) }
  cs := gate.selector
  ss := c.ss

end Cpu

/-! ## The stubs -/

/-- What a C++ function may change. -/
def scratch : List Register := [.rax, .rcx, .rdx, .rdi, .rsi, .r8, .r9, .r10, .r11]

/-- The first instructions of both generic handlers. -/
def saveScratch : List Instruction :=
  [.pushq .rbp, .movq (.register .rsp) .rbp] ++ scratch.map .pushq

def restoreScratch : List Instruction := scratch.reverse.map .popq

def genericInterruptHandler : List Instruction :=
  saveScratch ++ [.movq (.memory 8 .rbp) .rdi, .callq .handleInterrupt] ++ restoreScratch ++
    [.popq .rbp, .addq 8 .rsp, .iretq]

/-- Up to the call. -/
def exceptionEntry : List Instruction :=
  saveScratch ++ [.movq (.memory 8 .rbp) .rdi, .movq (.memory 16 .rbp) .rsi, .leaq 24 .rbp .rdx]

def genericExceptionHandler : List Instruction :=
  exceptionEntry ++ [.callq .handleCpuException] ++ restoreScratch ++
    [.movq (.register .rbp) .rsp, .popq .rbp, .subq 16 .rsp, .iretq]

/-- What a stub does before it jumps to a generic handler. -/
inductive Stub where
  | errorCodeExceptionHandler (number : Word)
  | noErrorCodeExceptionHandler (number : Word)
  | interrupt (number : Word)
  deriving Repr, DecidableEq

def Stub.pushes : Stub → List Instruction
  | errorCodeExceptionHandler number => [.pushImmediate number]
  | noErrorCodeExceptionHandler number => [.pushImmediate 0, .pushImmediate number]
  | interrupt number => [.pushImmediate number]

/-- The jump leads to the instruction that follows it. -/
def Stub.code : Stub → List Instruction
  | errorCodeExceptionHandler number =>
    (errorCodeExceptionHandler number).pushes ++ genericExceptionHandler
  | noErrorCodeExceptionHandler number =>
      (noErrorCodeExceptionHandler number).pushes ++ genericExceptionHandler
  | interrupt number => (interrupt number).pushes ++ genericInterruptHandler

def reservedExceptions (count : Nat) : List Stub :=
  List.replicate count (.errorCodeExceptionHandler (-1))

def exceptionStubs : List Stub :=
  [0, 1, 2, 3, 4, 5, 6, 7].map .noErrorCodeExceptionHandler ++ [.errorCodeExceptionHandler 8] ++
    reservedExceptions 1 ++
  [10, 11, 12, 13, 14].map .errorCodeExceptionHandler ++ reservedExceptions 1 ++
  [.noErrorCodeExceptionHandler 16, .errorCodeExceptionHandler 17, .noErrorCodeExceptionHandler 18,
    .noErrorCodeExceptionHandler 19] ++
  reservedExceptions 1 ++ [.errorCodeExceptionHandler 21] ++ reservedExceptions 6 ++
  [.noErrorCodeExceptionHandler 28, .errorCodeExceptionHandler 29, .errorCodeExceptionHandler 30] ++
  reservedExceptions 1

/-- `idtFunctions`, in the order of the file. -/
def stubs : List Stub :=
  exceptionStubs ++ (List.range (256 - 32)).map fun i => .interrupt (BitVec.ofNat 64 (32 + i))

/-- The stub of an interrupt up to the call. -/
def interruptEntry (number : Word) : List Instruction :=
  [number].map .pushImmediate ++ saveScratch ++ [.movq (.memory 8 .rbp) .rdi]

/-- The rest of it from the return on. -/
def interruptExit : List Instruction := restoreScratch ++ [.popq .rbp, .addq 8 .rsp, .iretq]

theorem stubs_interrupt {vector : BitVec 8} (external : 32 ≤ vector.toNat) :
    stubs[vector.toNat]? = some (.interrupt (vector.setWidth 64)) := by
  have small := vector.isLt
  have first : exceptionStubs.length = 32 := rfl
  rw [stubs, List.getElem?_append_right (first ▸ external), first, List.getElem?_map,
    List.getElem?_range (by omega), Option.map_some, Nat.add_sub_cancel' external,
    BitVec.ofNat_toNat]

theorem stubs_exception {vector : BitVec 8} (internal : vector.toNat < 32) :
    stubs[vector.toNat]? = exceptionStubs[vector.toNat]? :=
  List.getElem?_append_left internal

/-! ## Running straight through -/

section Code

variable {handlers : Handlers} {c : Cpu}

/-- Registers are pushed one after the other. -/
theorem foldl_pushq {names : List Register} (others : .rsp ∉ names) (c : Cpu) :
    (names.map Instruction.pushq).foldl (Cpu.execute handlers) c =
      c.on fun p => (names.map c.register).foldl Processor.push p := by
  induction names generalizing c with
  | nil => rfl
  | cons name rest ih =>
      obtain ⟨other, later⟩ := not_or.mp (mt List.mem_cons.mpr others)
      have same : rest.map ((c.execute handlers (.pushq name)).register) = rest.map c.register := by
        refine List.map_congr_left fun next member => Processor.push_of_ne _ ?_ _
        rintro rfl
        exact later member
      rw [List.map_cons, List.foldl_cons, ih later, same]
      rfl

theorem foldl_push_register {name : Register} (other : name ≠ .rsp) (values : List Word)
    (p : Processor) :
    (values.foldl Processor.push p).register name = p.register name := by
  induction values generalizing p with
  | nil => rfl
  | cons value rest ih => exact (ih _).trans (p.push_of_ne other value)

theorem foldl_push_rsp (values : List Word) (p : Processor) :
    (values.foldl Processor.push p).register .rsp =
      p.register .rsp - BitVec.ofNat 64 (8 * values.length) := by
  induction values generalizing p with
  | nil => simp
  | cons value rest ih =>
      rw [List.foldl_cons, ih, Processor.push_rsp, List.length_cons, Nat.mul_succ, BitVec.ofNat_add,
        BitVec.sub_sub, BitVec.add_comm]
      rfl

theorem foldl_push_memory (values : List Word) (p : Processor) :
    (values.foldl Processor.push p).memory = p.memory.pushAll (p.register .rsp) values := by
  induction values generalizing p with
  | nil => rfl
  | cons value rest ih =>
      rw [List.foldl_cons, ih, Processor.push_rsp]
      rfl

theorem foldl_push_rest (values : List Word) (p : Processor) :
    (values.foldl Processor.push p).cr3 = p.cr3 ∧ (values.foldl Processor.push p).rip = p.rip ∧
      (values.foldl Processor.push p).rflags = p.rflags := by
  induction values generalizing p with
  | nil => exact ⟨rfl, rfl, rfl⟩
  | cons value rest ih => exact ih (p.push value)

theorem popq_self (c : Cpu) (name : Register) :
    (c.execute handlers (.popq name)).register name = c.memory.read (c.register .rsp) :=
  Function.update_self _ _ _

theorem popq_rsp (c : Cpu) {name : Register} (other : .rsp ≠ name) :
    (c.execute handlers (.popq name)).register .rsp = c.register .rsp + 8 :=
  (Processor.set_of_ne _ other _).trans (Processor.drop_rsp _)

theorem popq_of_ne (c : Cpu) {name next : Register} (other : next ≠ name) (stack : next ≠ .rsp) :
    (c.execute handlers (.popq name)).register next = c.register next :=
  (Processor.set_of_ne _ other _).trans (Processor.drop_of_ne _ stack)

theorem addq_self (c : Cpu) (value : Word) (name : Register) :
    (c.execute handlers (.addq value name)).register name = c.register name + value :=
  Function.update_self _ _ _

theorem addq_of_ne (c : Cpu) (value : Word) {name next : Register} (other : next ≠ name) :
    (c.execute handlers (.addq value name)).register next = c.register next :=
  Function.update_of_ne other _ _

/-- Registers are popped one after the other, each the word that stands for it. -/
theorem foldl_popq {names : List Register} (others : .rsp ∉ names) {values : Register → Word}
    {rest : List Word} (c : Cpu)
    (stacked : c.memory.Stacked (c.register .rsp) (names.map values ++ rest)) :
    (names.map Instruction.popq).foldl (Cpu.execute handlers) c =
      { c with
        register := fun name =>
          if name = .rsp then c.register .rsp + BitVec.ofNat 64 (8 * names.length)
          else if name ∈ names then values name else c.register name } := by
  induction names generalizing c with
  | nil =>
      have same : (fun name => if name = Register.rsp then c.register .rsp + BitVec.ofNat 64 (8 * 0)
          else if name ∈ ([] : List Register) then values name
          else c.register name) = c.register := by
        funext name
        by_cases here : name = .rsp <;> simp [here]
      exact congrArg (fun register => ({ c with register := register } : Cpu)) same.symm
  | cons name more ih =>
      obtain ⟨other, later⟩ := not_or.mp (mt List.mem_cons.mpr others)
      obtain ⟨top, below⟩ := stacked
      have pointer : (c.execute handlers (.popq name)).register .rsp = c.register .rsp + 8 :=
        popq_rsp c other
      have popped := ih later (c.execute handlers (.popq name)) (by rw [pointer]; exact below)
      rw [List.map_cons, List.foldl_cons, popped, pointer]
      refine congrArg (fun register => ({ c with register := register } : Cpu))
        (funext fun next => ?_)
      by_cases here : next = .rsp
      · rw [if_pos here, if_pos here, List.length_cons, Nat.mul_succ, BitVec.ofNat_add,
          BitVec.add_assoc, BitVec.add_comm 8]
        rfl
      · rw [if_neg here, if_neg here]
        by_cases this : next = name
        · subst this
          have value : (c.execute handlers (.popq next)).register next = values next :=
            (popq_self c next).trans top
          simp [value]
        · have value : (c.execute handlers (.popq name)).register next = c.register next :=
            (Processor.set_of_ne _ this _).trans (Processor.drop_of_ne _ here)
          simp [value, this]

/-- What the generic handlers save, in order. -/
def Cpu.saved (c : Cpu) : List Word := c.register .rbp :: scratch.map c.register

/-- Where the scratch registers are saved. -/
theorem foldl_saveScratch (c : Cpu) :
    saveScratch.foldl (Cpu.execute handlers) c =
      { c with
        register := fun name =>
          if name = .rsp then c.register .rsp - 80
          else if name = .rbp then c.register .rsp - 8 else c.register name
        memory := c.memory.pushAll (c.register .rsp) c.saved } := by
  obtain ⟨d, framed⟩ : ∃ d, d = [Instruction.pushq .rbp, .movq (.register .rsp) .rbp].foldl
      (Cpu.execute handlers) c :=
    ⟨_, rfl⟩
  have pointer : d.register .rbp = c.register .rsp - 8 := by
    rw [framed]
    exact Processor.set_self _ _ _
  have top : d.register .rsp = c.register .rsp - 8 := by
    rw [framed]
    exact (Processor.set_of_ne _ (by decide) _).trans (Processor.push_rsp _ _)
  have others : ∀ name, name ≠ .rsp → name ≠ .rbp → d.register name = c.register name := by
    intro name other this
    rw [framed]
    exact (Processor.set_of_ne _ this _).trans (Processor.push_of_ne _ other _)
  have same : scratch.map d.register = scratch.map c.register := by
    refine List.map_congr_left fun name member => others name ?_ ?_
    · rintro rfl
      exact absurd member (by decide)
    · rintro rfl
      exact absurd member (by decide)
  have low : c.register .rsp - 8 - BitVec.ofNat 64 (8 * (scratch.map c.register).length) =
      c.register .rsp - 80 := by
    rw [List.length_map, show BitVec.ofNat 64 (8 * scratch.length) = (72 : Word) from rfl]
    grind
  have pushed : (scratch.map Instruction.pushq).foldl (Cpu.execute handlers) d =
      d.on fun p => (scratch.map d.register).foldl Processor.push p := foldl_pushq (by decide) d
  rw [same] at pushed
  rw [saveScratch, List.foldl_append, ← framed, pushed]
  obtain ⟨cr3, rip, rflags⟩ := foldl_push_rest (scratch.map c.register) d.toProcessor
  have memory := foldl_push_memory (scratch.map c.register) d.toProcessor
  have registers :
      ((scratch.map c.register).foldl Processor.push d.toProcessor).register = fun name =>
      if name = .rsp then c.register .rsp - 80
      else if name = .rbp then c.register .rsp - 8 else c.register name := by
    funext name
    by_cases here : name = .rsp
    · rw [here, if_pos rfl, foldl_push_rsp, top, low]
    · rw [if_neg here, foldl_push_register here]
      split_ifs with base
      · rw [base, pointer]
      · exact others name here base
  rw [top] at memory
  have kept : d.cr3 = c.cr3 ∧ d.rip = c.rip ∧ d.rflags = c.rflags ∧ d.cs = c.cs ∧ d.ss = c.ss ∧
      d.memory = c.memory.write (c.register .rsp - 8) (c.register .rbp) := by
    rw [framed]
    exact ⟨rfl, rfl, rfl, rfl, rfl, rfl⟩
  obtain ⟨cr3', rip', rflags', cs, ss, first⟩ := kept
  refine Cpu.ext registers (cr3.trans cr3') (rip.trans rip') (rflags.trans rflags')
    (memory.trans ?_) cs ss
  rw [first]
  rfl

theorem foldl_pushImmediate (values : List Word) (c : Cpu) :
    (values.map Instruction.pushImmediate).foldl (Cpu.execute handlers) c =
      c.on fun p => values.foldl Processor.push p := by
  induction values generalizing c with
  | nil => rfl
  | cons value rest ih =>
      rw [List.map_cons, List.foldl_cons, ih]
      rfl

/-- The stack pointer as the processor aligns it. -/
def Cpu.aligned (c : Cpu) : Word := c.register .rsp &&& ~~~15

/-- The words on the stack when the scratch registers are saved. -/
def Cpu.words (c : Cpu) (errorCode : Option Word) (immediates : List Word) : List Word :=
  c.frame errorCode ++ immediates ++ c.saved

theorem deliver_rsp (c : Cpu) (gate : Gate) (errorCode : Option Word) :
    (c.deliver gate errorCode).register .rsp =
      c.aligned - BitVec.ofNat 64 (8 * (c.frame errorCode).length) := by
  have pushed := foldl_push_rsp (c.frame errorCode) (c.set .rsp (c.register .rsp &&& ~~~15))
  rw [Processor.set_self] at pushed
  exact pushed

theorem deliver_register (c : Cpu) (gate : Gate) (errorCode : Option Word) {name : Register}
    (other : name ≠ .rsp) :
    (c.deliver gate errorCode).register name = c.register name := by
  have pushed :=
    foldl_push_register other (c.frame errorCode) (c.set .rsp (c.register .rsp &&& ~~~15))
  rw [Processor.set_of_ne _ other] at pushed
  exact pushed

theorem deliver_memory (c : Cpu) (gate : Gate) (errorCode : Option Word) :
    (c.deliver gate errorCode).memory = c.memory.pushAll c.aligned (c.frame errorCode) := by
  have pushed := foldl_push_memory (c.frame errorCode) (c.set .rsp (c.register .rsp &&& ~~~15))
  rw [Processor.set_self] at pushed
  simp only [Cpu.deliver, pushed]
  rfl

theorem deliver_cr3 (c : Cpu) (gate : Gate) (errorCode : Option Word) :
    (c.deliver gate errorCode).cr3 = c.cr3 := by
  have pushed := (foldl_push_rest (c.frame errorCode) (c.set .rsp (c.register .rsp &&& ~~~15))).1
  simp only [Cpu.deliver, pushed]
  rfl

/-- More words are pushed where a stub begins. -/
theorem foldl_immediates (handlers : Handlers) (first : Cpu) (immediates : List Word) :
    ∃ d, (immediates.map Instruction.pushImmediate).foldl (Cpu.execute handlers) first = d ∧
      d.register .rsp = first.register .rsp - BitVec.ofNat 64 (8 * immediates.length) ∧
      (∀ name, name ≠ .rsp → d.register name = first.register name) ∧
      d.memory = first.memory.pushAll (first.register .rsp) immediates ∧ d.cr3 = first.cr3 ∧
      d.rflags = first.rflags := by
  refine ⟨_, foldl_pushImmediate immediates first, foldl_push_rsp immediates first.toProcessor,
    fun name other => ?_, foldl_push_memory immediates first.toProcessor, ?_⟩
  · exact foldl_push_register other immediates first.toProcessor
  · obtain ⟨cr3, -, rflags⟩ := foldl_push_rest immediates first.toProcessor
    exact ⟨cr3, rflags⟩

/-- Where a stub has saved the scratch registers, whatever it pushed before. -/
theorem foldl_entry (handlers : Handlers) (c : Cpu) (gate : Gate) (errorCode : Option Word)
    (immediates : List Word) :
    ∃ q, (immediates.map Instruction.pushImmediate ++ saveScratch).foldl (Cpu.execute handlers)
        (c.deliver gate errorCode) = q ∧
      q.register .rsp = c.aligned - BitVec.ofNat 64 (8 * (c.words errorCode immediates).length) ∧
      q.register .rbp = q.register .rsp + 72 ∧
      (∀ name, name ≠ .rsp → name ≠ .rbp → q.register name = c.register name) ∧
      q.memory = c.memory.pushAll c.aligned (c.words errorCode immediates) ∧ q.cr3 = c.cr3 ∧
      q.rflags = (c.deliver gate errorCode).rflags := by
  obtain ⟨d, numbered, top, others, memory, cr3, rflags⟩ :=
    foldl_immediates handlers (c.deliver gate errorCode) immediates
  rw [deliver_rsp] at top memory
  rw [BitVec.sub_sub, ← BitVec.ofNat_add, ← Nat.mul_add, ← List.length_append] at top
  rw [deliver_memory, ← Store.pushAll_append] at memory
  have others : ∀ name, name ≠ .rsp → d.register name = c.register name := fun name other =>
    (others name other).trans (deliver_register c gate errorCode other)
  have saved : d.saved = c.saved := by
    rw [Cpu.saved, Cpu.saved, others _ (by decide)]
    refine congrArg _ (List.map_congr_left fun name member => others name ?_)
    rintro rfl
    exact absurd member (by decide)
  have low : d.register .rsp - 80 =
      c.aligned - BitVec.ofNat 64 (8 * (c.words errorCode immediates).length) := by
    have length :
        (c.words errorCode immediates).length = (c.frame errorCode ++ immediates).length + 10 :=
      List.length_append
    rw [top, length, Nat.mul_add, BitVec.ofNat_add, BitVec.sub_sub]
    rfl
  refine ⟨_, rfl, ?_⟩
  rw [List.foldl_append, numbered, foldl_saveScratch]
  refine ⟨low, ?_, fun name other this => ?_, ?_, cr3.trans (deliver_cr3 c gate errorCode), rflags⟩
  · change d.register .rsp - 8 = d.register .rsp - 80 + 72
    grind
  · exact (if_neg other).trans ((if_neg this).trans (others name other))
  · change d.memory.pushAll (d.register .rsp) d.saved = _
    rw [saved, memory, top, ← Store.pushAll_append]
    rfl

theorem iret_rsp (c : Cpu) :
    c.iret.register .rsp = c.memory.read (c.register .rsp + 8 + 8 + 8) := by
  simp only [Cpu.iret, Function.update_self]

theorem iret_of_ne (c : Cpu) {name : Register} (other : name ≠ .rsp) :
    c.iret.register name = c.register name := by
  simp only [Cpu.iret, Function.update_of_ne other]

theorem load_word (flags : Flags) : Flags.load flags.word = flags := by
  have same := (Tasks.Switch.load_word_iff flags.word).mpr flags.fixed
  rcases flags with ⟨word, fixed⟩
  simp only [Flags.load, Flags.mk.injEq] at same ⊢
  exact same

/-- The stack pointer where the scratch registers are saved. -/
def Cpu.low (c : Cpu) (errorCode : Option Word) (immediates : List Word) : Word :=
  c.aligned - BitVec.ofNat 64 (8 * (c.words errorCode immediates).length)

theorem toNat_low {c : Cpu} {base : Word} {errorCode : Option Word} {immediates : List Word}
    (room : 15 + 8 * (c.words errorCode immediates).length ≤ (c.register .rsp - base).toNat) :
    ∃ gap ≤ 15, (c.aligned - base).toNat = (c.register .rsp - base).toNat - gap ∧
      (c.low errorCode immediates - base).toNat =
        (c.register .rsp - base).toNat - gap - 8 * (c.words errorCode immediates).length := by
  obtain ⟨gap, small, aligned⟩ := exists_aligned (c.register .rsp)
  have top : (c.aligned - base).toNat = (c.register .rsp - base).toNat - gap := by
    rw [Cpu.aligned, aligned]
    exact toNat_lower (by omega)
  have enough : 8 * (c.words errorCode immediates).length ≤ (c.aligned - base).toNat := by omega
  exact ⟨gap, small, top, by rw [Cpu.low, toNat_lower enough, top]⟩

/-- The bytes of the words are dead to who is interrupted, and live to what is called. -/
theorem words_inside {c : Cpu} {base : Word} {errorCode : Option Word}
    {immediates : List Word} {x : Word}
    (room : 15 + 8 * (c.words errorCode immediates).length ≤ (c.register .rsp - base).toNat)
    (inside : (x - c.low errorCode immediates).toNat < 8 * (c.words errorCode immediates).length) :
    Dead base (c.register .rsp) x ∧ ¬Dead base (c.low errorCode immediates) x := by
  obtain ⟨gap, small, -, low⟩ := toNat_low room
  have whole : x - base = x - c.low errorCode immediates + (c.low errorCode immediates - base) := by
    grind
  have bounded := (c.register .rsp - base).isLt
  have sum : (x - base).toNat = (x - c.low errorCode immediates).toNat +
      (c.low errorCode immediates - base).toNat := by
    rw [whole, BitVec.toNat_add_of_lt (by omega)]
  unfold Dead
  omega

theorem low_live {c : Cpu} {base : Word} {errorCode : Option Word}
    {immediates : List Word} {x : Word}
    (room : 15 + 8 * (c.words errorCode immediates).length ≤ (c.register .rsp - base).toNat)
    (live : ¬Dead base (c.register .rsp) x) : ¬Dead base (c.low errorCode immediates) x := by
  obtain ⟨gap, -, -, low⟩ := toNat_low room
  unfold Dead at live ⊢
  omega

theorem entry_live {c : Cpu} {base : Word} {errorCode : Option Word}
    {immediates : List Word} {x : Word}
    (room : 15 + 8 * (c.words errorCode immediates).length ≤ (c.register .rsp - base).toNat)
    (live : ¬Dead base (c.register .rsp) x) :
    c.memory.pushAll c.aligned (c.words errorCode immediates) x = c.memory x := by
  obtain ⟨gap, small, top, -⟩ := toNat_low room
  have enough : 8 * (c.words errorCode immediates).length ≤ (c.aligned - base).toNat := by omega
  refine Store.pushAll_live enough fun dead => live ?_
  unfold Dead at dead ⊢
  omega

/-- What a stub left on the stack stands there as long as nobody writes to it. -/
theorem words_stand {c : Cpu} {base : Word} {errorCode : Option Word} {immediates : List Word}
    {memory : Store}
    (room : 15 + 8 * (c.words errorCode immediates).length ≤ (c.register .rsp - base).toNat)
    (kept : ∀ x, Dead base (c.register .rsp) x → ¬Dead base (c.low errorCode immediates) x →
      memory x = c.memory.pushAll c.aligned (c.words errorCode immediates) x) :
    memory.Stacked (c.low errorCode immediates) (c.words errorCode immediates).reverse := by
  have bounded := (c.register .rsp - base).isLt
  have fits : 8 * (c.words errorCode immediates).length ≤ 2 ^ 64 := by omega
  have pushed : (c.memory.pushAll c.aligned (c.words errorCode immediates)).Stacked
    (c.low errorCode immediates)
      ((c.words errorCode immediates).reverse ++ []) :=
        Store.Stacked.pushAll trivial (by simpa using fits)
  rw [List.append_nil] at pushed
  refine pushed.congr (by rwa [List.length_reverse]) fun x inside => ?_
  rw [List.length_reverse] at inside
  obtain ⟨dead, live⟩ := words_inside room inside
  exact kept x dead live

/-- Where a stub calls `handleInterrupt`, with the number of the interrupt. -/
theorem foldl_call (handlers : Handlers) (c : Cpu) (gate : Gate) {base number : Word}
    (room : 15 + 8 * (c.words none [number]).length ≤ (c.register .rsp - base).toNat) :
    ∃ e, (interruptEntry number).foldl (Cpu.execute handlers) (c.deliver gate none) = e ∧
      e.register .rsp = c.low none [number] ∧ e.register .rdi = number ∧
      (∀ name, name ≠ .rsp → name ≠ .rbp → name ≠ .rdi → e.register name = c.register name) ∧
      e.memory = c.memory.pushAll c.aligned (c.words none [number]) ∧ e.cr3 = c.cr3 ∧
      e.cs = gate.selector ∧
      e.ss = c.ss := by
  obtain ⟨q, entered, top, frame, registers, memory, cr3, -⟩ :=
    foldl_entry handlers c gate none [number]
  have segments : q.cs = gate.selector ∧ q.ss = c.ss := by
    rw [← entered, List.foldl_append, foldl_pushImmediate, foldl_saveScratch]
    exact ⟨rfl, rfl⟩
  have stacked : q.memory.Stacked (c.low none [number]) (c.words none [number]).reverse :=
    words_stand room fun x _ _ => by rw [memory]
  have order : (c.words none [number]).reverse = c.saved.reverse ++
    [number, c.rip, c.cs.setWidth 64, c.rflags.word,
      c.register .rsp, c.ss.setWidth 64] := rfl
  rw [order] at stacked
  have first := stacked.drop.1
  change q.register .rsp = c.low none [number] at top
  have place :
      q.register .rbp + 8 = c.low none [number] + BitVec.ofNat 64 (8 * c.saved.reverse.length) := by
    rw [frame, top, BitVec.add_assoc]
    rfl
  rw [← place] at first
  refine ⟨q.execute handlers (.movq (.memory 8 .rbp) .rdi),
    by rw [interruptEntry, List.foldl_append, entered]; rfl, ?_, ?_, fun name stack base argument =>
      ?_, memory, cr3, segments.1, segments.2⟩
  · exact (Processor.set_of_ne _ (by decide) _).trans top
  · exact (Processor.set_self _ _ _).trans first
  · exact (Processor.set_of_ne _ argument _).trans (registers name stack base)

/-- The registers are restored, and the processor goes on where it was interrupted. -/
theorem foldl_leave {c d : Cpu} {number : Word}
    (stacked : d.memory.Stacked (d.register .rsp) (c.words none [number]).reverse)
    (kept : ∀ name ∈ [Register.rbx, .r12, .r13, .r14, .r15], d.register name = c.register name) :
    interruptExit.foldl (Cpu.execute handlers) d = { c with cr3 := d.cr3, memory := d.memory } := by
  have order : (c.words none [number]).reverse = scratch.reverse.map c.register ++
      [c.register .rbp, number, c.rip, c.cs.setWidth 64, c.rflags.word, c.register .rsp,
        c.ss.setWidth 64] := rfl
  rw [order] at stacked
  obtain ⟨rbp, -, rip, cs, rflags, rsp, ss, -⟩ := stacked.drop
  have popped : restoreScratch.foldl (Cpu.execute handlers) d = _ :=
    foldl_popq (by decide) d stacked
  rw [interruptExit, List.foldl_append, popped]
  obtain ⟨e, restored⟩ : ∃ e : Cpu, e = { d with
      register := fun name =>
        if name = .rsp then d.register .rsp + BitVec.ofNat 64 (8 * scratch.reverse.length)
        else if name ∈ scratch.reverse then c.register name else d.register name } := ⟨_, rfl⟩
  have top : e.register .rsp = d.register .rsp + BitVec.ofNat 64 (8 * scratch.reverse.length) := by
    simp only [restored, if_true]
  have memory : e.memory = d.memory := by rw [restored]
  have others : ∀ name, name ≠ .rsp → name ≠ .rbp → e.register name = c.register name := by
    intro name other this
    rw [restored]
    refine (if_neg other).trans ?_
    split_ifs with scratched
    · rfl
    · refine kept name ?_
      cases name <;>
        first
        | decide
        | exact absurd rfl other
        | exact absurd rfl this
        | exact absurd (by decide) scratched
  rw [List.length_map, ← top, ← memory] at rbp rip cs rflags rsp ss
  rw [← restored]
  obtain ⟨f, passed⟩ : ∃ f, f = (e.execute handlers (.popq .rbp)).execute handlers (.addq 8 .rsp) :=
    ⟨_, rfl⟩
  have pointer : f.register .rsp = e.register .rsp + 8 + 8 := by
    rw [passed, addq_self, popq_rsp e (by decide)]
  have registers : ∀ name, name ≠ .rsp → f.register name = c.register name := by
    intro name other
    rw [passed, addq_of_ne _ _ other]
    by_cases this : name = .rbp
    · rw [this, popq_self, rbp]
    · rw [popq_of_ne e this other, others name other this]
  have memory' : f.memory = e.memory := by
    rw [passed]
    rfl
  have cr3 : f.cr3 = d.cr3 := by
    rw [passed, restored]
    rfl
  have last :
      [Instruction.popq .rbp, .addq 8 .rsp, .iretq].foldl (Cpu.execute handlers) e = f.iret := by
    rw [passed]
    rfl
  rw [last]
  rw [← pointer, ← memory'] at rip cs rflags rsp ss
  refine Cpu.ext (funext fun name => ?_) cr3 rip ?_ (memory'.trans memory) ?_ ?_
  · by_cases here : name = .rsp
    · rw [here, iret_rsp, rsp]
    · rw [iret_of_ne f here, registers name here]
  · exact (congrArg Flags.load rflags).trans (load_word c.rflags)
  · exact (congrArg (BitVec.setWidth 16) cs).trans (by simp)
  · exact (congrArg (BitVec.setWidth 16) ss).trans (by simp)

end Code

/-! ## An interrupted program -/

/-- The same to a program that keeps nothing below its stack pointer. -/
structure Alike (base : Word) (c d : Cpu) : Prop where
  register : c.register = d.register
  cr3 : c.cr3 = d.cr3
  rip : c.rip = d.rip
  rflags : c.rflags = d.rflags
  cs : c.cs = d.cs
  ss : c.ss = d.ss
  memory : ∀ x, ¬Dead base (c.register .rsp) x → c.memory x = d.memory x

/-- The functions of the table are the stubs. -/
def Linked (text : Word → List Instruction) (idtFunctions : BitVec 8 → Word) : Prop :=
  ∀ vector : BitVec 8, ∃ stub, stubs[vector.toNat]? = some stub ∧
    text (idtFunctions vector) = stub.code

/-- `handleInterrupt` keeps to the calling convention where it has as much stack as it
    needs. What it does to memory that is not below its stack pointer depends on the vector
    and on the part that it shares with the program, and it only writes there. -/
structure Serves (handlers : Handlers) (depth : Nat) (base : Word) (shared : Word → Prop)
    (effect : BitVec 8 → Store → Store) : Prop where
  register : ∀ p : Processor, depth ≤ (p.register .rsp - base).toNat →
    ∀ name ∈ [Register.rbx, .rsp, .rbp, .r12, .r13, .r14, .r15],
      (handlers .handleInterrupt p).register name = p.register name
  cr3 : ∀ p : Processor, depth ≤ (p.register .rsp - base).toNat →
    (handlers .handleInterrupt p).cr3 = p.cr3
  memory : ∀ p : Processor, depth ≤ (p.register .rsp - base).toNat →
    ∀ x, ¬Dead base (p.register .rsp) x → (handlers .handleInterrupt p).memory x =
      effect ((p.register .rdi).setWidth 8) p.memory x
  confined : ∀ vector, Confined shared (effect vector)

/-- The program does the same whatever is below its stack pointer. -/
def Respects (base : Word) (program : Cpu → Option Cpu) : Prop :=
  ∀ c d c', Alike base c d → program c = some c' → ∃ d', program d = some d' ∧ Alike base c' d'

/-- The processor takes an interrupt, executes the function of its vector and returns. -/
def Cpu.interrupt? (handlers : Handlers) (text : Word → List Instruction)
    (idtPointer : IdtPointer) (c : Cpu) (vector : BitVec 8) : Option Cpu :=
  (fetch c.memory idtPointer vector).map fun gate =>
    (text gate.offset).foldl (Cpu.execute handlers) (c.deliver gate none)

/-- The stack has room for an interrupt and its handler, nothing that is shared is below its
    pointer, and the table is there. -/
structure Fit (depth : Nat) (base : Word) (shared : Word → Prop) (idtFunctions : BitVec 8 → Word)
    (idtPointer : IdtPointer) (c : Cpu) (vector : BitVec 8) : Prop where
  room : 15 + 8 * 16 + depth ≤ (c.register .rsp - base).toNat
  shared : ∀ x, shared x → ¬Dead base (c.register .rsp) x
  table : fetch c.memory idtPointer vector = some (gateOf idtFunctions vector)

section Programs

variable (handlers : Handlers) (text : Word → List Instruction) (idtFunctions : BitVec 8 → Word)
  (idtPointer : IdtPointer) (depth : Nat) (base : Word) (shared : Word → Prop)
  (effect : BitVec 8 → Store → Store) (program : Cpu → Option Cpu)

/-- The program takes a step, or is interrupted. -/
inductive Interrupted : Cpu → Option (BitVec 8) → Cpu → Prop where
  | program {c d : Cpu} (step : program c = some d) : Interrupted c none d
  | interrupt {c d : Cpu} {vector : BitVec 8} (enabled : interruptible c.rflags = true)
      (external : 32 ≤ vector.toNat) (fit : Fit depth base shared idtFunctions idtPointer c vector)
      (taken : c.interrupt? handlers text idtPointer vector = some d) :
        Interrupted c (some vector) d

/-- The same with handlers that take effect at once. -/
inductive Undisturbed : Cpu → Option (BitVec 8) → Cpu → Prop where
  | program {c d : Cpu} (step : program c = some d) : Undisturbed c none d
  | interrupt {c : Cpu} {vector : BitVec 8} (enabled : interruptible c.rflags = true)
      (external : 32 ≤ vector.toNat) :
      Undisturbed c (some vector) { c with memory := effect vector c.memory }

end Programs

section Interrupts

variable {handlers : Handlers} {text : Word → List Instruction} {idtFunctions : BitVec 8 → Word}
  {idtPointer : IdtPointer} {depth : Nat} {base : Word} {shared : Word → Prop}
  {effect : BitVec 8 → Store → Store} {program : Cpu → Option Cpu}

/-- An interrupt changes nothing but memory, and that as the handler does. -/
theorem interrupt_spec (serves : Serves handlers depth base shared effect)
    (linked : Linked text idtFunctions) {c d : Cpu} {vector : BitVec 8}
    (external : 32 ≤ vector.toNat) (fit : Fit depth base shared idtFunctions idtPointer c vector)
    (taken : c.interrupt? handlers text idtPointer vector = some d) :
    d = { c with memory := d.memory } ∧
      ∀ x, ¬Dead base (c.register .rsp) x → d.memory x = effect vector c.memory x := by
  obtain ⟨stub, found, code⟩ := linked vector
  cases found.symm.trans (stubs_interrupt external)
  rw [Cpu.interrupt?, fit.table, Option.map_some, Option.some.injEq, gateOf, code] at taken
  obtain ⟨number, named⟩ : ∃ number : Word, number = vector.setWidth 64 := ⟨_, rfl⟩
  rw [← named] at taken
  have sixteen : (c.words none [number]).length = 16 := rfl
  have deep := fit.room
  have room : 15 + 8 * (c.words none [number]).length ≤ (c.register .rsp - base).toNat := by omega
  obtain ⟨e, entered, top, argument, registers, memory, cr3, -, -⟩ :=
    foldl_call handlers c (gateOf idtFunctions vector) room
  have enough : depth ≤ (e.register .rsp - base).toNat := by
    obtain ⟨gap, small, -, low⟩ := toNat_low room
    rw [top, low]
    omega
  -- the handler is called with the number of the interrupt
  have this : (e.register .rdi).setWidth 8 = vector := by
    rw [argument, named]
    exact BitVec.setWidth_setWidth_of_le vector (by decide)
  obtain ⟨f, called⟩ : ∃ f, f = e.on (handlers .handleInterrupt) := ⟨_, rfl⟩
  have served : ∀ x, ¬Dead base (c.low none [number]) x →
      f.memory x = effect vector e.memory x := by
    intro x live
    rw [← top] at live
    have after := serves.memory e.toProcessor enough x live
    rw [this] at after
    rw [called]
    exact after
  have kept : ∀ name ∈ [Register.rbx, .r12, .r13, .r14, .r15], f.register name =
      c.register name := by
    intro name member
    have preserved :=
      serves.register e.toProcessor enough name (by revert member; cases name <;> decide)
    rw [called]
    refine preserved.trans (registers name ?_ ?_ ?_) <;>
    · rintro rfl
      exact absurd member (by decide)
  have stands : f.memory.Stacked (f.register .rsp) (c.words none [number]).reverse := by
    have pointer : f.register .rsp = c.low none [number] := by
      rw [called]
      exact (serves.register e.toProcessor enough .rsp (by decide)).trans top
    rw [pointer]
    refine words_stand room fun x dead live => ?_
    rw [served x live, (serves.confined vector).only _ x fun mine => fit.shared x mine dead, memory]
  have split : (Stub.interrupt number).code = interruptEntry number ++
    ([.callq .handleInterrupt] ++ interruptExit) := rfl
  have middle : [Instruction.callq .handleInterrupt].foldl (Cpu.execute handlers) e = f := by
    rw [called]
    rfl
  rw [split, List.foldl_append] at taken
  change List.foldl _ (List.foldl _ (c.deliver (gateOf idtFunctions vector) none) _) _ = d at taken
  rw [entered, List.foldl_append, middle, foldl_leave stands kept] at taken
  have same_cr3 : f.cr3 = c.cr3 := by
    rw [called]
    exact (serves.cr3 e.toProcessor enough).trans cr3
  subst taken
  have pushed : ∀ x, ¬Dead base (c.register .rsp) x → e.memory x = c.memory x := fun x live => by
    rw [memory, entry_live room live]
  refine ⟨by rw [same_cr3], fun x live => ?_⟩
  change f.memory x = effect vector c.memory x
  rw [served x (low_live room live)]
  exact (serves.confined vector).agree (fun y dead mine => fit.shared y mine dead) pushed live

/-- A program that keeps nothing below its stack pointer goes on as if it had not been
    interrupted, but for what the handlers do to the memory they share with it. -/
theorem interrupts_invisible (serves : Serves handlers depth base shared effect)
    (linked : Linked text idtFunctions) (respects : Respects base program) {c d : Cpu}
    {events : List (Option (BitVec 8))}
    (run : Run (Interrupted handlers text idtFunctions idtPointer depth base shared program) c
      events d) :
    ∃ e, Run (Undisturbed effect program) c events e ∧ Alike base d e := by
  induction run with
  | start => exact ⟨_, .start _, rfl, rfl, rfl, rfl, rfl, rfl, fun _ _ => rfl⟩
  | next before last ih =>
      obtain ⟨e, run, alike⟩ := ih
      cases last with
      | program step =>
          obtain ⟨e', step', alike'⟩ := respects _ _ _ alike step
          exact ⟨e', run.next (.program step'), alike'⟩
      | @interrupt _ vector enabled external fit taken =>
          obtain ⟨unchanged, served⟩ := interrupt_spec serves linked external fit taken
          refine ⟨_, run.next (.interrupt (alike.rflags ▸ enabled) external), ?_⟩
          rw [unchanged]
          refine ⟨alike.register, alike.cr3, alike.rip, alike.rflags, alike.cs, alike.ss,
            fun x live => ?_⟩
          change _ = effect vector e.memory x
          rw [served x live]
          exact (serves.confined vector).agree (fun y dead mine => fit.shared y mine dead)
            alike.memory live

/-- Pushing a register is something that such a program may do. -/
theorem Alike.push {c d : Cpu} (alike : Alike base c d) (room : 8 ≤ (c.register .rsp - base).toNat)
    (name : Register) :
    Alike base (c.on (·.push (c.register name))) (d.on (·.push (d.register name))) := by
  have pointer : d.register .rsp = c.register .rsp := by rw [alike.register]
  have value : d.register name = c.register name := by rw [alike.register]
  refine ⟨?_, alike.cr3, alike.rip, alike.rflags, alike.cs, alike.ss, fun x live => ?_⟩
  · change Function.update c.register .rsp (c.register .rsp - 8) =
      Function.update d.register .rsp (d.register .rsp - 8)
    rw [alike.register]
  · change c.memory.write (c.register .rsp - 8) (c.register name) x =
      d.memory.write (d.register .rsp - 8) (d.register name) x
    rw [pointer, value]
    change ¬Dead base ((c.toProcessor.push (c.register name)).register .rsp) x at live
    rw [Processor.push_rsp] at live
    unfold Store.write
    split_ifs with inside
    · rfl
    · refine alike.memory x fun dead => inside ?_
      have lower : (c.register .rsp - 8 - base).toNat = (c.register .rsp - base).toNat - 8 :=
        toNat_lower room
      have regroup : x - (c.register .rsp - 8) = x - base - (c.register .rsp - 8 - base) := by grind
      unfold Dead at dead live
      rw [regroup, BitVec.toNat_sub_of_le (by rw [BitVec.le_def]; omega)]
      omega

/-- The stubs one after the other. -/
def sampleText (address : Word) : List Instruction :=
  ((stubs[address.toNat]?).getD (.interrupt 0)).code

theorem sampleText_linked : Linked sampleText fun vector => vector.setWidth 64 := by
  intro vector
  have small := vector.isLt
  have here : (vector.setWidth 64).toNat = vector.toNat := by
    rw [BitVec.toNat_setWidth, Nat.mod_eq_of_lt (by omega)]
  have inside : vector.toNat < stubs.length := by
    rw [stubs, List.length_append, List.length_map, List.length_range]
    exact small
  refine ⟨stubs[vector.toNat], List.getElem?_eq_getElem inside, ?_⟩
  rw [sampleText, here, List.getElem?_eq_getElem inside, Option.getD_some]

/-- A count that the handlers and the program share is at `0x9000`. -/
def counted (memory : Store) : Store := Function.update memory 0x9000 (memory 0x9000 + 1)

def sampleHandlers : Handlers := fun _ p => { p.set .rax 7 with memory := counted p.memory }

theorem sampleHandlers_serve (depth : Nat) (base : Word) :
    Serves sampleHandlers depth base (· = 0x9000) fun _ => counted where
  register p _ name member := p.set_of_ne (by rintro rfl; exact absurd member (by decide)) 7
  cr3 _ _ := rfl
  memory _ _ _ _ := rfl
  confined _ := by
    refine ⟨fun memory x other => Function.update_of_ne other _ memory,
      fun memory other same x mine => ?_⟩
    subst mine
    rw [counted, counted, Function.update_self, Function.update_self, same _ rfl]

/-- The entries of the table are in memory that was zero. -/
def blankEntry : IdtEntry := ⟨0, 0, 0, 0, 0, 0, 0, 0, 0, 0⟩

@[irreducible] def sampleTable : Store × IdtPointer :=
  init (fun vector => vector.setWidth 64) (fun _ => blankEntry) 0x100000 fun _ => 0

theorem sampleTable_fetch (vector : BitVec 8) :
    fetch sampleTable.1 sampleTable.2 vector =
      some (gateOf (fun vector => vector.setWidth 64) vector) := by
  have blank : (blankEntry.zero = 0) = True := eq_true rfl
  unfold sampleTable
  exact (init_fetch ..).trans (if_pos (of_eq_true blank))

/-- It pushes `%rax` as long as there is room. -/
def pushing (c : Cpu) : Option Cpu :=
  if 8 ≤ (c.register .rsp - 0x1000).toNat then some (c.on (·.push (c.register .rax))) else none

theorem pushing_respects : Respects 0x1000 pushing := by
  intro c d c' alike step
  obtain ⟨room, same⟩ := (Option.ite_none_right_eq_some ..).mp step
  cases same
  refine ⟨_, ?_, alike.push room .rax⟩
  rw [pushing, if_pos (by rwa [← alike.register])]

def pushingCpu : Cpu where
  register
    | .rsp => 0x8000
    | _ => 5
  cr3 := 1
  rip := 0x3000
  rflags := Flags.load 0x200
  memory := sampleTable.1
  cs := 8
  ss := 0

theorem interrupts_invisible_pushing :
    ∃ d, Run (Interrupted sampleHandlers sampleText (fun vector => vector.setWidth 64)
      sampleTable.2 0 0x1000
        (· = 0x9000) pushing) pushingCpu [some 0x20, none] d ∧
      ∃ e, Run (Undisturbed (fun _ => counted) pushing) pushingCpu [some 0x20, none] e ∧
      Alike 0x1000 d e := by
  have table : fetch pushingCpu.memory sampleTable.2 0x20 =
      some (gateOf (fun vector => vector.setWidth 64) 0x20) :=
    sampleTable_fetch 0x20
  have fit :
      Fit 0 0x1000 (· = 0x9000) (fun vector => vector.setWidth 64) sampleTable.2 pushingCpu 0x20 :=
    ⟨by decide, by rintro x rfl; decide, table⟩
  obtain ⟨c, taken⟩ :
      ∃ c, pushingCpu.interrupt? sampleHandlers sampleText sampleTable.2 0x20 = some c :=
    ⟨_, by rw [Cpu.interrupt?, table, Option.map_some]⟩
  have there : c.register = pushingCpu.register := by
    rw [(interrupt_spec (sampleHandlers_serve 0 0x1000) sampleText_linked (by decide) fit taken).1]
  have step : pushing c = some (c.on (·.push (c.register .rax))) := by
    rw [pushing, if_pos (by rw [there]; decide)]
  have run := (Run.single (Interrupted.interrupt rfl (by decide) fit taken)).next
    (Interrupted.program step)
  exact ⟨_, run, interrupts_invisible (sampleHandlers_serve 0 0x1000) sampleText_linked
    pushing_respects run⟩

end Interrupts

/-! ## Exceptions -/

/-- The vectors that are no exception. -/
def reservedVectors : List Nat := [9, 15, 20, 22, 23, 24, 25, 26, 27, 31]

/-- The exceptions for which the processor pushes an error code. -/
def withErrorCode : List Nat := [8, 10, 11, 12, 13, 14, 17, 21, 29, 30]

/-- The processor gets to the call of `handleCpuException`, which does not return. -/
def Cpu.exception? (handlers : Handlers) (text : Word → List Instruction)
    (idtPointer : IdtPointer) (c : Cpu) (vector : BitVec 8) (errorCode : Option Word) :
    Option Cpu :=
  (fetch c.memory idtPointer vector).map fun gate =>
    ((text gate.offset).takeWhile (· != .callq .handleCpuException)).foldl (Cpu.execute handlers)
      (c.deliver gate errorCode)

/-- The arguments of `handleCpuException`: the number, the error code and what was
    interrupted. -/
structure Reported (base : Word) (c : Cpu) (vector : BitVec 8) (errorCode : Option Word)
    (p : Cpu) : Prop where
  exceptionNumber : p.register .rdi = vector.setWidth 64
  errorCode : p.register .rsi = errorCode.getD 0
  rip : p.memory.read (p.register .rdx) = c.rip
  cs : p.memory.read (p.register .rdx + 8) = c.cs.setWidth 64
  rflags : p.memory.read (p.register .rdx + 8 + 8) = c.rflags.word
  rsp : p.memory.read (p.register .rdx + 8 + 8 + 8) = c.register .rsp
  ss : p.memory.read (p.register .rdx + 8 + 8 + 8 + 8) = c.ss.setWidth 64
  interruptible : interruptible p.rflags = interruptible c.rflags
  memory : ∀ x, ¬Dead base (c.register .rsp) x → p.memory x = c.memory x

section Exceptions

variable {handlers : Handlers} {text : Word → List Instruction} {idtFunctions : BitVec 8 → Word}
  {idtPointer : IdtPointer} {base : Word}

theorem interruptible_deliver (c : Cpu) (gate : Gate) (errorCode : Option Word) :
    interruptible (c.deliver gate errorCode).rflags = (gate.trap && interruptible c.rflags) := by
  have mask : Tasks.Switch.loadable.getLsbD 9 = true := rfl
  have fixed : (2 : Word).getLsbD 9 = false := rfl
  have bits : (~~~(if gate.trap then 0x4100 else 0x4300 : Word)).getLsbD 9 = gate.trap := by
    cases gate.trap <;> rfl
  simp only [interruptible, Cpu.deliver, Flags.load, BitVec.getLsbD_or, BitVec.getLsbD_and,
    mask, fixed, bits, Bool.and_true, Bool.or_false]
  exact Bool.and_comm _ _

/-- The stub of an exception agrees with the processor on the error code. -/
theorem exceptionStubs_agree :
    ∀ n < 32, n ∉ reservedVectors → exceptionStubs[n]? = some (if n ∈ withErrorCode then
    .errorCodeExceptionHandler (BitVec.ofNat 64 n)
    else .noErrorCodeExceptionHandler (BitVec.ofNat 64 n)) := by
  decide

/-- Whatever is interrupted by an exception, the handler gets to know which one it is, its
    error code and where it happened. -/
theorem exceptions_reported (linked : Linked text idtFunctions) {c : Cpu} {vector : BitVec 8}
    {errorCode : Option Word} (internal : vector.toNat < 32)
    (known : vector.toNat ∉ reservedVectors)
    (coded : errorCode.isSome = decide (vector.toNat ∈ withErrorCode))
    (room : 15 + 8 * 17 ≤ (c.register .rsp - base).toNat)
    (table : fetch c.memory idtPointer vector = some (gateOf idtFunctions vector)) :
    ∃ p, c.exception? handlers text idtPointer vector errorCode = some p ∧
    Reported base c vector errorCode p := by
  obtain ⟨stub, found, code⟩ := linked vector
  obtain ⟨number, named⟩ : ∃ number : Word, number = vector.setWidth 64 := ⟨_, rfl⟩
  rw [stubs_exception internal, exceptionStubs_agree vector.toNat internal known,
    BitVec.ofNat_toNat, ← named] at found
  obtain ⟨immediates, reached, order⟩ :
      ∃ immediates, stub.code.takeWhile (· != .callq .handleCpuException) =
      (immediates.map .pushImmediate ++ saveScratch) ++
        [.movq (.memory 8 .rbp) .rdi, .movq (.memory 16 .rbp) .rsi, .leaq 24 .rbp .rdx] ∧
      (c.words errorCode immediates).reverse = c.saved.reverse ++ [number, errorCode.getD 0, c.rip,
        c.cs.setWidth 64, c.rflags.word, c.register .rsp, c.ss.setWidth 64] := by
    cases errorCode with
    | some word =>
        rw [if_pos (of_decide_eq_true coded.symm)] at found
        cases found
        exact ⟨[number], rfl, rfl⟩
    | none =>
        rw [if_neg (of_decide_eq_false coded.symm)] at found
        cases found
        exact ⟨[0, number], rfl, rfl⟩
  have length : (c.words errorCode immediates).length = 17 := by
    rw [← List.length_reverse, order]
    rfl
  have room : 15 + 8 * (c.words errorCode immediates).length ≤ (c.register .rsp - base).toNat := by
    rwa [length]
  obtain ⟨q, entered, top, frame, -, memory, -, rflags⟩ :=
    foldl_entry handlers c (gateOf idtFunctions vector) errorCode
    immediates
  have stacked :
      q.memory.Stacked (c.low errorCode immediates) (c.words errorCode immediates).reverse :=
    words_stand room fun x _ _ => by rw [memory]
  change q.register .rsp = c.low errorCode immediates at top
  have place : q.register .rbp + 8 = c.low errorCode immediates +
      BitVec.ofNat 64 (8 * c.saved.reverse.length) := by
    rw [frame, top, BitVec.add_assoc]
    rfl
  rw [order] at stacked
  have below := stacked.drop
  rw [← place] at below
  obtain ⟨first, second, rip, cs, flags, rsp, ss, -⟩ := below
  obtain ⟨p, arguments⟩ :
      ∃ p, p = [Instruction.movq (.memory 8 .rbp) .rdi, .movq (.memory 16 .rbp) .rsi,
    .leaq 24 .rbp .rdx].foldl (Cpu.execute handlers) q := ⟨_, rfl⟩
  have rdi : p.register .rdi = q.memory.read (q.register .rbp + 8) := by
    rw [arguments]
    rfl
  have rsi : p.register .rsi = q.memory.read (q.register .rbp + 8 + 8) := by
    rw [arguments, BitVec.add_assoc]
    rfl
  have rdx : p.register .rdx = q.register .rbp + 8 + 8 + 8 := by
    rw [arguments, BitVec.add_assoc, BitVec.add_assoc]
    rfl
  have same : p.memory = q.memory ∧ p.rflags = q.rflags := by
    rw [arguments]
    exact ⟨rfl, rfl⟩
  refine ⟨p, ?_, ?_⟩
  · rw [Cpu.exception?, table, Option.map_some, gateOf, code, reached, List.foldl_append]
    change some (List.foldl _ (List.foldl _ (c.deliver (gateOf idtFunctions vector) errorCode) _)
      _) = _
    rw [entered, arguments]
  · have trap : (gateOf idtFunctions vector).trap = true := decide_eq_true internal
    refine ⟨by rw [rdi, first, named], by rw [rsi, second], by rw [same.1, rdx, rip],
      by rw [same.1, rdx, cs], by rw [same.1, rdx, flags], by rw [same.1, rdx, rsp],
      by rw [same.1, rdx, ss], ?_, fun x live => ?_⟩
    · rw [same.2, rflags, interruptible_deliver, trap, Bool.true_and]
    · rw [same.1, memory, entry_live room live]

/-- A page fault. -/
theorem exceptions_reported_fault :
    ∃ p, pushingCpu.exception? sampleHandlers sampleText sampleTable.2 14 (some 2) = some p ∧
      Reported 0x1000 pushingCpu 14 (some 2) p :=
  exceptions_reported sampleText_linked (by decide) (by decide) (by decide) (by decide)
    (sampleTable_fetch 14)

end Exceptions

end Mykonos.Interrupts.Entry
