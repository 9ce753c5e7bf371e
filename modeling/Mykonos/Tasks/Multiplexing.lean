import Mykonos.Interrupts.Entry
import Mykonos.Tasks.Switching

/-! # One processor for many tasks

A processor is taken from a task by an interrupt or by a call of `yield`, and another task
goes on with it: one that `thread::create` made, or one that was stopped before. To its
program every task has a processor of its own.

The C++ code around `swapRegisters` keeps to the calling convention. A switch is one step,
and the way by the stack of the scheduler, when no other task is there, is left out.
-/

namespace Mykonos.Tasks.Multiplexing

open Lib Interrupts Interrupts.Entry
open Switch (Register Flags Calls Registers registersSize cr3Offset ripOffset rflagsOffset)

/-! ## Where tasks are stopped -/

/-- What a processor has but memory. -/
@[ext] structure Context where
  register : Register → Word
  cr3 : Word
  rip : Word
  rflags : Flags
  cs : BitVec 16
  ss : BitVec 16

def context (c : Cpu) : Context := ⟨c.register, c.cr3, c.rip, c.rflags, c.cs, c.ss⟩

/-- `thread::create`, with the `%cr3` of who calls it. -/
def create (entrypoint context stack cr3 : Word) : Registers where
  register
    | .rdi => context
    | .rsp => stack
    | _ => 0
  cr3 := cr3
  rip := entrypoint
  rflags := 1 <<< 9

/-- What the calling convention protects, but for the stack pointer. -/
def calleeSaved : List Register := [.rbx, .rbp, .r12, .r13, .r14, .r15]

inductive Stop where
  /-- It has not run yet. -/
  | created (image : Registers)
  /-- It was interrupted. -/
  | interrupted (place : Context)
  /-- It called `yield`. -/
  | yielded (place : Context) (returnAddress : Word)

/-- What calls `swapRegisters`. -/
inductive Way where
  | handleInterrupt
  | yield
  deriving Repr, DecidableEq

namespace Stop

/-- The stack pointer with which the task goes on. -/
def rsp : Stop → Word
  | created image => image.register .rsp
  | interrupted place => place.register .rsp
  | yielded place _ => place.register .rsp + 8

/-- How the task came to be stopped. -/
def way : Stop → Option Way
  | created _ => none
  | interrupted _ => some .handleInterrupt
  | yielded _ _ => some .yield

/-- The task goes on where it was stopped: an interrupt leaves everything alone, and a
    call what the calling convention protects. -/
def Resumes (d : Cpu) : Stop → Prop
  | created image => d.register = image.register ∧ d.rip = image.rip ∧
    d.rflags = Flags.load image.rflags
  | interrupted place => context d = place
  | yielded place returnAddress =>
      (∀ name ∈ calleeSaved, d.register name = place.register name) ∧
        d.register .rsp = place.register .rsp + 8 ∧ d.rip = returnAddress ∧
        interruptible d.rflags = interruptible place.rflags

end Stop

/-! ## The machine -/

variable {T : Type}

/-- `enter` is the C++ code up to the call of `swapRegisters(&from->registers,
    &to->registers)`, and `leave` the rest of it, without the last instruction of
    `yield`. -/
structure Code (T : Type) where
  handlers : Handlers
  text : Word → List Instruction
  idtFunctions : BitVec 8 → Word
  idtPointer : IdtPointer
  /-- `&task->registers`. -/
  registers : T → Word
  stack : T → Word
  stackSize : T → Nat
  enter : Way → T → T → Switch.Processor → Switch.Processor
  leave : Way → Switch.Processor → Switch.Processor
  calls : Calls
  program : T → Cpu → Option Cpu

/-- `stopped` says where the tasks that there are and that do not run were stopped. -/
structure World (T : Type) where
  cpu : Cpu
  current : T
  stopped : T → Option Stop

inductive Event (T : Type) where
  | program
  /-- Another processor or a device writes. -/
  | outside (bytes : Word → Option (BitVec 8))
  | served (vector : BitVec 8)
  | created (task : T) (entrypoint argument : Word)
  | destroyed (task : T)
  | preempted (vector : BitVec 8) (toTask : T)
  | yielded (toTask : T)

/-- Some bytes are written. -/
def overwrite (bytes : Word → Option (BitVec 8)) (memory : Store) : Store :=
  fun x => (bytes x).getD (memory x)

def World.Alive (w : World T) (task : T) : Prop := task = w.current ∨ (w.stopped task).isSome

/-- The words of `struct Registers`, where they are to be. -/
def imageWords (address : Word) (image : Registers) : List (Word × Word) :=
  open Switch.Register in
  [(address + ripOffset, image.rip), (address + rflagsOffset, image.rflags)] ++
  [rax, rcx, rdx, rbx, rsp, rbp, rsi, rdi, r8, r9, r10, r11, r12, r13, r14, r15].map (fun name =>
    (address + name.offset, image.register name)) ++
  [(address + cr3Offset, image.cr3)]

namespace Code

variable (k : Code T)

/-- A byte of the registers of a task. -/
def Image (task : T) (x : Word) : Prop := (x - k.registers task).toNat < registersSize

/-- A byte that belongs to a task. -/
def Owns (task : T) (x : Word) : Prop :=
  (x - k.stack task).toNat < k.stackSize task ∨ k.Image task x

/-- A byte that is not for the task that runs. -/
def Foreign (w : World T) (x : Word) : Prop :=
  (∃ task, w.Alive task ∧ k.Image task x) ∨
    ∃ task stop, w.stopped task = some stop ∧ Dead (k.stack task) stop.rsp x

/-- A byte that the task that runs does not use. -/
def Hidden (w : World T) (x : Word) : Prop :=
  k.Foreign w x ∨ Dead (k.stack w.current) (w.cpu.register .rsp) x

/-- From the return of `swapRegisters` to the program of the task. -/
def goOn : Option Way → Cpu → Cpu
  | none, c => c
  | some .handleInterrupt, c =>
    interruptExit.foldl (Cpu.execute k.handlers) (c.on (k.leave .handleInterrupt))
  | some .yield, c => c.on fun p => Switch.execute k.calls (k.leave .yield p) .retq

/-- The processor goes to the call of `handleInterrupt`. -/
def handling (c : Cpu) (vector : BitVec 8) : Option Cpu :=
  (fetch c.memory k.idtPointer vector).map fun gate =>
    ((k.text gate.offset).takeWhile (· != .callq .handleInterrupt)).foldl (Cpu.execute k.handlers)
      (c.deliver gate none)

/-- The processor goes from the C++ code of a task to another one. -/
def switch (way : Way) (fromTask toTask : T) (stop : Stop) (c : Cpu) : Cpu :=
  k.goOn stop.way ((c.on (k.enter way fromTask toTask)).on (Switch.swapRegisters k.calls))

/-- A step of a program that neither reads nor writes what is hidden from it. -/
structure Discreet (w : World T) (c : Cpu) : Prop where
  kept : ∀ x, k.Foreign w x → c.memory x = w.cpu.memory x
  inside : (c.register .rsp - k.stack w.current).toNat ≤ k.stackSize w.current
  fixed : c.cr3 = w.cpu.cr3 ∧ c.cs = w.cpu.cs ∧ c.ss = w.cpu.ss
  blind : ∀ d : Cpu, context d = context w.cpu →
    (∀ x, ¬k.Hidden w x → w.cpu.memory x = d.memory x) → ∃ d', k.program w.current d = some d' ∧
      context d' = context c ∧
      ∀ x, ¬k.Hidden { w with cpu := c } x → c.memory x = d'.memory x

/-- What belongs to one task belongs to no other, and is not shared by the C++ code. -/
structure Layout (shared : Word → Prop) (alive : T → Prop) : Prop where
  small : ∀ task, alive task → k.stackSize task < 2 ^ 64
  apart : ∀ task other, alive task → alive other → task ≠ other → ∀ x, k.Owns task x →
    ¬k.Owns other x
  image : ∀ task, alive task → ∀ x, (x - k.stack task).toNat < k.stackSize task → ¬k.Image task x
  shared : ∀ task, alive task → ∀ x, k.Owns task x → ¬shared x

end Code

/-! ## What is asked of the C++ code -/

/-- `swapRegisters` has returned at `r` from its call at `q`, on the stack of the code that
    was entered at `p`. -/
structure Returned (base : Word) (p q r : Switch.Processor) : Prop where
  register : ∀ name ∈ calleeSaved, r.register name = q.register name
  rsp : r.register .rsp = q.register .rsp + 8
  rip : r.rip = q.top
  rflags : r.rflags = q.rflags
  frame : ∀ x, Dead base (p.register .rsp) x → ¬Dead base (q.register .rsp + 8) x →
    r.memory x = q.memory x

/-- The C++ code keeps to the calling convention where it has as much stack as it needs.
    What it does to memory that is not below the stack pointer of who calls it depends on
    the part that it shares with the tasks, and it only writes there. -/
structure Obeys (k : Code T) (depth : Nat) (shared : Word → Prop)
    (services : BitVec 8 → Store → Store) (effect : Way → T → T → Store → Store)
    (locks : Switch.Function → Word → Store → Store) : Prop where
  serves : ∀ task, Serves k.handlers (2 * depth) (k.stack task) shared services
  linked : Linked k.text k.idtFunctions
  abi : Switch.Abi k.calls
  arguments : ∀ way fromTask toTask p, (k.enter way fromTask toTask p).register .rdi =
    k.registers fromTask ∧
    (k.enter way fromTask toTask p).register .rsi = k.registers toTask
  down : ∀ way fromTask toTask p, ∃ amount, 8 ≤ amount ∧ amount ≤ depth ∧
    (k.enter way fromTask toTask p).register .rsp = p.register .rsp - BitVec.ofNat 64 amount
  cr3 : ∀ way fromTask toTask p, (k.enter way fromTask toTask p).cr3 = p.cr3
  entered : ∀ way fromTask toTask p base, depth ≤ (p.register .rsp - base).toNat →
    ∀ x, ¬Dead base (p.register .rsp) x →
      (k.enter way fromTask toTask p).memory x = effect way fromTask toTask p.memory x
  called : ∀ function p base, depth ≤ (p.register .rsp - base).toNat →
    ∀ x, ¬Dead base (p.register .rsp) x →
    (k.calls function p).memory x = locks function (p.register .rdi) p.memory x
  left : ∀ way fromTask toTask p base r, depth ≤ (p.register .rsp - base).toNat →
    Returned base p (k.enter way fromTask toTask p) r →
    (∀ name ∈ calleeSaved, (k.leave way r).register name = p.register name) ∧
    (k.leave way r).register .rsp = p.register .rsp ∧ (k.leave way r).cr3 = r.cr3 ∧
    (∀ x, ¬Dead base (p.register .rsp) x → (k.leave way r).memory x = r.memory x) ∧
    (way = .yield → interruptible (k.leave way r).rflags = interruptible p.rflags)
  effects : ∀ way fromTask toTask, Confined shared (effect way fromTask toTask)
  locked : ∀ function address, Confined shared (locks function address)

/-- What a switch does to the memory that the tasks and the C++ code share. -/
def switched (k : Code T) (effect : Way → T → T → Store → Store)
    (locks : Switch.Function → Word → Store → Store) (way : Way) (fromTask toTask : T) :
    Store → Store :=
  locks .lockTask (k.registers toTask) ∘ locks .unlockTask (k.registers fromTask) ∘
    effect way fromTask toTask

/-! ## Runs -/

section Runs

variable [DecidableEq T] (k : Code T) (depth : Nat) (shared : Word → Prop)
  (services : BitVec 8 → Store → Store) (effect : Way → T → T → Store → Store)
  (locks : Switch.Function → Word → Store → Store)

/-- Another task has the processor. -/
def World.goesTo (w : World T) (stop : Stop) (toTask : T) (d : Cpu) : World T where
  cpu := d
  current := toTask
  stopped := Function.update (Function.update w.stopped w.current (some stop)) toTask none

/-- The registers with which `thread::create` lets a task begin. -/
def Code.begins (k : Code T) (w : World T) (task : T) (entrypoint argument : Word) : Registers :=
  create entrypoint argument (k.stack task + BitVec.ofNat 64 (k.stackSize task)) w.cpu.cr3

/-- The tasks share the processor. -/
inductive Shared : World T → Event T → World T → Prop where
  | program {w : World T} {c : Cpu} (step : k.program w.current w.cpu = some c)
      (discreet : k.Discreet w c) :
      Shared w .program { w with cpu := c }
  | outside {w : World T} (bytes : Word → Option (BitVec 8))
      (away : ∀ x, k.Hidden w x → bytes x = none) :
      Shared w (.outside bytes)
        { w with cpu := { w.cpu with memory := overwrite bytes w.cpu.memory } }
  | served {w : World T} {c : Cpu} {vector : BitVec 8} (enabled : interruptible w.cpu.rflags = true)
      (external : 32 ≤ vector.toNat)
      (fit : Fit (2 * depth) (k.stack w.current) shared k.idtFunctions k.idtPointer w.cpu vector)
      (taken : w.cpu.interrupt? k.handlers k.text k.idtPointer vector = some c) :
      Shared w (.served vector) { w with cpu := c }
  | created {w : World T} {task : T} (entrypoint argument : Word) (fresh : ¬w.Alive task)
      (room : 16 ≤ k.stackSize task)
      (layout : k.Layout shared fun other => w.Alive other ∨ other = task) :
      Shared w (.created task entrypoint argument)
        { w with
          cpu := { w.cpu with
            memory := w.cpu.memory.writeAll
              (imageWords (k.registers task) (k.begins w task entrypoint argument)) }
          stopped :=
            Function.update w.stopped task (some (.created (k.begins w task entrypoint argument))) }
  | destroyed {w : World T} {task : T} (waits : (w.stopped task).isSome) :
      Shared w (.destroyed task) { w with stopped := Function.update w.stopped task none }
  | preempted {w : World T} {c : Cpu} {vector : BitVec 8} {toTask : T} {stop : Stop}
      (enabled : interruptible w.cpu.rflags = true) (external : 32 ≤ vector.toNat)
      (fit : Fit (2 * depth) (k.stack w.current) shared k.idtFunctions k.idtPointer w.cpu vector)
      (called : k.handling w.cpu vector = some c) (waits : w.stopped toTask = some stop) :
      Shared w (.preempted vector toTask)
        (w.goesTo (.interrupted (context w.cpu)) toTask
          (k.switch .handleInterrupt w.current toTask stop c))
  | yielded {w : World T} {toTask : T} {stop : Stop}
      (room : 2 * depth ≤ (w.cpu.register .rsp - k.stack w.current).toNat)
      (inside : (w.cpu.register .rsp - k.stack w.current).toNat + 8 ≤ k.stackSize w.current)
      (waits : w.stopped toTask = some stop) :
      Shared w (.yielded toTask)
        (w.goesTo (.yielded (context w.cpu) w.cpu.top) toTask
          (k.switch .yield w.current toTask stop w.cpu))

/-- Every task has its own processor, which stands still while the task is stopped. -/
inductive Own : World T → Event T → World T → Prop where
  | program {w : World T} {c : Cpu} (step : k.program w.current w.cpu = some c) :
      Own w .program { w with cpu := c }
  | outside {w : World T} (bytes : Word → Option (BitVec 8)) :
      Own w (.outside bytes) { w with cpu := { w.cpu with memory := overwrite bytes w.cpu.memory } }
  | served {w : World T} {vector : BitVec 8} (enabled : interruptible w.cpu.rflags = true)
      (external : 32 ≤ vector.toNat) :
      Own w (.served vector) { w with cpu := { w.cpu with memory := services vector w.cpu.memory } }
  | created {w : World T} {task : T} (entrypoint argument : Word) (fresh : ¬w.Alive task) :
      Own w (.created task entrypoint argument)
        { w with
          stopped := Function.update w.stopped task
            (some (.created (k.begins w task entrypoint argument))) }
  | destroyed {w : World T} {task : T} {memory : Store} (waits : (w.stopped task).isSome)
      (others : ∀ x, ¬k.Owns task x → memory x = w.cpu.memory x) :
      Own w (.destroyed task)
        { w with
          cpu := { w.cpu with memory := memory }
          stopped := Function.update w.stopped task none }
  | preempted {w : World T} {vector : BitVec 8} {toTask : T} {stop : Stop} {d : Cpu}
      (enabled : interruptible w.cpu.rflags = true) (external : 32 ≤ vector.toNat)
      (waits : w.stopped toTask = some stop) (resumes : stop.Resumes d)
      (same : d.cr3 = w.cpu.cr3 ∧ d.cs = w.cpu.cs ∧ d.ss = w.cpu.ss)
      (memory : d.memory = switched k effect locks .handleInterrupt w.current toTask w.cpu.memory) :
      Own w (.preempted vector toTask) (w.goesTo (.interrupted (context w.cpu)) toTask d)
  | yielded {w : World T} {toTask : T} {stop : Stop} {d : Cpu}
      (waits : w.stopped toTask = some stop) (resumes : stop.Resumes d)
      (same : d.cr3 = w.cpu.cr3 ∧ d.cs = w.cpu.cs ∧ d.ss = w.cpu.ss)
      (memory : d.memory = switched k effect locks .yield w.current toTask w.cpu.memory) :
      Own w (.yielded toTask) (w.goesTo (.yielded (context w.cpu) w.cpu.top) toTask d)

/-- One task runs, and there is no other. -/
structure Begins (w : World T) : Prop where
  alone : ∀ task, w.stopped task = none
  layout : k.Layout shared (· = w.current)
  inside : (w.cpu.register .rsp - k.stack w.current).toNat ≤ k.stackSize w.current
  cs : w.cpu.cs = 8

end Runs

end Mykonos.Tasks.Multiplexing
