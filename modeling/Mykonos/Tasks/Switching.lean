import Mykonos.Lib.Stack
import Mykonos.Tasks.Registers

/-! # What a switch does to memory

`swapRegisters` writes to the registers of the old task, to the stack of the old task
below the return address, and to the two words below the stack pointer of the new one.
-/

namespace Mykonos.Tasks.Switch

open Lib

variable {calls : Calls}

/-- Regions without a common byte. -/
theorem Apart.of_disjoint {a b : Word} {n k : Nat}
    (disjoint : ∀ x, (x - a).toNat < n → ¬(x - b).toNat < k) (first : 0 < n) (second : 0 < k) :
    Apart a n b k := by
  have own (y : Word) : (y - y).toNat = 0 := by rw [BitVec.sub_self]; rfl
  have lower := disjoint a (by rw [own]; exact first)
  refine ⟨Nat.not_lt.mp fun inside => disjoint b inside (by rw [own]; exact second),
    Nat.not_lt.mp lower⟩

/-- A byte that is in none of the words is left alone. -/
theorem writeAll_outside {entries : List (Word × Word)} {x : Word}
    (outside : ∀ entry ∈ entries, 8 ≤ (x - entry.1).toNat) (memory : Store) :
    memory.writeAll entries x = memory x := by
  induction entries generalizing memory with
  | nil => rfl
  | cons entry rest ih =>
      rw [List.forall_mem_cons] at outside
      exact (ih outside.2 (memory.write entry.1 entry.2)).trans
        (Store.write_outside memory outside.1)

theorem savedWords_outside (p : Processor) {x : Word} (slot : 8 ≤ (x - p.register .rsp).toNat)
    (image : registersSize ≤ (x - p.register .rdi).toNat) :
    p.memory.writeAll (savedWords p) x = p.memory x := by
  refine writeAll_outside (fun entry member => ?_) p.memory
  have listed := List.mem_map_of_mem (f := Prod.fst) member
  rw [savedWords_addresses, List.mem_cons, List.mem_cons, List.mem_map] at listed
  have field (offset : Word) (inside : offset.toNat + 8 ≤ registersSize) :
      8 ≤ (x - (p.register .rdi + offset)).toNat := by
    have regroup : x - (p.register .rdi + offset) = x - p.register .rdi - offset := by grind
    rw [regroup, BitVec.toNat_sub_of_le (by rw [BitVec.le_def]; omega)]
    omega
  rcases listed with first | stack | ⟨offset, later, here⟩
  · rw [first]
    exact field _ (by decide)
  · rwa [stack]
  · rw [← here]
    exact field _ (fieldOffset_inside (List.mem_cons_of_mem _ later))

/-- Loading the registers writes two words below the new stack pointer. -/
theorem run_loadCode_memory (calls : Calls) (p : Processor) {x : Word}
    (outside : 16 ≤ (x - ((Registers.at p.memory (p.register .rdi)).register .rsp - 16)).toNat) :
    (run calls loadCode none p).memory x = p.memory x := by
  obtain ⟨names, listed⟩ :
      ∃ names, names = [Register.rax, .rcx, .rdx, .rbx, .rsp, .rbp, .rsi, .r8, .r9, .r10, .r11,
    .r12, .r13, .r14, .r15] := ⟨_, rfl⟩
  have pointer : .rdi ∉ names := by
    rw [listed]
    decide
  have straight :=
    run_append calls (show (names.map loadRegister).all Instruction.plain =
      true by rw [listed]; rfl)
    [.pushq (.memory ripOffset .rdi), .pushq (.memory rflagsOffset .rdi), loadRegister .rdi,
      .popfq, .retq] p
  rw [foldl_loadRegister pointer] at straight
  obtain ⟨q, loaded⟩ : ∃ q : Processor, q = { p with
      register := fun name =>
        if name ∈ names then p.memory.read (p.register .rdi + name.offset)
        else p.register name } := ⟨_, rfl⟩
  rw [← loaded] at straight
  have top : q.register .rsp = (Registers.at p.memory (p.register .rdi)).register .rsp := by
    rw [loaded]
    exact if_pos (by rw [listed]; decide)
  obtain ⟨u, pushing, -, -, once, first, second⟩ :=
    run_pushes calls [loadRegister .rdi, .popfq, .retq] q
  have whole : run calls loadCode none p = run calls [loadRegister .rdi, .popfq, .retq] none u := by
    rw [← pushing, ← straight, listed]
    rfl
  have popped : (run calls [loadRegister .rdi, .popfq, .retq] none u).memory = u.memory := rfl
  rw [← top] at outside
  have above : 8 ≤ (x - (q.register .rsp - 8)).toNat := by
    have regroup : x - (q.register .rsp - 8) = x - (q.register .rsp - 16) - 8 := by grind
    have eight : (8 : Word).toNat = 8 := rfl
    rw [regroup, BitVec.toNat_sub_of_le (by rw [BitVec.le_def]; omega)]
    omega
  rw [whole, popped, second, Store.write_outside _ (by omega), first,
    Store.write_outside _ above, loaded]

/-- The calls that a switch makes, and what is loaded after them. -/
theorem swapRegisters_run (abi : Abi calls) (p : Processor) :
    ∃ u l f : Processor,
      u.register .rsp = p.register .rsp + 8 ∧ u.register .rdi = p.register .rdi ∧
      u.memory = p.memory.writeAll (savedWords p) ∧
      l.register .rsp = p.register .rsp + 8 ∧ l.register .rdi = p.register .rsi ∧
      l.memory = (calls .unlockTask u).memory ∧
      f.memory = (calls .lockTask l).memory ∧ f.register .rdi = p.register .rsi ∧
      (f.cr3 = p.cr3 ∨ f.cr3 = (Registers.at f.memory (p.register .rsi)).cr3) ∧
      swapRegisters calls p = run calls loadCode none f := by
  obtain ⟨u, saving, pointer, top, source, cr3, memory⟩ := foldl_saveCode calls p
  have unlocked : handedOver calls p =
      (calls .unlockTask u).set .rdi ((calls .unlockTask u).register .rbx) := by
    have first :=
      run_append calls (show saveCode.all Instruction.plain = true from rfl) unlockCode p
    rw [handedOver, first, saving]
    rfl
  obtain ⟨m, moved⟩ : ∃ m, m = handedOver calls p := ⟨_, rfl⟩
  have target : m.register .rdi = p.register .rsi := by
    rw [moved, unlocked, Processor.set_self, abi.register _ _ .rbx (by simp), pointer]
  have stack : m.register .rsp = p.register .rsp + 8 := by
    rw [moved, unlocked, Processor.set_of_ne _ (by decide), abi.register _ _ .rsp (by simp), top]
  have kept : m.cr3 = p.cr3 ∧ m.memory = (calls .unlockTask u).memory := by
    rw [moved, unlocked]
    exact ⟨(abi.cr3 _ _).trans cr3, rfl⟩
  obtain ⟨f, locking, follows, stored, chosen⟩ := run_lockCode abi loadCode m
  refine ⟨u, m.set .rbx (m.register .rdi), f, top, source, memory, ?_, ?_, kept.2, stored,
    follows.trans target, ?_, ?_⟩
  · rw [Processor.set_of_ne _ (by decide), stack]
  · rw [Processor.set_of_ne _ (by decide), target]
  · rw [chosen, target]
    split_ifs with stale
    · exact .inl kept.1
    · exact .inr rfl
  · rw [swapRegisters_eq, ← moved, restoreRegisters, locking]

end Mykonos.Tasks.Switch
