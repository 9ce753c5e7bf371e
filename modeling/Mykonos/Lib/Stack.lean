import Mykonos.Lib.Words

/-! # Stacks in byte memory

A stack grows downwards from wherever its pointer is, in words. Below the pointer nothing
is kept: those bytes are dead, down to the base of the stack.
-/

namespace Mykonos.Lib

/-- A byte below the stack pointer. -/
def Dead (base pointer x : Word) : Prop := (x - base).toNat < (pointer - base).toNat

instance (base pointer x : Word) : Decidable (Dead base pointer x) :=
  inferInstanceAs (Decidable (_ < _))

namespace Store

/-- The words that stand from an address on. -/
def Stacked (memory : Store) : Word → List Word → Prop
  | _, [] => True
  | address, value :: rest => memory.read address = value ∧ memory.Stacked (address + 8) rest

/-- Put words below an address, each below the one before it. -/
def pushAll (memory : Store) (pointer : Word) : List Word → Store
  | [] => memory
  | value :: rest => (memory.write (pointer - 8) value).pushAll (pointer - 8) rest

end Store

/-- An address rounded down to a multiple of sixteen. -/
theorem exists_aligned (address : Word) :
    ∃ gap ≤ 15, address &&& ~~~15 = address - BitVec.ofNat 64 gap := by
  refine ⟨(address &&& 15).toNat, ?_, ?_⟩
  · rw [BitVec.toNat_and]
    exact Nat.and_le_right
  · have apart : (address &&& ~~~15) &&& (address &&& 15) = 0 := by
      rw [BitVec.and_assoc, ← BitVec.and_assoc (~~~15), BitVec.and_comm (~~~15),
        BitVec.and_assoc address, BitVec.and_comm (~~~15), show (15 : Word) &&& ~~~15 = 0 from rfl]
      simp
    have whole : (address &&& ~~~15) + (address &&& 15) = address := by
      rw [BitVec.add_eq_or_of_and_eq_zero _ _ apart, ← BitVec.and_or_distrib_left,
        show ~~~(15 : Word) ||| 15 = BitVec.allOnes 64 from rfl, BitVec.and_allOnes]
    rw [BitVec.ofNat_toNat, BitVec.setWidth_eq]
    exact (BitVec.eq_sub_iff_add_eq.mpr whole)

section Dead

variable {base pointer x : Word} {amount : Nat}

/-- The stack pointer goes down, within the stack. -/
theorem toNat_lower (room : amount ≤ (pointer - base).toNat) :
    (pointer - BitVec.ofNat 64 amount - base).toNat = (pointer - base).toNat - amount := by
  have small : (BitVec.ofNat 64 amount).toNat = amount := by
    have bounded := (pointer - base).isLt
    rw [BitVec.toNat_ofNat, Nat.mod_eq_of_lt (by omega)]
  have regroup :
      pointer - BitVec.ofNat 64 amount - base = pointer - base - BitVec.ofNat 64 amount := by grind
  rw [regroup, BitVec.toNat_sub_of_le (by rw [BitVec.le_def]; omega), small]

/-- What is dead stays so when the pointer goes up. -/
theorem Dead.of_lower (room : amount ≤ (pointer - base).toNat)
    (dead : Dead base (pointer - BitVec.ofNat 64 amount) x) :
    Dead base pointer x := by
  unfold Dead at dead ⊢
  rw [toNat_lower room] at dead
  omega

/-- What is not dead is not just below the pointer. -/
theorem le_of_live (room : amount ≤ (pointer - base).toNat) (live : ¬Dead base pointer x) :
    amount ≤ (x - (pointer - BitVec.ofNat 64 amount)).toNat := by
  have lower := toNat_lower room
  unfold Dead at live
  have regroup : x - (pointer - BitVec.ofNat 64 amount) =
      x - base - (pointer - BitVec.ofNat 64 amount - base) := by
    grind
  rw [regroup, BitVec.toNat_sub_of_le (by rw [BitVec.le_def]; omega)]
  omega

end Dead

namespace Store

variable {memory other : Store} {base pointer address value : Word} {values rest : List Word}

theorem write_outside (memory : Store) {x : Word} (outside : 8 ≤ (x - address).toNat) :
    memory.write address value x = memory x := if_neg (Nat.not_lt.mpr outside)

theorem read_congr (same : ∀ x, (x - address).toNat < 8 → other x = memory x) :
    other.read address = memory.read address := by
  have byte (i : Word) (inside : i.toNat < 8) : other (address + i) = memory (address + i) :=
    same _ (by rwa [BitVec.add_comm, BitVec.add_sub_cancel])
  have first := byte 0 (by decide)
  rw [show address + 0 = address from BitVec.add_zero address] at first
  rw [read, read, byte 7 (by decide), byte 6 (by decide), byte 5 (by decide), byte 4 (by decide),
    byte 3 (by decide), byte 2 (by decide), byte 1 (by decide), first]

theorem Stacked.congr (stacked : memory.Stacked address values) (fits : 8 * values.length ≤ 2 ^ 64)
    (same : ∀ x, (x - address).toNat < 8 * values.length → other x = memory x) :
    other.Stacked address values := by
  induction values generalizing address with
  | nil => trivial
  | cons value rest ih =>
      obtain ⟨top, below⟩ := stacked
      rw [List.length_cons] at fits same
      refine ⟨(read_congr fun x inside => same x (by omega)).trans top,
        ih below (by omega) fun x inside => same x ?_⟩
      have regroup : x - address = x - (address + 8) + 8 := by grind
      rw [regroup, BitVec.toNat_add]
      have eight : (8 : Word).toNat = 8 := rfl
      omega

/-- The words after the first ones. -/
theorem Stacked.drop (stacked : memory.Stacked address (values ++ rest)) :
    memory.Stacked (address + BitVec.ofNat 64 (8 * values.length)) rest := by
  induction values generalizing address with
  | nil => simpa using stacked
  | cons value more ih =>
      have place : address + 8 + BitVec.ofNat 64 (8 * more.length) =
          address + BitVec.ofNat 64 (8 * (value :: more).length) := by
        rw [List.length_cons, Nat.mul_succ, BitVec.ofNat_add, BitVec.add_assoc, BitVec.add_comm 8]
        rfl
      rw [← place]
      exact ih stacked.2

theorem Stacked.push (stacked : memory.Stacked pointer values)
    (fits : 8 * (values.length + 1) ≤ 2 ^ 64) (value : Word) :
    (memory.write (pointer - 8) value).Stacked (pointer - 8) (value :: values) := by
  have home : pointer - 8 + 8 = pointer := by grind
  refine ⟨read_write_self memory _ value, ?_⟩
  rw [home]
  refine stacked.congr (by omega) fun x inside => write_outside memory ?_
  have regroup : x - (pointer - 8) = x - pointer + 8 := by grind
  have eight : (8 : Word).toNat = 8 := rfl
  rw [regroup, BitVec.toNat_add]
  omega

theorem Stacked.pushAll (stacked : memory.Stacked pointer values)
    (fits : 8 * (rest.length + values.length) ≤ 2 ^ 64) :
    (memory.pushAll pointer rest).Stacked (pointer - BitVec.ofNat 64 (8 * rest.length))
      (rest.reverse ++ values) := by
  induction rest generalizing memory pointer values with
  | nil => simpa [Store.pushAll] using stacked
  | cons value more ih =>
      rw [List.length_cons] at fits
      have next := ih (stacked.push (by omega) value) (by rw [List.length_cons]; omega)
      have place : pointer - 8 - BitVec.ofNat 64 (8 * more.length) =
          pointer - BitVec.ofNat 64 (8 * (value :: more).length) := by
        rw [List.length_cons, Nat.mul_succ, BitVec.ofNat_add, BitVec.sub_sub, BitVec.add_comm]
        rfl
      rw [place] at next
      rw [List.reverse_cons, List.append_assoc, List.singleton_append]
      exact next

theorem pushAll_append (memory : Store) (pointer : Word) (first second : List Word) :
    memory.pushAll pointer (first ++ second) =
      (memory.pushAll pointer first).pushAll
        (pointer - BitVec.ofNat 64 (8 * first.length)) second := by
  induction first generalizing memory pointer with
  | nil => simp [Store.pushAll]
  | cons value more ih =>
      have place : pointer - 8 - BitVec.ofNat 64 (8 * more.length) =
          pointer - BitVec.ofNat 64 (8 * (value :: more).length) := by
        rw [List.length_cons, Nat.mul_succ, BitVec.ofNat_add, BitVec.sub_sub, BitVec.add_comm]
        rfl
      rw [List.cons_append, Store.pushAll, ih, place]
      rfl

/-- Only dead bytes are written. -/
theorem pushAll_live (room : 8 * values.length ≤ (pointer - base).toNat) {x : Word}
    (live : ¬Dead base pointer x) :
    memory.pushAll pointer values x = memory x := by
  induction values generalizing memory pointer with
  | nil => rfl
  | cons value more ih =>
      rw [List.length_cons] at room
      have eight : 8 ≤ (pointer - base).toNat := by omega
      have lower : (pointer - 8 - base).toNat = (pointer - base).toNat - 8 := toNat_lower eight
      have live' : ¬Dead base (pointer - 8) x := fun dead => live (Dead.of_lower eight dead)
      have outside : 8 ≤ (x - (pointer - 8)).toNat := le_of_live eight live
      rw [Store.pushAll, ih (by omega) live', write_outside memory outside]

end Store

/-! ## Effects on a region -/

/-- An effect that depends on a region of memory and only writes there. -/
structure Confined (region : Word → Prop) (effect : Store → Store) : Prop where
  only : ∀ memory x, ¬region x → effect memory x = memory x
  reads : ∀ memory other, (∀ x, region x → other x = memory x) → ∀ x, region x →
    effect other x = effect memory x

namespace Confined

variable {region hidden : Word → Prop} {effect next : Store → Store}

/-- Memories that agree outside a hidden part do so afterwards. -/
theorem agree (confined : Confined region effect) (apart : ∀ x, hidden x → ¬region x)
    {memory other : Store} (same : ∀ x, ¬hidden x → other x = memory x) {x : Word}
    (seen : ¬hidden x) : effect other x = effect memory x := by
  by_cases mine : region x
  · exact confined.reads memory other (fun y ours => same y fun away => apart y away ours) x mine
  · rw [confined.only other x mine, confined.only memory x mine, same x seen]

theorem comp (second : Confined region next) (first : Confined region effect) :
    Confined region (next ∘ effect) where
  only _ x other := (second.only _ x other).trans (first.only _ x other)
  reads _ _ same := second.reads _ _ (first.reads _ _ same)

end Confined

end Mykonos.Lib
