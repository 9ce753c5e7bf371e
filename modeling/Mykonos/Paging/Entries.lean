import Mathlib.Data.List.TakeWhile
import Mykonos.Paging.Refinement

/-! # Entries, encoded and decoded

`operator|` on `PageTableFlags` adds. As long as no flag is named twice that is the
union; a flag named twice carries into its neighbour. `mapPage` names up to three flags
itself, on top of those it is given.
-/

namespace Mykonos.Paging

open Lib Memory

/-! ## Combinations of flags -/

/-- A combination of the flags of `PageTableFlags`. -/
structure FlagSet where
  present : Bool := false
  writable : Bool := false
  user : Bool := false
  uncacheable : Bool := false
  allocated : Bool := false
  deriving Repr, DecidableEq

namespace FlagSet

/-- One bit for each flag of the combination. -/
def bits (flags : FlagSet) : Nat :=
  (if flags.present then PageTableFlags.present else 0) |||
  (if flags.writable then PageTableFlags.writable else 0) |||
  (if flags.user then PageTableFlags.user else 0) |||
  (if flags.uncacheable then PageTableFlags.uncacheable else 0) |||
  (if flags.allocated then PageTableFlags.allocated else 0)

/-- The union with the flags `mapPage` adds. -/
def mapped (flags : FlagSet) (allocated cacheable : Bool) : FlagSet :=
  { flags with
    present := true
    uncacheable := flags.uncacheable || !cacheable
    allocated := flags.allocated || allocated }

/-- No flag is given that `mapPage` adds itself. -/
def Apart (flags : FlagSet) (allocated cacheable : Bool) : Prop :=
  flags.present = false ∧ (allocated = true → flags.allocated = false) ∧
    (cacheable = false → flags.uncacheable = false)

instance (flags : FlagSet) (allocated cacheable : Bool) :
    Decidable (flags.Apart allocated cacheable) :=
  inferInstanceAs (Decidable (_ ∧ _ ∧ _))

/-- The flags named twice, added up. -/
def repeated (flags : FlagSet) (allocated cacheable : Bool) : Nat :=
  (if flags.present then PageTableFlags.present else 0) +
  (if flags.allocated && allocated then PageTableFlags.allocated else 0) +
  (if flags.uncacheable && !cacheable then PageTableFlags.uncacheable else 0)

theorem bits_lt (flags : FlagSet) : flags.bits < 4096 := by
  obtain ⟨_ | _, _ | _, _ | _, _ | _, _ | _⟩ := flags <;> decide

theorem repeated_lt (flags : FlagSet) (allocated cacheable : Bool) :
    flags.repeated allocated cacheable < 4096 := by
  simp only [repeated, PageTableFlags.present, PageTableFlags.allocated, PageTableFlags.uncacheable]
  split_ifs <;> decide

theorem repeated_eq_zero (flags : FlagSet) (allocated cacheable : Bool) :
    flags.repeated allocated cacheable = 0 ↔ flags.Apart allocated cacheable := by
  simp only [repeated, Apart, PageTableFlags.present, PageTableFlags.allocated,
    PageTableFlags.uncacheable]
  cases flags.present <;> cases flags.allocated <;> cases flags.uncacheable <;> cases allocated <;>
    cases cacheable <;> simp

/-- The sum `mapPage` builds is the union and the flags named twice. -/
theorem combined (flags : FlagSet) (allocated cacheable : Bool) (target : Nat) :
    leafEntry target flags.bits allocated cacheable =
      ((flags.mapped allocated cacheable).bits + flags.repeated allocated cacheable) |||
        (target &&& (2 ^ 64 - 1 - 4095)) := by
  obtain ⟨_ | _, _ | _, _ | _, _ | _, _ | _⟩ :=
    flags <;> cases allocated <;> cases cacheable <;> rfl

end FlagSet

/-! ## Address bits and flag bits -/

/-- An entry is the page of an address under so many bits. -/
theorem or_page {target : Nat} (bounded : target < 2 ^ 52) (low : Nat) :
    (low ||| (target &&& (2 ^ 64 - 1 - 4095))) % 4096 = low % 4096 ∧
    (low < 4096 → entryFrame (low ||| (target &&& (2 ^ 64 - 1 - 4095))) = target / 4096) := by
  rw [clear_offset (bounded.trans (by decide)), Nat.or_comm]
  constructor
  · have aligned : (target / 4096) <<< 12 % 2 ^ 12 = 0 := by
      rw [Nat.shiftLeft_eq]
      exact Nat.mul_mod_left _ _
    have halves := Nat.or_mod_two_pow (a := (target / 4096) <<< 12) (b := low) (n := 12)
    rwa [aligned, Nat.zero_or] at halves
  · intro small
    rw [← Nat.shiftLeft_add_eq_or_of_lt small, Nat.shiftLeft_eq, entryFrame_eq]
    omega

/-- The word names the page of an address and carries the bits of the flags. -/
def Encodes (word target : Nat) (flags : FlagSet) : Prop :=
  entryFrame word = target / 4096 ∧ word % 4096 = flags.bits

theorem Encodes.isAllocated {word target : Nat} {flags : FlagSet}
    (encodes : Encodes word target flags) :
    Paging.isAllocated word = flags.allocated := by
  have bit : Paging.isAllocated word = Paging.isAllocated (word % 4096) := by
    rw [Bool.eq_iff_iff, isAllocated_iff, isAllocated_iff]
    omega
  rw [bit, encodes.2]
  obtain ⟨_ | _, _ | _, _ | _, _ | _, _ | _⟩ := flags <;> rfl

/-- The entry is the union exactly when no flag is named twice. -/
theorem leafEntry_encodes_iff {target : Nat} (bounded : target < 2 ^ 52) (flags : FlagSet)
    (allocated cacheable : Bool) :
    Encodes (leafEntry target flags.bits allocated cacheable) target
      (flags.mapped allocated cacheable) ↔
      flags.Apart allocated cacheable := by
  have union := (flags.mapped allocated cacheable).bits_lt
  have twice := flags.repeated_lt allocated cacheable
  obtain ⟨low, frame⟩ :=
    or_page bounded ((flags.mapped allocated cacheable).bits + flags.repeated allocated cacheable)
  rw [Encodes, FlagSet.combined, low, ← flags.repeated_eq_zero]
  constructor
  · intro same
    omega
  · intro once
    rw [once, Nat.add_zero] at frame ⊢
    exact ⟨frame union, Nat.mod_eq_of_lt union⟩

/-! ## Reading an entry back -/

section ReadBack

variable {s : Machine} {n table value : Nat}

/-- The last page shows the top-level table in its own last slot. -/
def lastPage : Nat := 2 ^ 36 - 1

theorem eq_lastPage (bounded : n < 2 ^ 36) (slots : ∀ i ∈ leafPath n, i = 511)
    (last : n % 512 = 511) :
    n = lastPage := by
  simp only [leafPath, List.forall_mem_cons] at slots
  unfold lastPage
  omega

/-- A table shows up twice on a walk only within the recursive slots it starts with. -/
theorem all_recursive (tree : TableTree s) (bounded : n < 2 ^ 36)
    (here : s.tableAt (leafPath n) = some table) {path rest : List Nat}
    (split : path ++ rest = leafPath n) (shorter : rest ≠ [])
    (again : s.tableAt path = some table) : ∀ i ∈ leafPath n, i = 511 := by
  have slots : ∀ i ∈ leafPath n, i < 512 := by
    simp only [leafPath, List.forall_mem_cons, slot_lt, List.not_mem_nil, false_implies,
      implies_true, and_true]
    omega
  have length : path.length ≤ 3 := by
    have := congrArg List.length split
    simp only [List.length_append, leafPath, List.length_cons, List.length_nil] at this
    omega
  rw [← tableAt_strip tree.loop] at here again
  have same := tree.unique _ _ _
    (strip_allowed length fun i member => slots i (split ▸ List.mem_append_left rest member))
    (strip_allowed (Nat.le_of_eq rfl) slots) again here
  rw [← split, strip, strip, List.dropWhile_append] at same
  split_ifs at same with none_left
  · rw [List.isEmpty_iff] at none_left
    rw [none_left] at same
    intro i member
    rw [← split] at member
    rcases List.mem_append.mp member with before | after
    · simpa using List.dropWhile_eq_nil_iff.mp none_left i before
    · simpa using List.dropWhile_eq_nil_iff.mp same.symm i after
  · exact absurd (List.append_cancel_left ((List.append_nil _).trans same)).symm shorter

/-- Writing an entry leaves the way to it in place, unless it is the recursive slot. -/
theorem tableAt_write_entry (tree : TableTree s) (bounded : n < 2 ^ 36) (inner : n ≠ lastPage)
    (here : s.tableAt (leafPath n) = some table) (value : Nat) :
    child ((s.write table (n % 512) value).memory s.cr3 511) = some s.cr3 ∧
    (s.write table (n % 512) value).tableAt (leafPath n) = some table := by
  have kept : ∀ path rest node i, path ++ i :: rest = leafPath n ∨ path = [] ∧ i = 511 →
      s.tableAt path = some node → (s.write table (n % 512) value).memory node i =
        s.memory node i := by
    intro path rest node i place found
    by_cases same : node = table
    · subst same
      have slots : ∀ j ∈ leafPath n, j = 511 := by
        rcases place with split | ⟨rfl, -⟩
        · exact all_recursive tree bounded here split (List.cons_ne_nil _ _) found
        · exact all_recursive tree bounded here (List.nil_append _) (List.cons_ne_nil _ _) found
      have index : i = 511 := by
        rcases place with split | ⟨-, index⟩
        · exact slots i (split ▸ List.mem_append_right path List.mem_cons_self)
        · exact index
      have different : i ≠ n % 512 :=
        fun last => inner (eq_lastPage bounded slots (last.symm.trans index))
      simp only [Machine.write, Function.update_self, Function.update_of_ne different]
    · simp only [Machine.write, Function.update_of_ne same]
  constructor
  · rw [kept [] [] s.cr3 511 (.inr ⟨rfl, rfl⟩) rfl, tree.loop]
  · rw [← here]
    refine descend_congr (P := fun p => p <+: leafPath n)
      (fun p j longer => (List.prefix_append p [j]).trans longer) (fun p j node longer found => ?_)
      List.prefix_rfl
    obtain ⟨rest, split⟩ := longer
    rw [List.append_assoc] at split
    rw [kept p rest node j (.inl split) found]

/-- `unmapPage` decodes the word `mapPage` has written. -/
theorem unmapPage_reads {address : Nat} (tree : TableTree s) (inner : page address ≠ lastPage)
    (here : s.tableAt (leafPath (page address)) = some table) (value : Nat) :
    ∃ t, unmapPage address (s.write table (page address % 512) value) = .ok () t ∧
      t.physicalMemory = if isAllocated value then returnFrame s.physicalMemory (entryFrame value)
        else s.physicalMemory := by
  obtain ⟨loop, kept⟩ := tableAt_write_entry tree (page_lt address) inner here value
  have entry : (s.write table (page address % 512) value).leaf (page address) = value := by
    rw [Machine.leaf, Machine.slot_of_table kept]
    simp only [Machine.write, Function.update_self]
  obtain ⟨pm, pool⟩ :
      ∃ pm, pm =
        if isAllocated value then returnFrame s.physicalMemory (entryFrame value)
        else s.physicalMemory :=
    ⟨_, rfl⟩
  have found := unmapPage_found loop kept pm (by rw [entry]; exact pool)
  have storing :=
    store_ok (s := { s.write table (page address % 512) value with physicalMemory := pm })
    ((translate_entryAddress loop (page_lt address)).trans kept) 0
  exact ⟨_, found.trans storing, pool⟩

end ReadBack

/-! ## From `mapPage` to `unmapPage` -/

/-- What the second machine holds in the entry `mapPage` looks up in the first. -/
def entryWritten (virtualAddress : Nat) (s t : Machine) : Option Nat :=
  match getPageTableEntry virtualAddress true s with
  | .ok (some entry) u => (u.translate entry).map fun table => t.memory table (entry % 4096 / 8)
  | _ => none

/-- The entry encodes the page and the union of the flags, and `unmapPage` gives back
    the page exactly when the union says so. The last page is left to the first half:
    its entry is the recursive slot, through which the kernel reaches every entry. -/
structure Faithful (s t : Machine) (virtualAddress physicalAddress : Nat) (flags : FlagSet)
    (allocated cacheable : Bool) : Prop where
  entry : ∃ word, entryWritten virtualAddress s t = some word ∧
    Encodes word physicalAddress (flags.mapped allocated cacheable)
  unmapped : page virtualAddress ≠ lastPage → ∃ u, unmapPage virtualAddress t = .ok () u ∧
    u.physicalMemory = if (flags.mapped allocated cacheable).allocated then
      returnFrame t.physicalMemory (physicalAddress / 4096) else t.physicalMemory

/-- Supplied with frames for tables, `mapPage` returns, and what it has written is
    faithful exactly when no flag was given that it adds itself. -/
theorem entries_faithful_iff {s t : Machine} (tree : TableTree s) (words : s.physicalMemory.InRange)
    (virtualAddress physicalAddress : Nat) (bounded : physicalAddress < 2 ^ 52) (flags : FlagSet)
    (allocated cacheable : Bool)
    (after : t = (mapPage virtualAddress physicalAddress flags.bits allocated cacheable).after s)
    (fresh : FreshTables s t) :
    mapPage virtualAddress physicalAddress flags.bits allocated cacheable s = .ok () t ∧
    (Faithful s t virtualAddress physicalAddress flags allocated cacheable ↔
      flags.Apart allocated cacheable) := by
  obtain ⟨new, drawn, writes⟩ :=
    mapPage_writes tree virtualAddress physicalAddress flags.bits allocated cacheable
  rw [← after] at drawn
  obtain ⟨u, table, found, grown, here, returned⟩ := writes (freshAll_of_tables words drawn fresh)
  obtain rfl : t = u.write table (page virtualAddress % 512)
      (leafEntry physicalAddress flags.bits allocated cacheable) := by
    rw [after, Kernel.after, returned]
  have written : entryWritten virtualAddress s (u.write table (page virtualAddress % 512)
      (leafEntry physicalAddress flags.bits allocated cacheable)) =
        some (leafEntry physicalAddress flags.bits allocated cacheable) := by
    have leads := (translate_entryAddress grown.tree.loop (page_lt virtualAddress)).trans here
    simp only [entryWritten, found, leads, Option.map_some, entryAddress_word, Machine.write,
      Function.update_self]
  refine ⟨returned, ?_, fun apart => ?_⟩
  · rintro ⟨⟨word, here, encodes⟩, -⟩
    obtain rfl : leafEntry physicalAddress flags.bits allocated cacheable = word :=
      Option.some.inj (written.symm.trans here)
    exact (leafEntry_encodes_iff bounded flags allocated cacheable).mp encodes
  · have encodes := (leafEntry_encodes_iff bounded flags allocated cacheable).mpr apart
    refine ⟨⟨_, written, encodes⟩, fun inner => ?_⟩
    obtain ⟨v, unmapped, pool⟩ := unmapPage_reads grown.tree inner here
      (leafEntry physicalAddress flags.bits allocated cacheable)
    rw [encodes.isAllocated, encodes.1] at pool
    exact ⟨v, unmapped, pool⟩

/-- The first page of the bare machine, mapped to the ninth frame. -/
def bareMapped (flags : FlagSet) (allocated cacheable : Bool) : Machine :=
  (mapPage 0 0x9000 flags.bits allocated cacheable).after bareMachine

theorem bareMapped_fresh {flags : FlagSet} {allocated cacheable : Bool}
    (log : (bareMapped flags allocated cacheable).tableFrames =
      [4, 3, 2] ++ bareMachine.tableFrames) :
    FreshTables bareMachine (bareMapped flags allocated cacheable) := by
  refine ⟨[4, 3, 2], log, by decide, fun frame member => ?_⟩
  rw [bareMachine_isTable]
  simp only [List.mem_cons, List.not_mem_nil, or_false] at member
  omega

/-- A writable page that owns its frame and is not cached. -/
theorem writable_page_faithful :
    Faithful bareMachine (bareMapped { writable := true } true false) 0 0x9000 { writable :=
      true } true false :=
  (entries_faithful_iff bareMachine_tree bareMachine_inRange 0 0x9000 (by decide) { writable :=
    true } true false rfl
    (bareMapped_fresh (by decide +kernel))).2.mpr (by decide)

/-- With `PRESENT` among its flags the page is not present: the two add up to
    `WRITABLE`, and with that to `USER`. -/
theorem present_passed_again :
    ¬ ∀ s t virtualAddress physicalAddress flags allocated cacheable, TableTree s →
    s.physicalMemory.InRange →
      physicalAddress < 2 ^ 52 →
      t = (mapPage virtualAddress physicalAddress flags.bits allocated cacheable).after s →
      FreshTables s t → Faithful s t virtualAddress physicalAddress flags allocated cacheable := by
  intro always
  have faithful :=
    always bareMachine _ 0 0x9000 { present := true, writable := true } false true bareMachine_tree
    bareMachine_inRange (by decide) rfl (bareMapped_fresh (by decide +kernel))
  obtain ⟨word, written, encodes⟩ := faithful.entry
  have found :
      entryWritten 0 bareMachine (bareMapped { present := true, writable := true } false true) =
      some 0x9004 := by decide +kernel
  obtain rfl : 0x9004 = word := Option.some.inj (found.symm.trans written)
  exact absurd encodes.2 (by decide)

end Mykonos.Paging
