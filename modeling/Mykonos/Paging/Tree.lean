import Mathlib.Data.Nat.Bitwise
import Mykonos.Paging.Tables

/-! # The tree of page tables

A well-formed tree leads distinct paths to distinct table frames, and its last
top-level slot leads back to the top. Creating the tables on the way to a page
changes no leaf entry; what it does change is collected in `Grown`.
-/

namespace Mykonos.Paging

open Lib Memory

/-! ## Bits of entries -/

theorem entryFrame_eq (entry : Nat) : entryFrame entry = entry / 4096 % 2 ^ 52 := by
  rw [entryFrame, Nat.and_two_pow_sub_one_eq_mod, Nat.shiftRight_eq_div_pow]

theorem isPresent_iff (entry : Nat) : isPresent entry = true ↔ entry % 2 = 1 := by
  have bit := Nat.and_two_pow entry 0
  simp only [pow_zero, Nat.testBit_zero] at bit
  simp only [isPresent, PageTableFlags.present, Nat.shiftLeft_zero, bit]
  by_cases odd : entry % 2 = 1 <;> simp [odd]

theorem isAllocated_iff (entry : Nat) : isAllocated entry = true ↔ entry / 2048 % 2 = 1 := by
  have bit := Nat.and_two_pow entry 11
  rw [Nat.testBit_eq_decide_div_mod_eq] at bit
  have mask : PageTableFlags.allocated = 2 ^ 11 := by decide
  simp only [isAllocated, mask, bit]
  by_cases set : entry / 2 ^ 11 % 2 = 1 <;> simp

theorem and_present_eq_zero (entry : Nat) :
    entry &&& PageTableFlags.present = 0 ↔ isPresent entry = false := by
  simp [isPresent]

theorem child_none {entry : Nat} : child entry = none ↔ isPresent entry = false := by
  cases h : isPresent entry <;> simp [child, h]

theorem child_some {entry frame : Nat} :
    child entry = some frame ↔ isPresent entry = true ∧ entryFrame entry = frame := by
  cases h : isPresent entry <;> simp [child, h]

theorem child_zero : child 0 = none := child_none.mpr (by decide)

theorem tableEntry_eq {frame : Nat} (bounded : frame < 2 ^ 52) :
    tableEntry frame = frame * 4096 + 2055 := by
  simp only [tableEntry, PageTableFlags.combine, PageTableFlags.present, PageTableFlags.writable,
    PageTableFlags.allocated, PageTableFlags.user, Nat.shiftLeft_eq]
  omega

theorem child_tableEntry {frame : Nat} (bounded : frame < 2 ^ 52) :
    child (tableEntry frame) = some frame := by
  rw [child_some, isPresent_iff, entryFrame_eq, tableEntry_eq bounded]
  omega

/-- The flags of a leaf entry for a writable page. -/
def leafFlags (allocated cacheable : Bool) : Nat :=
  3 + (if allocated then 2048 else 0) + (if cacheable then 0 else 16)

theorem clear_offset {address : Nat} (bounded : address < 2 ^ 64) :
    address &&& (2 ^ 64 - 1 - 4095) = (address / 4096) <<< 12 := by
  have mask : (2 ^ 64 - 1 - 4095 : Nat) = (2 ^ 52 - 1) <<< 12 := by decide
  have low : address / 4096 = (address >>> 12) &&& (2 ^ 52 - 1) := by
    rw [Nat.and_two_pow_sub_one_eq_mod, Nat.shiftRight_eq_div_pow]
    omega
  rw [mask, low]
  apply Nat.eq_of_testBit_eq
  intro i
  simp only [Nat.testBit_and, Nat.testBit_shiftLeft, Nat.testBit_shiftRight]
  by_cases high : 12 ≤ i
  · have index : 12 + (i - 12) = i := by omega
    simp [high, index]
  · simp [high]

theorem leafEntry_eq {physicalAddress : Nat} (bounded : physicalAddress < 2 ^ 64)
    (allocated cacheable : Bool) :
    leafEntry physicalAddress PageTableFlags.writable allocated cacheable =
      physicalAddress / 4096 * 4096 + leafFlags allocated cacheable := by
  have flags : ∀ low < 2 ^ 12, low ||| (physicalAddress &&& (2 ^ 64 - 1 - 4095)) =
      physicalAddress / 4096 * 4096 + low := by
    intro low small
    rw [clear_offset bounded, Nat.or_comm, ← Nat.shiftLeft_add_eq_or_of_lt small, Nat.shiftLeft_eq]
  simp only [leafEntry]
  cases allocated <;> cases cacheable <;> exact flags _ (by decide)

theorem leafEntry_fields {frame : Nat} (bounded : frame < 2 ^ 52) (allocated cacheable : Bool) :
    isPresent (frame * 4096 + leafFlags allocated cacheable) = true ∧
    isAllocated (frame * 4096 + leafFlags allocated cacheable) = allocated ∧
    entryFrame (frame * 4096 + leafFlags allocated cacheable) = frame ∧
    (frame * 4096 + leafFlags allocated cacheable) % 4096 = leafFlags allocated cacheable := by
  have small : leafFlags allocated cacheable < 4096 := by
    cases allocated <;> cases cacheable <;> decide
  rw [isPresent_iff, entryFrame_eq, Bool.eq_iff_iff, isAllocated_iff]
  cases allocated <;> cases cacheable <;> simp only [leafFlags] <;> simp <;> omega

/-! ## Indices and the window -/

theorem pageIndices_eq (address : Nat) :
    pageIndices address =
      (address / 2 ^ 39 % 512, address / 2 ^ 30 % 512, address / 2 ^ 21 % 512,
        address / 2 ^ 12 % 512) := by
  have mask : ∀ x, x &&& 511 = x % 512 := fun x => Nat.and_two_pow_sub_one_eq_mod x 9
  have low : address &&& ((1 <<< 48) - 1) = address % 2 ^ 48 :=
    Nat.and_two_pow_sub_one_eq_mod address 48
  simp only [pageIndices, mask, low, Nat.shiftRight_eq_div_pow, Prod.mk.injEq]
  omega

theorem walkPath_window {a b c d : Nat} (ha : a < 512) (hb : b < 512) (hc : c < 512)
    (hd : d < 512) :
    walkPath (windowAddress a b c d) = [511, a, b, c] := by
  simp only [walkPath, windowAddress, pageTablePointer, List.cons.injEq, and_true]
  omega

theorem window_word {a b c d : Nat} (hd : d < 512) : windowAddress a b c d % 4096 / 8 = d := by
  simp only [windowAddress, pageTablePointer]
  omega

/-! ## Well-formed trees -/

/-- A path to a table: at most three slots, not starting in the window. -/
structure TablePath (path : List Nat) : Prop where
  short : path.length ≤ 3
  slots : ∀ i ∈ path, i < 512
  outside : path.head? ≠ some 511

namespace TablePath

theorem nil : TablePath [] := ⟨by simp, by simp, by simp⟩

theorem shorter (path : List Nat) (i : Nat) (h : TablePath (path ++ [i])) : TablePath path := by
  refine ⟨?_, fun j member => h.slots j (by simp [member]), fun head => h.outside ?_⟩
  · have := h.short
    simp only [List.length_append, List.length_singleton] at this
    omega
  · cases path with
    | nil => simp at head
    | cons j rest => simpa using head

end TablePath

namespace Machine

/-- The frame is used as a page table. -/
def IsTable (s : Machine) (frame : Nat) : Prop :=
  ∃ path, TablePath path ∧ s.tableAt path = some frame

/-- The entry in one slot of the table at a path, zero where there is no table. -/
def slot (s : Machine) (path : List Nat) (i : Nat) : Nat :=
  match s.tableAt path with
  | some table => s.memory table i
  | none => 0

theorem slot_of_table {s : Machine} {path : List Nat} {table : Nat}
    (here : s.tableAt path = some table) (i : Nat) : s.slot path i = s.memory table i := by
  simp only [slot, here]

theorem slot_of_none {s : Machine} {path : List Nat} (here : s.tableAt path = none) (i : Nat) :
    s.slot path i = 0 := by
  simp only [slot, here]

theorem tableAt_snoc (s : Machine) (path : List Nat) (i : Nat) :
    s.tableAt (path ++ [i]) = child (s.slot path i) := by
  rw [tableAt, descend_snoc]
  cases here : descend child s.memory s.cr3 path with
  | none => rw [slot_of_none here, child_zero, Option.bind_none]
  | some table => rw [slot_of_table here, Option.bind_some]

end Machine

structure TableTree (s : Machine) : Prop where
  loop : child (s.memory s.cr3 511) = some s.cr3
  unique : ∀ path other table, TablePath path → TablePath other → s.tableAt path = some table →
    s.tableAt other = some table → path = other

namespace TableTree

variable {s : Machine}

theorem window (h : TableTree s) (path : List Nat) : s.tableAt (511 :: path) = s.tableAt path :=
  descend_loop h.loop path

/-- The top-level table is below no other slot. -/
theorem top (h : TableTree s) {path : List Nat} (allowed : TablePath path)
    (here : s.tableAt path = some s.cr3) : path = [] :=
  h.unique path [] s.cr3 allowed .nil here rfl

end TableTree

/-- One address shows a slot of the table at a path, and the other shows the table
    that slot leads to. -/
structure Shows (entry table : Nat) (path : List Nat) (i : Nat) : Prop where
  word : entry % 4096 / 8 = i
  parent : ∀ s : Machine, child (s.memory s.cr3 511) = some s.cr3 →
    s.translate entry = s.tableAt path
  below : ∀ s : Machine, child (s.memory s.cr3 511) = some s.cr3 →
    s.translate table = s.tableAt (path ++ [i])

section Window

variable {i4 i3 i2 i1 : Nat}

theorem translate_window {s : Machine} (loop : child (s.memory s.cr3 511) = some s.cr3)
    (h4 : i4 < 512) (h3 : i3 < 512) (h2 : i2 < 512) (h1 : i1 < 512) :
    s.translate (windowAddress i4 i3 i2 i1) = s.tableAt [i4, i3, i2] := by
  rw [Machine.translate, walkPath_window h4 h3 h2 h1]
  exact descend_loop loop _

theorem shows_pml4 (h4 : i4 < 512) : Shows (pml4Entry i4) (pml3Table i4) [] i4 := by
  refine ⟨window_word h4, fun s loop => ?_, fun s loop => ?_⟩
  · rw [pml4Entry, translate_window loop (by decide) (by decide) (by decide) h4]
    simp only [Machine.tableAt, descend_loop loop]
  · rw [pml3Table, translate_window loop (by decide) (by decide) h4 (by decide)]
    simp only [Machine.tableAt, descend_loop loop, List.nil_append]

theorem shows_pml3 (h4 : i4 < 512) (h3 : i3 < 512) :
    Shows (pml3Entry i4 i3) (pml2Table i4 i3) [i4] i3 := by
  refine ⟨window_word h3, fun s loop => ?_, fun s loop => ?_⟩
  · rw [pml3Entry, translate_window loop (by decide) (by decide) h4 h3]
    simp only [Machine.tableAt, descend_loop loop]
  · rw [pml2Table, translate_window loop (by decide) h4 h3 (by decide)]
    simp only [Machine.tableAt, descend_loop loop, List.singleton_append]

theorem shows_pml2 (h4 : i4 < 512) (h3 : i3 < 512) (h2 : i2 < 512) :
    Shows (pml2Entry i4 i3 i2) (pml1Table i4 i3 i2) [i4, i3] i2 := by
  refine ⟨window_word h2, fun s loop => ?_, fun s loop => ?_⟩
  · rw [pml2Entry, translate_window loop (by decide) h4 h3 h2]
    simp only [Machine.tableAt, descend_loop loop]
  · rw [pml1Table, translate_window loop h4 h3 h2 (by decide)]
    simp only [List.cons_append, List.nil_append]

end Window

/-! ## Accesses -/

section Access

variable {s : Machine} {address frame : Nat}

theorem load_ok (here : s.translate address = some frame) :
    load address s = .ok (s.memory frame (address % 4096 / 8)) s := by
  simp only [load, here]

theorem store_ok (here : s.translate address = some frame) (value : Nat) :
    store address value s = .ok () (s.write frame (address % 4096 / 8) value) := by
  simp only [store, here]

theorem clearPage_ok (here : s.translate address = some frame) :
    clearPage address s = .ok () (s.clear frame) := by
  simp only [clearPage, here]

end Access

/-! ## Creating one table -/

/-- A frame that can become a table. -/
structure Fresh (s : Machine) (frame : Nat) : Prop where
  nonzero : frame ≠ 0
  bounded : frame < 2 ^ 52
  unused : ¬ s.IsTable frame

/-- A frame that fits an entry and is no table. Nothing below asks for more, so that
    frame zero becomes a table like any other. -/
structure Vacant (s : Machine) (frame : Nat) : Prop where
  bounded : frame < 2 ^ 52
  unused : ¬ s.IsTable frame

theorem Fresh.vacant {s : Machine} {frame : Nat} (fresh : Fresh s frame) : Vacant s frame :=
  ⟨fresh.bounded, fresh.unused⟩

section Provide

variable {s : Machine} {entry table i parent : Nat} {path : List Nat}

theorem provideTable_present (loop : child (s.memory s.cr3 511) = some s.cr3)
    (shows : Shows entry table path i) (present : isPresent (s.slot path i) = true)
    (create : Bool) :
    provideTable entry table create s = .ok true s := by
  obtain ⟨parent, here⟩ : ∃ parent, s.tableAt path = some parent := by
    cases here : s.tableAt path with
    | some parent => exact ⟨parent, rfl⟩
    | none =>
        rw [Machine.slot_of_none here] at present
        exact absurd present (by decide)
  have value := load_ok ((shows.parent s loop).trans here)
  rw [shows.word, ← Machine.slot_of_table here] at value
  have bit : ¬ s.slot path i &&& PageTableFlags.present = 0 := by
    rw [and_present_eq_zero, present]
    simp
  simp only [provideTable, bind, EStateM.bind, value, bit, if_false, pure, EStateM.pure]

theorem provideTable_stop (loop : child (s.memory s.cr3 511) = some s.cr3)
    (shows : Shows entry table path i) (here : s.tableAt path = some parent)
    (absent : isPresent (s.slot path i) = false) :
    provideTable entry table false s = .ok false s := by
  have value := load_ok ((shows.parent s loop).trans here)
  rw [shows.word, ← Machine.slot_of_table here] at value
  have bit := (and_present_eq_zero _).mpr absent
  simp [provideTable, bind, EStateM.bind, value, bit, pure, EStateM.pure]

/-- The machine after a table has been created for one slot. -/
def planted (s : Machine) (parent i : Nat) : Machine :=
  { s with
    memory := plant s.memory parent i (tableEntry (allocateFrame s.physicalMemory).1)
      (allocateFrame s.physicalMemory).1 0
    physicalMemory := (allocateFrame s.physicalMemory).2
    tableFrames := (allocateFrame s.physicalMemory).1 :: s.tableFrames }

/-- Writing the slot of one table leaves the path to that table in place. -/
theorem tableAt_write (tree : TableTree s) (allowed : TablePath path)
    (here : s.tableAt path = some parent) (value : Nat) :
    (s.write parent i value).tableAt path = some parent := by
  rw [← here]
  refine descend_congr (P := fun p => p <+: path) (fun p j longer => ?_)
    (fun p j node longer found => ?_)
    List.prefix_rfl
  · exact (List.prefix_append p [j]).trans longer
  · have shorter : p <+: path := (List.prefix_append p [j]).trans longer
    have valid : TablePath p := by
      obtain ⟨rest, rfl⟩ := shorter
      clear here longer
      induction rest using List.reverseRecOn with
      | nil => simpa using allowed
      | append_singleton rest k ih => exact ih (TablePath.shorter _ k (by simpa using allowed))
    have different : node ≠ parent := by
      rintro rfl
      have same := tree.unique p path node valid allowed found here
      have := longer.length_le
      simp only [same, List.length_append, List.length_singleton] at this
      omega
    simp only [Machine.write, Function.update_of_ne different]

theorem loop_write (tree : TableTree s) (allowed : TablePath path) (top : path = [] → i ≠ 511)
    (here : s.tableAt path = some parent) (value : Nat) :
    child ((s.write parent i value).memory s.cr3 511) = some s.cr3 := by
  by_cases root : parent = s.cr3
  · have index := top (tree.top allowed (root ▸ here))
    simp only [Machine.write, root, Function.update_self,
      Function.update_of_ne index.symm, tree.loop]
  · simp only [Machine.write, Function.update_of_ne (Ne.symm root), tree.loop]

theorem provideTable_create (tree : TableTree s) (shows : Shows entry table path i)
    (allowed : TablePath path) (top : path = [] → i ≠ 511) (here : s.tableAt path = some parent)
    (absent : isPresent (s.slot path i) = false)
    (bounded : (allocateFrame s.physicalMemory).1 < 2 ^ 52) :
    provideTable entry table true s = .ok true (planted s parent i) := by
  have value := load_ok ((shows.parent s tree.loop).trans here)
  rw [shows.word, ← Machine.slot_of_table here] at value
  have bit := (and_present_eq_zero _).mpr absent
  let taken : Machine := { s with
    physicalMemory := (allocateFrame s.physicalMemory).2
    tableFrames := (allocateFrame s.physicalMemory).1 :: s.tableFrames }
  let linked := taken.write parent i (tableEntry (allocateFrame s.physicalMemory).1)
  have taking : allocatePageTable s = .ok (tableEntry (allocateFrame s.physicalMemory).1) taken :=
    rfl
  have storing := store_ok (s := taken) ((shows.parent s tree.loop).trans here)
    (tableEntry (allocateFrame s.physicalMemory).1)
  rw [shows.word] at storing
  have loop : child (linked.memory linked.cr3 511) = some linked.cr3 :=
    loop_write tree allowed top here _
  have kept : linked.tableAt path = some parent := tableAt_write tree allowed here _
  have found : linked.translate table = some (allocateFrame s.physicalMemory).1 := by
    rw [shows.below linked loop, Machine.tableAt_snoc, Machine.slot_of_table kept]
    simp only [linked, Machine.write, Function.update_self, child_tableEntry bounded]
  have clearing := clearPage_ok found
  simp only [provideTable, bind, EStateM.bind, value, bit, if_true, taking, storing]
  rw [show taken.write parent i (tableEntry (allocateFrame s.physicalMemory).1) = linked
    from rfl, clearing]
  rfl

end Provide

/-! ## What creating tables leaves alone -/

/-- The second machine has the tables of the first and those in `new`; leaf
    entries, and frames that are not tables, are as they were. -/
structure Grown (s t : Machine) (new : List Nat) : Prop where
  tree : TableTree t
  cr3 : t.cr3 = s.cr3
  virtualMemory : t.virtualMemory = s.virtualMemory
  kept : ∀ path table, TablePath path → s.tableAt path = some table → t.tableAt path = some table
  created : ∀ path table, TablePath path → t.tableAt path = some table →
    s.tableAt path = some table ∨ s.tableAt path = none ∧ table ∈ new
  used : ∀ frame ∈ new, t.IsTable frame
  leaves : ∀ path i, TablePath path → path.length = 3 → t.slot path i = s.slot path i
  uppers : ∀ path i, TablePath path → path.length < 3 → t.slot path i = s.slot path i ∨
    isPresent (s.slot path i) = false ∧ ∃ frame ∈ new, frame < 2 ^ 52 ∧ t.slot path i =
      tableEntry frame
  memory : ∀ frame, frame ∉ new → ¬ s.IsTable frame → t.memory frame = s.memory frame

namespace Grown

variable {s t u : Machine} {new more : List Nat}

theorem refl (tree : TableTree s) : Grown s s [] :=
  ⟨tree, rfl, rfl, fun _ _ _ here => here, fun _ _ _ here => .inl here, by simp, fun _ _ _ _ => rfl,
    fun _ _ _ _ => .inl rfl, fun _ _ _ => rfl⟩

theorem isTable (h : Grown s t new) (frame : Nat) :
    t.IsTable frame ↔ s.IsTable frame ∨ frame ∈ new := by
  constructor
  · rintro ⟨path, allowed, here⟩
    exact (h.created path frame allowed here).imp (fun old => ⟨path, allowed, old⟩) fun fresh =>
      fresh.2
  · rintro (⟨path, allowed, here⟩ | fresh)
    · exact ⟨path, allowed, h.kept path frame allowed here⟩
    · exact h.used frame fresh

theorem trans (first : Grown s t new) (second : Grown t u more) : Grown s u (more ++ new) where
  tree := second.tree
  cr3 := second.cr3.trans first.cr3
  virtualMemory := second.virtualMemory.trans first.virtualMemory
  kept path table allowed here :=
    second.kept path table allowed (first.kept path table allowed here)
  created path table allowed here := by
    rcases second.created path table allowed here with middle | ⟨absent, fresh⟩
    · exact (first.created path table allowed middle).imp id fun old =>
        ⟨old.1, List.mem_append_right _ old.2⟩
    · refine .inr ⟨?_, List.mem_append_left _ fresh⟩
      cases old : s.tableAt path with
      | none => rfl
      | some before =>
          rw [first.kept path before allowed old] at absent
          exact absurd absent (Option.some_ne_none before)
  used frame member := by
    rw [second.isTable]
    exact (List.mem_append.mp member).symm.imp (first.used frame) id
  leaves path i allowed deep :=
    (second.leaves path i allowed deep).trans (first.leaves path i allowed deep)
  uppers path i allowed shallow := by
    rcases second.uppers path i allowed shallow with same | ⟨absent, frame, fresh, bounded, filled⟩
    · rw [same]
      exact (first.uppers path i allowed shallow).imp id fun old =>
        ⟨old.1, old.2.imp fun frame found => ⟨List.mem_append_right _ found.1, found.2⟩⟩
    · refine .inr ⟨?_, frame, List.mem_append_left _ fresh, bounded, filled⟩
      rcases first.uppers path i allowed shallow with same | ⟨empty, -⟩
      · rwa [same] at absent
      · exact empty
  memory frame outside unused := by
    simp only [List.mem_append, not_or] at outside
    have still : ¬ t.IsTable frame := by
      rw [first.isTable]
      exact not_or.mpr ⟨unused, outside.2⟩
    rw [second.memory frame outside.1 still, first.memory frame outside.2 unused]

end Grown

section Planted

variable {s : Machine} {parent i : Nat} {path : List Nat}

theorem tableAt_planted (tree : TableTree s) (allowed : TablePath path)
    (here : s.tableAt path = some parent) (absent : isPresent (s.slot path i) = false)
    (vacant : Vacant s (allocateFrame s.physicalMemory).1) {other : List Nat}
    (inside : TablePath other) :
    (planted s parent i).tableAt other =
      if other = path ++ [i] then some (allocateFrame s.physicalMemory).1 else s.tableAt other := by
  refine descend_plant TablePath.shorter tree.unique allowed here ?_ ?_
    (child_tableEntry vacant.bounded)
    child_zero inside
  · rw [← Machine.slot_of_table here]
    exact child_none.mpr absent
  · exact fun p valid found => vacant.unused ⟨p, valid, found⟩

theorem tableAt_planted_new (tree : TableTree s) (allowed : TablePath path)
    (extended : TablePath (path ++ [i])) (here : s.tableAt path = some parent)
    (absent : isPresent (s.slot path i) = false)
    (vacant : Vacant s (allocateFrame s.physicalMemory).1) :
    (planted s parent i).tableAt (path ++ [i]) = some (allocateFrame s.physicalMemory).1 := by
  rw [tableAt_planted tree allowed here absent vacant extended, if_pos rfl]

/-- Outside the new table only the slot that leads to it has changed. -/
theorem planted_word {table j : Nat} (old : table ≠ (allocateFrame s.physicalMemory).1)
    (slot : table = parent → j ≠ i) : (planted s parent i).memory table j = s.memory table j := by
  simp only [planted, plant, Function.update_of_ne old]
  by_cases same : table = parent
  · rw [same, Function.update_self, Function.update_of_ne (slot same)]
  · rw [Function.update_of_ne same]

theorem planted_tree (tree : TableTree s) (allowed : TablePath path)
    (extended : TablePath (path ++ [i])) (here : s.tableAt path = some parent)
    (absent : isPresent (s.slot path i) = false)
    (vacant : Vacant s (allocateFrame s.physicalMemory).1) : TableTree (planted s parent i) := by
  refine ⟨?_, fun first second table hf hs one two => ?_⟩
  · have root : s.cr3 ≠ (allocateFrame s.physicalMemory).1 := fun same =>
      vacant.unused ⟨[], .nil, congrArg some same⟩
    have word := planted_word (s := s) (i := i) (j := 511) root fun same index => by
      have top := tree.top allowed (same ▸ here)
      rw [top, ← index] at extended
      exact extended.outside rfl
    exact (congrArg child word).trans tree.loop
  · rw [tableAt_planted tree allowed here absent vacant hf] at one
    rw [tableAt_planted tree allowed here absent vacant hs] at two
    split_ifs at one two with here_ there there
    · rw [here_, there]
    · exact absurd ⟨second, hs, two.trans one.symm⟩ vacant.unused
    · exact absurd ⟨first, hf, one.trans two.symm⟩ vacant.unused
    · exact tree.unique first second table hf hs one two

theorem planted_slot (tree : TableTree s) (allowed : TablePath path)
    (here : s.tableAt path = some parent) (absent : isPresent (s.slot path i) = false)
    (vacant : Vacant s (allocateFrame s.physicalMemory).1) {other : List Nat}
    (inside : TablePath other) (j : Nat) (elsewhere : other ++ [j] ≠ path ++ [i]) :
    (planted s parent i).slot other j = s.slot other j := by
  have after := tableAt_planted tree allowed here absent vacant inside
  by_cases new : other = path ++ [i]
  · rw [if_pos new] at after
    have before : s.tableAt other = none := by
      rw [new, Machine.tableAt_snoc]
      exact child_none.mpr absent
    rw [Machine.slot_of_table after, Machine.slot_of_none before]
    simp only [planted, plant, Function.update_self]
  · rw [if_neg new] at after
    cases found : s.tableAt other with
    | none => rw [Machine.slot_of_none (after.trans found), Machine.slot_of_none found]
    | some table =>
        rw [Machine.slot_of_table (after.trans found), Machine.slot_of_table found]
        refine planted_word (fun same => vacant.unused ⟨other, inside, same ▸ found⟩) ?_
        rintro rfl rfl
        exact elsewhere (congrArg (· ++ [j])
          (tree.unique other path table inside allowed found here))

theorem planted_grown (tree : TableTree s) (allowed : TablePath path)
    (extended : TablePath (path ++ [i])) (here : s.tableAt path = some parent)
    (absent : isPresent (s.slot path i) = false)
    (vacant : Vacant s (allocateFrame s.physicalMemory).1) :
    Grown s (planted s parent i) [(allocateFrame s.physicalMemory).1] where
  tree := planted_tree tree allowed extended here absent vacant
  cr3 := rfl
  virtualMemory := rfl
  kept other table inside found := by
    rw [tableAt_planted tree allowed here absent vacant inside, if_neg, found]
    rintro rfl
    rw [Machine.tableAt_snoc, child_none.mpr absent] at found
    exact absurd found (by simp)
  created other table inside found := by
    rw [tableAt_planted tree allowed here absent vacant inside] at found
    split_ifs at found with new
    · refine .inr ⟨?_, by simpa using found.symm⟩
      rw [new, Machine.tableAt_snoc]
      exact child_none.mpr absent
    · exact .inl found
  used frame member := by
    rw [List.mem_singleton.mp member]
    exact ⟨_, extended, tableAt_planted_new tree allowed extended here absent vacant⟩
  leaves other j inside deep := by
    refine planted_slot tree allowed here absent vacant inside j fun same => ?_
    have size := congrArg List.length same
    have := extended.short
    simp only [List.length_append, List.length_singleton] at size this
    omega
  uppers other j inside shallow := by
    by_cases same : other ++ [j] = path ++ [i]
    · obtain ⟨rfl, index⟩ := List.append_inj' same rfl
      obtain rfl : j = i := by simpa using index
      refine .inr ⟨absent, _, List.mem_singleton_self _, vacant.bounded, ?_⟩
      have kept : (planted s parent j).tableAt other = some parent := by
        rw [tableAt_planted tree allowed here absent vacant inside, if_neg (by simp), here]
      have old : parent ≠ (allocateFrame s.physicalMemory).1 := fun same =>
        vacant.unused ⟨other, inside, same ▸ here⟩
      rw [Machine.slot_of_table kept]
      simp only [planted, plant, Function.update_of_ne old, Function.update_self]
    · exact .inl (planted_slot tree allowed here absent vacant inside j same)
  memory frame outside unused := by
    have old : frame ≠ (allocateFrame s.physicalMemory).1 := by simpa using outside
    funext j
    exact planted_word old fun same => absurd ⟨path, allowed, same ▸ here⟩ unused

end Planted

end Mykonos.Paging
