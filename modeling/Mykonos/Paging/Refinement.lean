import Mykonos.Lib.Run
import Mykonos.Paging.Effects

/-! # Page tables as a partial map

The tables stand for a partial map from virtual pages to frames and flags.
`mapPage` and `unmapPage` change that map at one page. The pages of the recursive
window are the exception: a table created on the way appears there.
-/

namespace Mykonos.Paging

open Lib Memory

/-! ## The abstract map -/

/-- A frame and the flags of its entry for each mapped page. -/
abbrev PageMap := Nat → Option (Nat × Nat)

/-- What the walk of a page finds. -/
def Machine.walk (s : Machine) : PageMap := fun n =>
  if isPresent (s.leaf n) then some (entryFrame (s.leaf n), s.leaf n % 4096) else none

theorem walk_absent {s : Machine} {n : Nat} : s.walk n = none ↔ isPresent (s.leaf n) = false := by
  cases present : isPresent (s.leaf n) <;> simp [Machine.walk, present]

/-- The processor translates by the same walk. -/
theorem translate_walk (s : Machine) (address : Nat) :
    s.translate address = (s.walk (page address)).map Prod.fst := by
  rw [translate_eq]
  cases present : isPresent (s.leaf (page address)) <;> simp [Machine.walk, child, present]

/-- One call that edits the tables; pages are always mapped writable. -/
inductive Edit where
  | map (virtualAddress physicalAddress : Nat) (allocated cacheable : Bool)
  | unmap (virtualAddress : Nat)
  deriving Repr, DecidableEq

namespace Edit

def run : Edit → Kernel Unit
  | map virtualAddress physicalAddress allocated cacheable =>
      mapPage virtualAddress physicalAddress PageTableFlags.writable allocated cacheable
  | unmap virtualAddress => unmapPage virtualAddress

/-- The page the call is about. -/
def target : Edit → Nat
  | map virtualAddress _ _ _ => page virtualAddress
  | unmap virtualAddress => page virtualAddress

/-- What the page is to be afterwards. -/
def result : Edit → Option (Nat × Nat)
  | map _ physicalAddress allocated cacheable =>
    some (physicalAddress / 4096, leafFlags allocated cacheable)
  | unmap _ => none

/-- The call on the abstract map. -/
def apply (edit : Edit) (m : PageMap) : PageMap := Function.update m edit.target edit.result

def replay (m : PageMap) (edits : List Edit) : PageMap := edits.foldl (fun m edit => edit.apply m) m

/-- The arguments are 64-bit addresses and the page is not in the window. -/
def Valid : Edit → Prop
  | map virtualAddress physicalAddress _ _ =>
    physicalAddress < 2 ^ 64 ∧ Outside (page virtualAddress)
  | unmap virtualAddress => Outside (page virtualAddress)

end Edit

/-- The frames given to `allocatePageTable` between two machines are distinct,
    not zero and were not tables. -/
def FreshTables (s t : Machine) : Prop :=
  ∃ new, t.tableFrames = new ++ s.tableFrames ∧ new.Nodup ∧ ∀ frame ∈ new, frame ≠ 0 ∧
    ¬ s.IsTable frame

/-- One call with its supply of frames. -/
structure Edit.Step (s : Machine) (edit : Edit) (t : Machine) : Prop where
  valid : edit.Valid
  after : t = edit.run.after s
  fresh : FreshTables s t

/-! ## One call -/

section Call

variable {s t : Machine}

theorem Edited.walk {n value : Nat} {new : List Nat} (h : Edited s t n value new) {k : Nat}
    (outside : Outside k) :
    t.walk k =
      if k = n then (if isPresent value then some (entryFrame value, value % 4096) else none)
      else s.walk k := by
  simp only [Machine.walk, h.leaf k outside]
  split_ifs <;> rfl

theorem freshAll_of_tables {new : List Nat} (words : s.physicalMemory.InRange)
    (drawn : Drawn s t new) (fresh : FreshTables s t) : FreshAll s new := by
  obtain ⟨listed, log, distinct, usable⟩ := fresh
  obtain rfl : listed = new := List.append_cancel_right (log.symm.trans drawn.log)
  have bounded := (drawn.takes.inRange words).2
  exact ⟨distinct, fun frame member => ⟨(usable frame member).1, bounded frame member,
    (usable frame member).2⟩⟩

/-- Every admissible call returns, having edited its page. -/
theorem Edit.Step.edited {edit : Edit} (tree : TableTree s) (words : s.physicalMemory.InRange)
    (step : Edit.Step s edit t) :
    edit.run s = .ok () t ∧ t.physicalMemory.InRange ∧
    ∃ value new, Edited s t edit.target value new ∧ (∀ frame ∈ new, ¬ s.IsTable frame) ∧
      (if isPresent value then some (entryFrame value, value % 4096) else none) = edit.result := by
  obtain ⟨valid, after, fresh⟩ := step
  cases edit with
  | map virtualAddress physicalAddress allocated cacheable =>
      obtain ⟨bounded, outside⟩ := valid
      obtain ⟨new, drawn, mapped⟩ :=
        mapPage_spec tree outside physicalAddress PageTableFlags.writable
        allocated cacheable
      rw [Edit.run] at after
      rw [← after] at drawn
      have usable := freshAll_of_tables words drawn fresh
      obtain ⟨u, returned, edited⟩ := mapped usable
      obtain rfl : t = u := by rw [after, Kernel.after, returned]
      obtain ⟨present, -, frame, flags⟩ := leafEntry_fields
        (show physicalAddress / 4096 < 2 ^ 52 by omega) allocated cacheable
      refine ⟨returned, (drawn.takes.inRange words).1, _, new, edited,
        fun f member => (usable.fresh f member).unused, ?_⟩
      rw [leafEntry_eq bounded, if_pos present, frame, flags, Edit.result]
  | unmap virtualAddress =>
      obtain ⟨u, returned, edited, -, pool⟩ := unmapPage_spec tree valid
      obtain rfl : t = u := by rw [after, Edit.run, Kernel.after, returned]
      refine ⟨returned, ?_, 0, [], edited, by simp, by simp [isPresent, Edit.result]⟩
      rw [pool]
      split_ifs
      · exact returnFrame_inRange words _
      · exact words

theorem Edit.Step.walk {edit : Edit} (tree : TableTree s) (words : s.physicalMemory.InRange)
    (step : Edit.Step s edit t) {k : Nat} (outside : Outside k) :
    t.walk k = edit.apply s.walk k := by
  obtain ⟨-, -, value, new, edited, -, result⟩ := step.edited tree words
  rw [edited.walk outside, result, Edit.apply, Function.update_apply]

/-- A page of the window changes only by starting to show a new table. -/
theorem Edit.Step.window {edit : Edit} (tree : TableTree s) (words : s.physicalMemory.InRange)
    (step : Edit.Step s edit t) {k : Nat} (bounded : k < 2 ^ 36) (inside : ¬ Outside k) :
    t.walk k = s.walk k ∨
    s.walk k = none ∧ ∃ frame, t.IsTable frame ∧ ¬ s.IsTable frame ∧
    t.walk k = some (frame, 2055) := by
  obtain ⟨-, -, value, new, edited, unused, -⟩ := step.edited tree words
  rcases edited.window k bounded inside with same | ⟨absent, frame, member, low, shown⟩
  · exact .inl (by rw [Machine.walk, same, Machine.walk])
  · refine .inr ⟨walk_absent.mpr absent, frame, (edited.isTable frame).mpr (.inr member),
      unused frame member, ?_⟩
    have present : isPresent (tableEntry frame) = true := (child_some.mp (child_tableEntry low)).1
    rw [Machine.walk, shown, if_pos present, (child_some.mp (child_tableEntry low)).2,
      tableEntry_eq low]
    simp

end Call

/-! ## Runs -/

/-- What a run of calls has made of the first machine. -/
structure Refines (s : Machine) (edits : List Edit) (t : Machine) : Prop where
  tree : TableTree t
  words : t.physicalMemory.InRange
  tables : ∀ frame, s.IsTable frame → t.IsTable frame
  walk : ∀ k, Outside k → t.walk k = Edit.replay s.walk edits k
  window : ∀ k < 2 ^ 36, ¬ Outside k → t.walk k = s.walk k ∨
    s.walk k = none ∧ ∃ frame, t.IsTable frame ∧ ¬ s.IsTable frame ∧ t.walk k = some (frame, 2055)

theorem Refines.next {s t u : Machine} {edits : List Edit} {edit : Edit} (h : Refines s edits t)
    (step : Edit.Step t edit u) : Refines s (edits ++ [edit]) u := by
  obtain ⟨-, words, value, new, edited, unused, -⟩ := step.edited h.tree h.words
  have grows : ∀ frame, t.IsTable frame → u.IsTable frame := fun frame used =>
    (edited.isTable frame).mpr (.inl used)
  refine ⟨edited.tree, words, fun frame used => grows frame (h.tables frame used),
    fun k outside => ?_, fun k bounded inside => ?_⟩
  · rw [step.walk h.tree h.words outside, Edit.replay, List.foldl_append, List.foldl_cons,
      List.foldl_nil]
    simp only [Edit.apply, Function.update_apply]
    split_ifs
    · rfl
    · exact h.walk k outside
  · rcases step.window h.tree h.words bounded inside with same | ⟨absent, frame, now, before, shown⟩
    · rw [same]
      exact (h.window k bounded inside).imp id fun old => ⟨old.1, old.2.imp fun frame found =>
        ⟨grows frame found.1, found.2⟩⟩
    · refine .inr ⟨?_, frame, now, fun used => before (h.tables frame used), shown⟩
      rcases h.window k bounded inside with same | ⟨empty, -⟩
      · rwa [same] at absent
      · exact empty

theorem Refines.run {s t : Machine} {edits : List Edit} (tree : TableTree s)
    (words : s.physicalMemory.InRange) (run : Run Edit.Step s edits t) : Refines s edits t := by
  induction run with
  | start => exact ⟨tree, words, fun _ used => used, fun _ _ => rfl, fun _ _ _ => .inl rfl⟩
  | next _ step ih => exact ih.next step

/-- Any sequence of calls leaves a well-formed tree whose walks outside the
    window are the abstract map after the same calls; the next call returns and
    changes the map at its page alone. A page of the window keeps its walk or,
    having had none, shows a table that did not exist before. -/
theorem page_tables_refine_map {s t : Machine} {edits : List Edit} (tree : TableTree s)
    (words : s.physicalMemory.InRange) (run : Run Edit.Step s edits t) :
    TableTree t ∧
    (∀ k, Outside k → t.walk k = Edit.replay s.walk edits k) ∧
    (∀ k < 2 ^ 36, ¬ Outside k → t.walk k = s.walk k ∨
      s.walk k = none ∧ ∃ frame, t.IsTable frame ∧ ¬ s.IsTable frame ∧
      t.walk k = some (frame, 2055)) ∧
    ∀ edit u, Edit.Step t edit u → edit.run t = .ok () u ∧
      ∀ k, Outside k → u.walk k = if k = edit.target then edit.result else t.walk k := by
  have refines := Refines.run tree words run
  refine ⟨refines.tree, refines.walk, refines.window, fun edit u step => ?_⟩
  refine ⟨(step.edited refines.tree refines.words).1, fun k outside => ?_⟩
  rw [step.walk refines.tree refines.words outside, Edit.apply, Function.update_apply]

/-! ## A machine with nothing mapped -/

/-- Only the recursive slot of the top-level table in frame one is filled. -/
def bareMachine : Machine where
  memory frame word := if frame = 1 ∧ word = 511 then 0x1003 else 0
  cr3 := 1
  physicalMemory := ⟨[⟨0x2000, 0x10000⟩]⟩
  virtualMemory := ⟨[]⟩

theorem bareMachine_tableAt {path : List Nat} (allowed : TablePath path) {frame : Nat}
    (here : bareMachine.tableAt path = some frame) : path = [] ∧ frame = 1 := by
  cases path with
  | nil => exact ⟨rfl, (Option.some.inj here).symm⟩
  | cons i rest =>
      have slot : i ≠ 511 := fun top => allowed.outside (by simp [top])
      have absent : child (bareMachine.memory bareMachine.cr3 i) = none := by
        simp [bareMachine, slot, child_zero]
      simp only [Machine.tableAt, descend, absent, Option.bind_none] at here
      exact absurd here (by simp)

theorem bareMachine_isTable (frame : Nat) : bareMachine.IsTable frame ↔ frame = 1 :=
  ⟨fun ⟨_, allowed, here⟩ => (bareMachine_tableAt allowed here).2,
    fun same => ⟨[], .nil, congrArg some same.symm⟩⟩

theorem bareMachine_tree : TableTree bareMachine :=
  ⟨by decide, fun path other _ hp ho one two => by
    rw [(bareMachine_tableAt hp one).1, (bareMachine_tableAt ho two).1]⟩

theorem bareMachine_inRange : bareMachine.physicalMemory.InRange := by
  simp [bareMachine, BlockMap.InRange, BlockMap.Ends]

/-- Mapping the first page takes three frames for tables. -/
theorem bareMachine_step :
    Edit.Step bareMachine (.map 0 0x9000 false true)
      ((Edit.map 0 0x9000 false true).run.after bareMachine) := by
  refine ⟨⟨by decide, by decide⟩, rfl, [4, 3, 2], by decide +kernel, by decide,
    fun frame member => ?_⟩
  rw [bareMachine_isTable]
  simp only [List.mem_cons, List.not_mem_nil, or_false] at member
  omega

/-- A run of one call, and the map it leaves. -/
theorem bare_map_refines :
    ((Edit.map 0 0x9000 false true).run.after bareMachine).walk 0 = some (9, 3) ∧
    TableTree ((Edit.map 0 0x9000 false true).run.after bareMachine) := by
  have refined :=
    page_tables_refine_map bareMachine_tree bareMachine_inRange (.single bareMachine_step)
  refine ⟨?_, refined.1⟩
  rw [refined.2.1 0 (by decide)]
  rfl

/-- The page of the window that shows the table created for the first top-level
    slot translates to nothing before the call and to that table after it. -/
theorem new_table_shown_in_window :
    ¬ ∀ s edit t, TableTree s → s.physicalMemory.InRange → Edit.Step s edit t →
      ∀ k < 2 ^ 36, k ≠ edit.target → t.walk k = s.walk k := by
  intro unchanged
  have same := unchanged bareMachine _ _ bareMachine_tree bareMachine_inRange bareMachine_step
    (((511 * 512 + 511) * 512 + 511) * 512) (by decide) (by decide)
  have before : bareMachine.walk (((511 * 512 + 511) * 512 + 511) * 512) = none := by decide
  have after : ((Edit.map 0 0x9000 false true).run.after bareMachine).walk
      (((511 * 512 + 511) * 512 + 511) * 512) = some (2, 2055) := by decide +kernel
  rw [before, after] at same
  exact absurd same (by simp)

end Mykonos.Paging
