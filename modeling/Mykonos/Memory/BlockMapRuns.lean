import Mykonos.Lib.Run
import Mykonos.Memory.Reserve

/-! # Runs of a block map

Any sequence of the public operations, started on an empty map, with a ledger of
what the callers have added, been handed and reserved. A well-formed table keeps
its ledger along every run in which added ranges are well formed and not already
free and in which reserved ranges are ordered.
-/

namespace Mykonos.Memory

open Lib

namespace BlockMap

/-- The public operations of `BlockMap` with their arguments. -/
inductive Call where
  | addBlock (block : Block)
  | returnMemory (ptr amount : Nat)
  | allocate (amount : Nat)
  | reserve (block : Block)
  | clear
  deriving Repr, DecidableEq

namespace Call

def execute (m : BlockMap) : Call → BlockMap
  | .addBlock b => m.addBlock b
  | .returnMemory ptr amount => m.returnMemory ptr amount
  | .allocate amount => (m.allocate amount).2
  | .reserve r => m.reserve r
  | .clear => m.clear

/-- The caller's view of the call. A null result hands nothing out. -/
noncomputable def record (m : BlockMap) (ledger : Ledger Nat) : Call → Ledger Nat
  | .addBlock b => ledger.add b.range
  | .returnMemory ptr amount => ledger.add (Set.Ico ptr ((ptr + amount) % 2 ^ 64))
  | .allocate amount =>
      if (m.allocate amount).1 = 0 then ledger
      else ledger.grant (Set.Ico (m.allocate amount).1 ((m.allocate amount).1 + amount))
  | .reserve r => ledger.withdraw r.range
  | .clear => ledger

/-- An added or returned range is well formed and holds no address that is free. -/
def Admissible (m : BlockMap) : Call → Prop
  | .addBlock b => b.WellFormed ∧ Disjoint b.range m.free
  | .returnMemory ptr amount =>
      (⟨ptr, (ptr + amount) % 2 ^ 64⟩ : Block).WellFormed ∧
        Disjoint (Set.Ico ptr ((ptr + amount) % 2 ^ 64)) m.free
  | .allocate _ | .reserve _ | .clear => True

/-- A reserved range does not end before it starts. -/
def Ordered : Call → Prop
  | .reserve r => r.start ≤ r.stop
  | .addBlock _ | .returnMemory _ _ | .allocate _ | .clear => True

instance : DecidablePred Ordered
  | .reserve r => inferInstanceAs (Decidable (r.start ≤ r.stop))
  | .addBlock _ | .returnMemory _ _ | .allocate _ | .clear => inferInstanceAs (Decidable True)

/-- A check for added ranges that can be computed. -/
def acceptable (m : BlockMap) : Call → Bool
  | .addBlock b => decide (b.WellFormed ∧ ∀ c ∈ m.blocks, c.Clear b)
  | .returnMemory ptr amount =>
      decide ((⟨ptr, (ptr + amount) % 2 ^ 64⟩ : Block).WellFormed ∧
        ∀ c ∈ m.blocks, c.Clear ⟨ptr, (ptr + amount) % 2 ^ 64⟩)
  | .allocate _ | .reserve _ | .clear => true

theorem admissible_of_acceptable {m : BlockMap} {call : Call} (h : call.acceptable m = true) :
    call.Admissible m := by
  cases call with
  | addBlock b =>
      obtain ⟨hb, clear⟩ := of_decide_eq_true h
      exact ⟨hb, disjoint_of_clear clear⟩
  | returnMemory ptr amount =>
      obtain ⟨hb, clear⟩ := of_decide_eq_true h
      exact ⟨hb, disjoint_of_clear (r := ⟨ptr, (ptr + amount) % 2 ^ 64⟩) clear⟩
  | allocate | reserve | clear => trivial

end Call

/-- A map together with its callers' ledger. -/
structure Audited where
  map : BlockMap
  ledger : Ledger Nat

namespace Audited

def initial : Audited := ⟨⟨[]⟩, .initial⟩

noncomputable def after (s : Audited) (call : Call) : Audited :=
  ⟨call.execute s.map, call.record s.map s.ledger⟩

/-- One admissible call. -/
def Step (s : Audited) (call : Call) (t : Audited) : Prop :=
  call.Admissible s.map ∧ t = s.after call

/-- One admissible call that, if it reserves, reserves an ordered range. -/
def OrderedStep (s : Audited) (call : Call) (t : Audited) : Prop := call.Ordered ∧ s.Step call t

/-- The state after a whole sequence of calls. -/
noncomputable def replay (s : Audited) (calls : List Call) : Audited := calls.foldl after s

/-- Every call of the sequence is acceptable where it is made. -/
def replayable (m : BlockMap) : List Call → Bool
  | [] => true
  | call :: rest => call.acceptable m && replayable (call.execute m) rest

theorem run_replay {s : Audited} {calls : List Call} (h : replayable s.map calls = true) :
    Run Step s calls (s.replay calls) := by
  induction calls generalizing s with
  | nil => exact .start s
  | cons call rest ih =>
      obtain ⟨first, later⟩ := (Bool.and_eq_true _ _).mp h
      exact (Run.single ⟨Call.admissible_of_acceptable first, rfl⟩).trans
        (ih (s := s.after call) later)

/-- What callers rely on after every call. -/
structure Safe (s : Audited) : Prop where
  fits : s.map.numBlocks ≤ 256
  ordered : ∀ b ∈ s.map.blocks, b.start ≤ b.stop
  disjoint : s.map.blocks.Pairwise (fun b c => Disjoint b.range c.range)
  accounted : s.map.free ⊆ s.ledger.available
  apart : s.ledger.live.Pairwise Disjoint

/-- The invariant of ordered runs. -/
structure Sound (s : Audited) : Prop where
  wellFormed : s.map.WellFormed
  accounts : s.ledger.Accounts s.map.free

theorem Sound.safe {s : Audited} (h : s.Sound) : s.Safe :=
  ⟨h.wellFormed.fits, fun b member => (h.wellFormed.blocks b member).ordered, h.wellFormed.disjoint,
    h.accounts.held, h.accounts.apart⟩

theorem initial_sound : initial.Sound :=
  ⟨empty_wellFormed, by simpa [initial, free] using Ledger.Accounts.initial⟩

theorem Sound.add {s : Audited} (h : s.Sound) {b : Block} (hb : b.WellFormed)
    (apart : Disjoint b.range s.map.free) : Sound ⟨s.map.addBlock b, s.ledger.add b.range⟩ :=
  ⟨addBlock_wellFormed h.wellFormed hb apart,
    h.accounts.add (addBlock_free_subset h.wellFormed.toTidy hb)⟩

theorem Sound.allocate {s : Audited} (h : s.Sound) (amount : Nat) :
    (s.after (.allocate amount)).Sound := by
  refine ⟨allocate_wellFormed h.wellFormed amount, ?_⟩
  simp only [after, Call.execute, Call.record]
  rcases allocate_spec h.wellFormed amount with ⟨-, same⟩ | ⟨-, granted⟩
  · simpa only [same, if_true] using h.accounts
  · split
    · exact h.accounts.shrink (granted.free.trans_subset Set.sdiff_subset)
    · exact h.accounts.grant granted.taken granted.free.subset

theorem Sound.step {s t : Audited} {call : Call} (h : s.Sound) (step : s.OrderedStep call t) :
    t.Sound := by
  obtain ⟨ordered, admissible, rfl⟩ := step
  cases call with
  | addBlock b => exact h.add admissible.1 admissible.2
  | returnMemory ptr amount =>
      exact h.add (b := ⟨ptr, (ptr + amount) % 2 ^ 64⟩) admissible.1 admissible.2
  | allocate amount => exact h.allocate amount
  | reserve r =>
      exact ⟨reserve_wellFormed h.wellFormed ordered,
        h.accounts.withdraw (reserve_free_subset h.wellFormed ordered)⟩
  | clear =>
      refine ⟨empty_wellFormed, h.accounts.shrink ?_⟩
      simp [after, Call.execute, BlockMap.clear, BlockMap.free]

theorem Sound.run {s t : Audited} {calls : List Call} (h : s.Sound)
    (run : Run OrderedStep s calls t) :
    t.Sound :=
  run.invariant h fun _ _ _ sound step => sound.step step

/-- Whatever is reserved, the table stays within its array and its blocks well
    formed. -/
theorem tidy_after_run {s : Audited} {calls : List Call} (run : Run Step initial calls s) :
    s.map.Tidy := by
  refine run.invariant (P := fun s => s.map.Tidy) empty_wellFormed.toTidy ?_
  rintro s call _ tidy ⟨admissible, rfl⟩
  cases call with
  | addBlock b => exact addBlock_tidy tidy admissible.1
  | returnMemory ptr amount => exact addBlock_tidy tidy admissible.1
  | allocate amount => exact allocate_tidy tidy amount
  | reserve r => exact reserve_tidy tidy r
  | clear => exact empty_wellFormed.toTidy

/-- Every ordered run leaves a table of at most 256 ordered, disjoint blocks that
    holds no address its callers own, and no two live allocations overlap. -/
theorem safe_after_run {s : Audited} {calls : List Call} (run : Run OrderedStep initial calls s) :
    s.Safe :=
  (initial_sound.run run).safe

/-- An allocation, a reservation that splits a block, and the return of the
    allocation. -/
theorem safe_after_reuse :
    (initial.replay [.addBlock ⟨0x1000, 0x3000⟩, .allocate 0x800, .reserve ⟨0x2000, 0x2800⟩,
      .returnMemory 0x1000 0x800]).Safe :=
  safe_after_run ((run_replay (by decide)).guarded (by decide))

/-- Reserving an inverted range strictly inside a block stores its two overlapping
    remainders. -/
theorem inverted_reserve_overlaps :
    ∃ calls s, Run Step initial calls s ∧ ¬ s.Safe := by
  refine ⟨[.addBlock ⟨0x1000, 0x4000⟩, .reserve ⟨0x3000, 0x2000⟩], _, run_replay (by decide), ?_⟩
  intro safe
  have stored : (initial.replay
      [.addBlock ⟨0x1000, 0x4000⟩, .reserve ⟨0x3000, 0x2000⟩]).map.blocks =
      [Block.empty, ⟨0x1000, 0x3000⟩, ⟨0x2000, 0x4000⟩] := by decide
  have apart := safe.disjoint
  rw [stored] at apart
  simp only [List.pairwise_cons, List.mem_cons] at apart
  have overlap := Set.disjoint_left.mp (apart.2.1 _ (.inl rfl))
  exact overlap (show 0x2800 ∈ _ from ⟨by decide, by decide⟩) ⟨by decide, by decide⟩

end Audited

end BlockMap

end Mykonos.Memory
