import Mykonos.Memory.FreeSet

/-! # Blocks that wrap around

A block whose end is before its start still has a capacity, modulo `2 ^ 64`, and is
handed out like any other. No operation on any table, well formed or not, offers an
address that neither the table nor the new block had before.
-/

namespace Mykonos.Memory

open Lib

namespace Block

/-- The addresses that the block hands out. -/
def cells (b : Block) : Set Nat :=
  {a | a < 2 ^ 64 ∧ (a + 2 ^ 64 - b.start) % 2 ^ 64 < b.capacity}

structure Bounded (b : Block) : Prop where
  start : b.start < 2 ^ 64
  stop : b.stop < 2 ^ 64

theorem mem_cells {b : Block} (h : b.Bounded) {a : Nat} :
    a ∈ b.cells ↔ a < 2 ^ 64 ∧
      if b.start ≤ b.stop then b.start ≤ a ∧ a < b.stop else b.start ≤ a ∨ a < b.stop := by
  obtain ⟨start, stop⟩ := h
  simp only [cells, capacity, Set.mem_ofPred_eq]
  split_ifs <;> omega

theorem WellFormed.bounded' {b : Block} (h : b.WellFormed) : b.Bounded :=
  ⟨Nat.lt_of_le_of_lt h.ordered h.bounded, h.bounded⟩

theorem WellFormed.cells {b : Block} (h : b.WellFormed) : b.cells = b.range := by
  ext a
  have bounded := h.bounded
  rw [mem_cells h.bounded', if_pos h.ordered, mem_range]
  omega

theorem empty_bounded : empty.Bounded := ⟨by decide, by decide⟩

theorem empty_cells : empty.cells = ∅ := by
  apply Set.eq_empty_of_forall_notMem
  intro a inside
  exact Nat.not_lt_zero _ inside.2

/-- Two blocks that touch give at most the addresses of both. -/
theorem join_cells {b c : Block} (hb : b.Bounded) (hc : c.Bounded) (touches : b.stop = c.start) :
    (⟨b.start, c.stop⟩ : Block).cells ⊆ b.cells ∪ c.cells := by
  intro a inside
  rw [Set.mem_union, mem_cells hb, mem_cells hc]
  rw [mem_cells (b := ⟨b.start, c.stop⟩) ⟨hb.start, hc.stop⟩] at inside
  simp only at inside
  split_ifs at inside ⊢ <;> omega

/-- A part of a block that does not wrap around. -/
theorem part_cells {b : Block} (hb : b.Bounded) (start stop : Nat) (first : b.start ≤ start)
    (order : start ≤ stop) (last : stop ≤ b.stop) :
    (⟨start, stop⟩ : Block).Bounded ∧ (⟨start, stop⟩ : Block).cells ⊆ b.cells := by
  have bounded : (⟨start, stop⟩ : Block).Bounded :=
    ⟨Nat.lt_of_le_of_lt (order.trans last) hb.stop, Nat.lt_of_le_of_lt last hb.stop⟩
  refine ⟨bounded, fun a inside => ?_⟩
  rw [mem_cells bounded, if_pos order] at inside
  rw [mem_cells hb, if_pos (first.trans (order.trans last))]
  exact ⟨inside.1, first.trans inside.2.1, Nat.lt_of_lt_of_le inside.2.2 last⟩

end Block

namespace BlockMap

/-- The addresses that the table hands out. -/
def offered (m : BlockMap) : Set Nat :=
  covered Block.cells m.blocks

def Bounded (m : BlockMap) : Prop :=
  ∀ b ∈ m.blocks, b.Bounded

theorem Tidy.offered {m : BlockMap} (h : m.Tidy) : m.offered = m.free :=
  covered_congr _ fun b member => (h.blocks b member).cells

theorem absorb_offered {b : Block} {l : List Block} (hb : b.Bounded) (hl : ∀ c ∈ l, c.Bounded) :
    covered Block.cells (absorb b l) ⊆ b.cells ∪ covered Block.cells l ∧
    ∀ c ∈ absorb b l, c.Bounded := by
  induction l with
  | nil => simp [absorb, hb]
  | cons c rest ih =>
      obtain ⟨hc, hrest⟩ := List.forall_mem_cons.mp hl
      simp only [absorb]
      split_ifs with front back
      · refine ⟨?_, List.forall_mem_cons.mpr ⟨⟨hb.start, hc.stop⟩, hrest⟩⟩
        rw [covered_cons, covered_cons, ← Set.union_assoc]
        exact Set.union_subset_union_left _ (Block.join_cells hb hc front.symm)
      · refine ⟨?_, List.forall_mem_cons.mpr ⟨⟨hc.start, hb.stop⟩, hrest⟩⟩
        rw [covered_cons, covered_cons, ← Set.union_assoc, Set.union_comm b.cells]
        exact Set.union_subset_union_left _ (Block.join_cells hc hb back)
      · obtain ⟨smaller, bounded⟩ := ih hrest
        refine ⟨?_, List.forall_mem_cons.mpr ⟨hc, bounded⟩⟩
        rw [covered_cons, covered_cons, Set.union_left_comm]
        exact Set.union_subset_union_right _ smaller

theorem merge_offered {m : BlockMap} (h : m.Bounded) :
    m.merge.offered ⊆ m.offered ∧ m.merge.Bounded := by
  have fold (temp merged : List Block) (ht : ∀ b ∈ temp, b.Bounded) (hm : ∀ b ∈ merged, b.Bounded) :
      covered Block.cells (temp.foldl mergeOne merged) ⊆ covered Block.cells merged ∪
        covered Block.cells temp ∧
        ∀ b ∈ temp.foldl mergeOne merged, b.Bounded := by
    induction temp generalizing merged with
    | nil => simpa using hm
    | cons b rest ih =>
        obtain ⟨hb, hrest⟩ := List.forall_mem_cons.mp ht
        obtain ⟨smaller, bounded⟩ := absorb_offered hb hm
        rw [List.foldl_cons, mergeOne, covered_cons]
        split
        · obtain ⟨later, all⟩ := ih merged hrest hm
          exact ⟨later.trans (Set.union_subset_union_right _ Set.subset_union_right), all⟩
        · obtain ⟨later, all⟩ := ih (absorb b merged) hrest bounded
          refine ⟨later.trans ?_, all⟩
          rw [Set.union_left_comm, ← Set.union_assoc]
          exact Set.union_subset_union_left _ smaller
  simpa [offered, merge, mergeBlocks, Bounded] using fold m.blocks [] h (by simp)

theorem addBlock_offered {m : BlockMap} (h : m.Bounded) {b : Block} (hb : b.Bounded) :
    (m.addBlock b).offered ⊆ m.offered ∪ b.cells ∧ (m.addBlock b).Bounded := by
  obtain ⟨smaller, bounded⟩ := merge_offered h
  have append {n : BlockMap} (hn : n.Bounded) (less : n.offered ⊆ m.offered) :
      (⟨n.blocks ++ [b]⟩ : BlockMap).offered ⊆ m.offered ∪ b.cells ∧
      (⟨n.blocks ++ [b]⟩ : BlockMap).Bounded := by
    constructor
    · rintro a ⟨c, member, inside⟩
      rcases List.mem_append.mp member with old | new
      · exact .inl (less ⟨c, old, inside⟩)
      · exact .inr (List.mem_singleton.mp new ▸ inside)
    · intro c member
      rcases List.mem_append.mp member with old | new
      · exact hn c old
      · exact List.mem_singleton.mp new ▸ hb
  unfold addBlock
  split_ifs
  · exact append h subset_rfl
  · exact append bounded smaller
  · exact ⟨smaller.trans Set.subset_union_left, bounded⟩
  · exact ⟨Set.subset_union_left, h⟩

theorem set_offered {m : BlockMap} (h : m.Bounded) {i : Nat} {b c : Block}
    (here : m.blocks[i]? = some b) (hc : c.Bounded) (smaller : c.cells ⊆ b.cells) :
    (⟨m.blocks.set i c⟩ : BlockMap).offered ⊆ m.offered ∧
    (⟨m.blocks.set i c⟩ : BlockMap).Bounded := by
  constructor
  · rintro a ⟨d, member, inside⟩
    rcases List.mem_or_eq_of_mem_set member with old | rfl
    · exact ⟨d, old, inside⟩
    · exact ⟨b, List.mem_of_getElem? here, smaller inside⟩
  · intro d member
    rcases List.mem_or_eq_of_mem_set member with old | rfl
    · exact h d old
    · exact hc

theorem reserveStep_offered {m : BlockMap} (h : m.Bounded) (r : Block) (i : Nat) :
    (reserveStep r i m).offered ⊆ m.offered ∧ (reserveStep r i m).Bounded := by
  unfold reserveStep
  cases here : m.blocks[i]? with
  | none => exact ⟨subset_rfl, h⟩
  | some b =>
      have hb := h b (List.mem_of_getElem? here)
      have empty :=
        set_offered h here Block.empty_bounded
          (Block.empty_cells.subset.trans (Set.empty_subset b.cells))
      simp only
      split_ifs with after before whole front back
      · exact ⟨subset_rfl, h⟩
      · exact ⟨subset_rfl, h⟩
      · exact empty
      · have part := Block.part_cells hb r.stop b.stop (by omega) (by omega) (Nat.le_refl _)
        exact set_offered h here part.1 part.2
      · have part := Block.part_cells hb b.start r.start (Nat.le_refl _) (by omega) (by omega)
        exact set_offered h here part.1 part.2
      · have left := Block.part_cells hb b.start r.start (Nat.le_refl _) (by omega) (by omega)
        have right := Block.part_cells hb r.stop b.stop (by omega) (by omega) (Nat.le_refl _)
        have inside : b.cells ⊆ m.offered := fun a cell => ⟨b, List.mem_of_getElem? here, cell⟩
        obtain ⟨first, bounded⟩ := addBlock_offered empty.2 left.1
        obtain ⟨second, bounded'⟩ := addBlock_offered bounded right.1
        refine ⟨second.trans (Set.union_subset (first.trans (Set.union_subset empty.1 ?_)) ?_),
          bounded'⟩
        · exact left.2.trans inside
        · exact right.2.trans inside

theorem reserve_offered {m : BlockMap} (h : m.Bounded) (r : Block) :
    (m.reserve r).offered ⊆ m.offered ∧ (m.reserve r).Bounded := by
  have loop (fuel i : Nat) (n : BlockMap) (hn : n.Bounded) (less : n.offered ⊆ m.offered) :
      (reserveLoop r fuel i n).offered ⊆ m.offered ∧ (reserveLoop r fuel i n).Bounded := by
    induction fuel generalizing i n with
    | zero => exact ⟨less, hn⟩
    | succ fuel ih =>
        rw [reserveLoop]
        split
        · obtain ⟨smaller, bounded⟩ := reserveStep_offered hn r i
          exact ih (i + 1) _ bounded (smaller.trans less)
        · exact ⟨less, hn⟩
  obtain ⟨smaller, bounded⟩ := merge_offered h
  exact loop blockMapSize 0 m.merge bounded smaller

end BlockMap

end Mykonos.Memory
