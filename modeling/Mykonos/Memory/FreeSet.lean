import Mykonos.Lib.Cover
import Mykonos.Memory.Block

/-! # The free addresses of a block map

A table stands for the set of addresses its blocks hold. Each operation is
specified here by what it does to that set, to the number of blocks holding an
address, and to the well-formedness of the table. Later proofs use these
equations and never unfold the operations.
-/

namespace Mykonos.Memory

open Lib

namespace Block

def range (b : Block) : Set Nat := Set.Ico b.start b.stop

@[simp] theorem mem_range {b : Block} {a : Nat} : a ∈ b.range ↔ b.start ≤ a ∧ a < b.stop := Iff.rfl

structure WellFormed (b : Block) : Prop where
  ordered : b.start ≤ b.stop
  bounded : b.stop < 2 ^ 64

/-- A well-formed block that holds an address. -/
structure Solid (b : Block) : Prop where
  inhabited : b.start < b.stop
  bounded : b.stop < 2 ^ 64

/-- One block ends where the other starts. -/
def Touches (b c : Block) : Prop := c.start = b.stop ∨ c.stop = b.start

instance (b c : Block) : Decidable (b.Touches c) := inferInstanceAs (Decidable (_ ∨ _))

instance (b : Block) : Decidable b.WellFormed :=
  decidable_of_iff (b.start ≤ b.stop ∧ b.stop < 2 ^ 64) ⟨fun h => ⟨h.1, h.2⟩, fun h => ⟨h.1, h.2⟩⟩

theorem Solid.wellFormed {b : Block} (h : b.Solid) : b.WellFormed := ⟨h.inhabited.le, h.bounded⟩

theorem WellFormed.capacity {b : Block} (h : b.WellFormed) : b.capacity = b.stop - b.start := by
  have := h.ordered
  have := h.bounded
  simp only [Block.capacity]
  omega

theorem WellFormed.capacity_pos {b : Block} (h : b.WellFormed) : 0 < b.capacity ↔ b.Solid := by
  rw [h.capacity]
  exact ⟨fun large => ⟨by omega, h.bounded⟩, fun solid => by have := solid.inhabited; omega⟩

theorem WellFormed.capacity_eq_zero {b : Block} (h : b.WellFormed) :
    b.capacity = 0 ↔ ¬ b.Solid := by
  rw [← h.capacity_pos, Nat.not_lt, Nat.le_zero]

theorem empty_wellFormed : empty.WellFormed := ⟨le_rfl, by simp [empty]⟩

theorem range_eq_empty {b : Block} (h : b.WellFormed) (flat : ¬ b.Solid) : b.range = ∅ :=
  Set.Ico_eq_empty fun inhabited => flat ⟨inhabited, h.bounded⟩

theorem Touches.symm {b c : Block} (h : b.Touches c) : c.Touches b :=
  h.elim (fun e => .inr e.symm) (fun e => .inl e.symm)

end Block

namespace BlockMap

/-- How many stored blocks hold the address. -/
noncomputable abbrev holders (l : List Block) (a : Nat) : Nat := multiplicity Block.range l a

/-- The addresses free in the map. -/
def free (m : BlockMap) : Set Nat := covered Block.range m.blocks

theorem mem_free {m : BlockMap} {a : Nat} : a ∈ m.free ↔ ∃ b ∈ m.blocks, b.start ≤ a ∧ a < b.stop :=
  Iff.rfl

theorem free_of_holders {m n : BlockMap} (same : ∀ a, holders m.blocks a = holders n.blocks a) :
    m.free = n.free := by
  ext a
  rw [free, free, ← multiplicity_pos, ← multiplicity_pos]
  exact iff_of_eq (congrArg (0 < ·) (same a))

/-- The table fits its array and every block is well formed. -/
structure Tidy (m : BlockMap) : Prop where
  fits : m.numBlocks ≤ blockMapSize
  blocks : ∀ b ∈ m.blocks, b.WellFormed

structure WellFormed (m : BlockMap) : Prop extends m.Tidy where
  disjoint : m.blocks.Pairwise (fun b c => Disjoint b.range c.range)

theorem WellFormed.single {m : BlockMap} (h : m.WellFormed) (a : Nat) : holders m.blocks a ≤ 1 :=
  (pairwise_disjoint_iff Block.range).mp h.disjoint a

theorem Tidy.wellFormed {m : BlockMap} (h : m.Tidy) (single : ∀ a, holders m.blocks a ≤ 1) :
    m.WellFormed :=
  ⟨h, (pairwise_disjoint_iff Block.range).mpr single⟩

theorem empty_wellFormed : (⟨[]⟩ : BlockMap).WellFormed :=
  ⟨⟨Nat.zero_le _, by simp⟩, List.Pairwise.nil⟩

/-! ## Coalescing -/

theorem absorb_holders {b : Block} {l : List Block} (hb : b.WellFormed)
    (hl : ∀ c ∈ l, c.WellFormed) (a : Nat) :
    holders (absorb b l) a = holders (b :: l) a := by
  induction l with
  | nil => rfl
  | cons c rest ih =>
      have hc := (hl c (by simp)).ordered
      have := hb.ordered
      have hrest := ih (fun d member => hl d (by simp [member]))
      simp only [absorb]
      split_ifs with before after
      · simp only [holders, multiplicity_cons, Block.mem_range]
        split_ifs <;> omega
      · simp only [holders, multiplicity_cons, Block.mem_range]
        split_ifs <;> omega
      · simp only [holders, multiplicity_cons] at hrest ⊢
        omega

theorem absorb_solid {b : Block} {l : List Block} (hb : b.Solid) (hl : ∀ c ∈ l, c.Solid) :
    ∀ c ∈ absorb b l, c.Solid := by
  induction l with
  | nil => simpa [absorb] using hb
  | cons c rest ih =>
      have hc := hl c (by simp)
      have hrest : ∀ d ∈ rest, d.Solid := fun d member => hl d (by simp [member])
      have := hb.inhabited
      have := hc.inhabited
      simp only [absorb]
      split_ifs with before after <;> intro d member <;>
        rcases List.mem_cons.mp member with rfl | member
      · exact ⟨by simp only; omega, hc.bounded⟩
      · exact hrest d member
      · exact ⟨by simp only; omega, hb.bounded⟩
      · exact hrest d member
      · exact hc
      · exact ih hrest d member

theorem absorb_length_le (b : Block) (l : List Block) : (absorb b l).length ≤ l.length + 1 := by
  induction l with
  | nil => simp [absorb]
  | cons c rest ih =>
      simp only [absorb]
      split_ifs <;> simp only [List.length_cons] <;> omega

/-- Nothing in the list touches the block: it is appended. -/
theorem absorb_apart {b : Block} {l : List Block} (apart : ∀ c ∈ l, ¬ b.Touches c) :
    absorb b l = l ++ [b] := by
  induction l with
  | nil => rfl
  | cons c rest ih =>
      have hc := apart c (by simp)
      simp only [Block.Touches, not_or] at hc
      simp only [absorb, hc.1, hc.2, if_false, List.cons_append,
        ih (fun d member => apart d (by simp [member]))]

/-- A touching block anywhere in the list saves a slot. -/
theorem absorb_touching {b : Block} {l : List Block} (h : ∃ c ∈ l, b.Touches c) :
    (absorb b l).length = l.length := by
  induction l with
  | nil => simp at h
  | cons c rest ih =>
      simp only [absorb]
      split_ifs with before after
      · rfl
      · rfl
      · obtain ⟨d, member, touches⟩ := h
        rcases List.mem_cons.mp member with rfl | member
        · exact absurd touches (by simp [Block.Touches, before, after])
        · simp only [List.length_cons, ih ⟨d, member, touches⟩]

theorem foldl_mergeOne_holders {temp : List Block} (merged : List Block)
    (ht : ∀ b ∈ temp, b.WellFormed) (hm : ∀ c ∈ merged, c.Solid) (a : Nat) :
    holders (temp.foldl mergeOne merged) a = holders merged a + holders temp a := by
  induction temp generalizing merged with
  | nil => simp
  | cons b rest ih =>
      have hb := ht b (by simp)
      have hrest : ∀ c ∈ rest, c.WellFormed := fun c member => ht c (by simp [member])
      simp only [List.foldl_cons, mergeOne]
      split_ifs with flat
      · have outside : a ∉ b.range := by
          rw [Block.range_eq_empty hb (hb.capacity_eq_zero.mp flat)]
          simp
        rw [ih merged hrest hm]
        simp only [holders, multiplicity_cons, outside, if_false, Nat.zero_add]
      · have solid : b.Solid := hb.capacity_pos.mp (Nat.pos_of_ne_zero flat)
        rw [ih _ hrest (absorb_solid solid hm),
          absorb_holders hb fun c member => (hm c member).wellFormed]
        simp only [holders, multiplicity_cons]
        omega

theorem foldl_mergeOne_solid {temp : List Block} (merged : List Block)
    (ht : ∀ b ∈ temp, b.WellFormed) (hm : ∀ c ∈ merged, c.Solid) :
    ∀ c ∈ temp.foldl mergeOne merged, c.Solid := by
  induction temp generalizing merged with
  | nil => simpa using hm
  | cons b rest ih =>
      have hb := ht b (by simp)
      have hrest : ∀ c ∈ rest, c.WellFormed := fun c member => ht c (by simp [member])
      simp only [List.foldl_cons, mergeOne]
      split_ifs with flat
      · exact ih merged hrest hm
      · exact ih _ hrest (absorb_solid (hb.capacity_pos.mp (Nat.pos_of_ne_zero flat)) hm)

theorem mergeOne_length_le (merged : List Block) (b : Block) :
    (mergeOne merged b).length ≤ merged.length + 1 := by
  simp only [mergeOne]
  split_ifs
  · omega
  · exact absorb_length_le b merged

theorem foldl_mergeOne_length_le (temp merged : List Block) :
    (temp.foldl mergeOne merged).length ≤ merged.length + temp.length := by
  induction temp generalizing merged with
  | nil => simp
  | cons b rest ih =>
      have step := mergeOne_length_le merged b
      have tail := ih (mergeOne merged b)
      simp only [List.foldl_cons, List.length_cons]
      omega

theorem merge_holders {m : BlockMap} (h : ∀ b ∈ m.blocks, b.WellFormed) (a : Nat) :
    holders m.merge.blocks a = holders m.blocks a := by
  simpa [merge, mergeBlocks] using foldl_mergeOne_holders [] h (by simp) a

theorem merge_solid {m : BlockMap} (h : ∀ b ∈ m.blocks, b.WellFormed) :
    ∀ b ∈ m.merge.blocks, b.Solid :=
  foldl_mergeOne_solid [] h (by simp)

theorem merge_numBlocks_le (m : BlockMap) : m.merge.numBlocks ≤ m.numBlocks := by
  simpa [merge, mergeBlocks] using foldl_mergeOne_length_le m.blocks []

theorem merge_free {m : BlockMap} (h : ∀ b ∈ m.blocks, b.WellFormed) : m.merge.free = m.free :=
  free_of_holders (merge_holders h)

theorem merge_tidy {m : BlockMap} (h : m.Tidy) : m.merge.Tidy :=
  ⟨(merge_numBlocks_le m).trans h.fits, fun b member => (merge_solid h.blocks b member).wellFormed⟩

theorem merge_wellFormed {m : BlockMap} (h : m.WellFormed) : m.merge.WellFormed :=
  (merge_tidy h.toTidy).wellFormed fun a => by rw [merge_holders h.blocks]; exact h.single a

/-! ## Tables that coalescing cannot shorten -/

/-- Every block holds an address and no two blocks touch. -/
structure Settled (l : List Block) : Prop where
  solid : ∀ b ∈ l, b.Solid
  apart : l.Pairwise (fun b c => ¬ c.Touches b)

/-- A full table in which a coalescing pass frees no slot. -/
structure Saturated (m : BlockMap) : Prop where
  full : m.numBlocks = blockMapSize
  settled : Settled m.blocks

theorem foldl_mergeOne_settled (merged temp : List Block) (h : Settled (merged ++ temp)) :
    temp.foldl mergeOne merged = merged ++ temp := by
  induction temp generalizing merged with
  | nil => simp
  | cons b rest ih =>
      have solid := h.solid b (by simp)
      have apart : ∀ c ∈ merged, ¬ b.Touches c :=
        fun c member => (List.pairwise_append.mp h.apart).2.2 c member b (by simp)
      have size : ¬ b.capacity = 0 := (solid.wellFormed.capacity_pos.mpr solid).ne'
      simp only [List.foldl_cons, mergeOne, size, if_false, absorb_apart apart]
      have shifted : merged ++ [b] ++ rest = merged ++ b :: rest := by simp
      rw [ih (merged ++ [b]) (by rw [shifted]; exact h), shifted]

/-- A pass that saves no slot has met neither an empty block nor two touching
    ones. -/
theorem settled_of_foldl_length {temp : List Block} (merged : List Block)
    (ht : ∀ b ∈ temp, b.WellFormed) (hm : Settled merged)
    (same : merged.length + temp.length ≤ (temp.foldl mergeOne merged).length) :
    Settled (merged ++ temp) := by
  induction temp generalizing merged with
  | nil => simpa using hm
  | cons b rest ih =>
      have hb := ht b (by simp)
      have bound := foldl_mergeOne_length_le rest (mergeOne merged b)
      have step := mergeOne_length_le merged b
      simp only [List.foldl_cons, List.length_cons] at same
      have kept : (mergeOne merged b).length = merged.length + 1 := by omega
      have size : ¬ b.capacity = 0 := by
        intro flat
        simp [mergeOne, flat] at kept
      have apart : ∀ c ∈ merged, ¬ b.Touches c := by
        intro c member touches
        have saved := absorb_touching ⟨c, member, touches⟩
        simp only [mergeOne, size, if_false] at kept
        omega
      have grown : mergeOne merged b = merged ++ [b] := by
        simp only [mergeOne, size, if_false, absorb_apart apart]
      have next : Settled (merged ++ [b]) := by
        refine ⟨?_, List.pairwise_append.mpr ⟨hm.apart, by simp, ?_⟩⟩
        · intro c member
          rcases List.mem_append.mp member with member | member
          · exact hm.solid c member
          · rw [List.mem_singleton.mp member]
            exact hb.capacity_pos.mp (Nat.pos_of_ne_zero size)
        · intro c member d last
          rw [List.mem_singleton.mp last]
          exact apart c member
      rw [grown] at same bound
      have final := ih _ (fun c member => ht c (by simp [member])) next
        (by simp only [List.length_append, List.length_singleton]; omega)
      simpa using final

theorem merge_settled {m : BlockMap} (h : Settled m.blocks) : m.merge = m := by
  have fixed := foldl_mergeOne_settled [] m.blocks (by simpa using h)
  simp only [merge, mergeBlocks, fixed, List.nil_append]

theorem settled_of_merge {m : BlockMap} (h : ∀ b ∈ m.blocks, b.WellFormed)
    (same : m.numBlocks ≤ m.merge.numBlocks) : Settled m.blocks := by
  simpa using settled_of_foldl_length [] h ⟨by simp, .nil⟩
    (by simpa [merge, mergeBlocks] using same)

/-! ## Adding -/

variable {m : BlockMap} {b : Block}

theorem addBlock_flat (h : b.WellFormed) (flat : ¬ b.Solid) : m.addBlock b = m := by
  simp only [addBlock, h.capacity_eq_zero.mpr flat, Nat.lt_irrefl, if_false]

/-- A saturated table drops every block it is given. -/
theorem addBlock_saturated (h : m.Saturated) (b : Block) : m.addBlock b = m := by
  have full := h.full
  simp only [addBlock, merge_settled h.settled, full, Nat.lt_irrefl, if_false, ite_self]

/-- Any other table stores the block behind its entries, coalesced or not. -/
theorem addBlock_stored (h : m.Tidy) (room : ¬ m.Saturated) (solid : b.Solid) :
    ∃ k : BlockMap, (k = m ∨ k = m.merge) ∧ k.numBlocks < blockMapSize ∧
      m.addBlock b = ⟨k.blocks ++ [b]⟩ := by
  have size := solid.wellFormed.capacity_pos.mpr solid
  have := h.fits
  by_cases spare : m.numBlocks < blockMapSize
  · exact ⟨m, .inl rfl, spare, by simp only [addBlock, size, spare, if_true]⟩
  · have full : m.numBlocks = blockMapSize := by omega
    have gained : m.merge.numBlocks < blockMapSize := by
      by_contra stuck
      exact room ⟨full, settled_of_merge h.blocks (by omega)⟩
    exact ⟨m.merge, .inr rfl, gained,
      by simp only [addBlock, size, spare, gained, if_true, if_false]⟩

theorem addBlock_numBlocks_le (m : BlockMap) (b : Block) :
    (m.addBlock b).numBlocks ≤ m.numBlocks + 1 := by
  have merged := merge_numBlocks_le m
  unfold addBlock
  split_ifs <;> simp only [numBlocks, List.length_append, List.length_singleton] at merged ⊢ <;>
    omega

theorem addBlock_holders (h : m.Tidy) (room : ¬ m.Saturated) (hb : b.WellFormed) (a : Nat) :
    holders (m.addBlock b).blocks a = holders (b :: m.blocks) a := by
  by_cases solid : b.Solid
  · obtain ⟨k, same, -, stored⟩ := addBlock_stored h room solid
    have kept : holders k.blocks a = holders m.blocks a := by
      rcases same with rfl | rfl
      · rfl
      · exact merge_holders h.blocks a
    rw [stored]
    simp only [holders, multiplicity_append, multiplicity_cons, multiplicity_nil] at kept ⊢
    omega
  · rw [addBlock_flat hb solid]
    simp [holders, Block.range_eq_empty hb solid]

theorem addBlock_tidy (h : m.Tidy) (hb : b.WellFormed) : (m.addBlock b).Tidy := by
  by_cases room : m.Saturated
  · rwa [addBlock_saturated room]
  by_cases solid : b.Solid
  · obtain ⟨k, same, spare, stored⟩ := addBlock_stored h room solid
    have kept : k.Tidy := by
      rcases same with rfl | rfl
      · exact h
      · exact merge_tidy h
    rw [stored]
    refine ⟨by simpa [numBlocks] using spare, fun c member => ?_⟩
    rcases List.mem_append.mp member with member | member
    · exact kept.blocks c member
    · exact List.mem_singleton.mp member ▸ hb
  · rwa [addBlock_flat hb solid]

theorem addBlock_free (h : m.Tidy) (room : ¬ m.Saturated) (hb : b.WellFormed) :
    (m.addBlock b).free = m.free ∪ b.range := by
  rw [free_of_holders (n := ⟨b :: m.blocks⟩) (addBlock_holders h room hb)]
  simp only [free, covered_cons, Set.union_comm]

theorem addBlock_free_subset (h : m.Tidy) (hb : b.WellFormed) :
    (m.addBlock b).free ⊆ m.free ∪ b.range := by
  by_cases room : m.Saturated
  · rw [addBlock_saturated room]
    exact Set.subset_union_left
  · exact (addBlock_free h room hb).subset

theorem addBlock_wellFormed (h : m.WellFormed) (hb : b.WellFormed)
    (apart : Disjoint b.range m.free) :
    (m.addBlock b).WellFormed := by
  by_cases room : m.Saturated
  · rwa [addBlock_saturated room]
  refine (addBlock_tidy h.toTidy hb).wellFormed fun a => ?_
  rw [addBlock_holders h.toTidy room hb]
  by_cases inside : a ∈ b.range
  · have outside : holders m.blocks a = 0 :=
      (multiplicity_eq_zero _).mpr (Set.disjoint_left.mp apart inside)
    simp only [holders, multiplicity_cons, inside, if_true] at outside ⊢
    omega
  · have single := h.single a
    simp only [holders, multiplicity_cons, inside, if_false] at single ⊢
    omega

/-! ## Allocating -/

/-- The first block that is large enough gives up its front. -/
theorem firstFit_at {pre post : List Block} {c : Block} {amount : Nat} (hc : c.WellFormed)
    (small : ∀ d ∈ pre, d.capacity < amount) (large : amount ≤ c.capacity) :
    firstFit amount (pre ++ c :: post) = (c.start, pre ++ ⟨c.start + amount, c.stop⟩ :: post) := by
  induction pre with
  | nil =>
      have cap := hc.capacity
      have := hc.ordered
      have := hc.bounded
      have wrap : (c.start + amount) % 2 ^ 64 = c.start + amount := Nat.mod_eq_of_lt (by omega)
      simp only [List.nil_append, firstFit, large, if_true, Block.reserve, wrap]
  | cons d rest ih =>
      have skip : ¬ amount ≤ d.capacity := Nat.not_le.mpr (small d (by simp))
      simp only [List.cons_append, firstFit, skip, if_false,
        ih fun e member => small e (by simp [member])]

theorem firstFit_none {l : List Block} {amount : Nat} (small : ∀ c ∈ l, c.capacity < amount) :
    firstFit amount l = (0, l) := by
  induction l with
  | nil => rfl
  | cons c rest ih =>
      have skip : ¬ amount ≤ c.capacity := Nat.not_le.mpr (small c (by simp))
      simp only [firstFit, skip, if_false, ih fun d member => small d (by simp [member])]

theorem exists_first_large (l : List Block) (amount : Nat) :
    (∀ c ∈ l, c.capacity < amount) ∨
    ∃ pre c post, l = pre ++ c :: post ∧ (∀ d ∈ pre, d.capacity < amount) ∧
    amount ≤ c.capacity := by
  induction l with
  | nil => exact .inl (by simp)
  | cons c rest ih =>
      by_cases large : amount ≤ c.capacity
      · exact .inr ⟨[], c, rest, rfl, by simp, large⟩
      · rcases ih with small | ⟨pre, d, post, rfl, small, fit⟩
        · exact .inl (List.forall_mem_cons.mpr ⟨by omega, small⟩)
        · exact .inr ⟨c :: pre, d, post, rfl, List.forall_mem_cons.mpr ⟨by omega, small⟩, fit⟩

/-- Either no block is large enough and nothing changes, or the first one that
    is gives up its front. -/
theorem allocate_cases (h : m.Tidy) (amount : Nat) :
    ((∀ c ∈ m.blocks, c.capacity < amount) ∧ m.allocate amount = (0, m)) ∨
    ∃ pre c post, m.blocks = pre ++ c :: post ∧ (∀ d ∈ pre, d.capacity < amount) ∧
      c.start + amount ≤ c.stop ∧
      m.allocate amount = (c.start, ⟨pre ++ ⟨c.start + amount, c.stop⟩ :: post⟩) := by
  rcases exists_first_large m.blocks amount with small | ⟨pre, c, post, split, small, large⟩
  · exact .inl ⟨small, by simp only [allocate, firstFit_none small]⟩
  · have hc := h.blocks c (by simp [split])
    have := hc.ordered
    refine .inr ⟨pre, c, post, split, small, ?_,
      by simp only [allocate, split, firstFit_at hc small large]⟩
    rw [hc.capacity] at large
    omega

theorem cut_tidy (h : m.Tidy) {pre post : List Block} {c : Block} {amount : Nat}
    (split : m.blocks = pre ++ c :: post) (fit : c.start + amount ≤ c.stop) :
    (⟨pre ++ ⟨c.start + amount, c.stop⟩ :: post⟩ : BlockMap).Tidy := by
  refine ⟨?_, fun d member => ?_⟩
  · have := h.fits
    simpa [numBlocks, split] using this
  · simp only [List.mem_append, List.mem_cons] at member
    rcases member with member | rfl | member
    · exact h.blocks d (by simp [split, member])
    · exact ⟨fit, (h.blocks c (by simp [split])).bounded⟩
    · exact h.blocks d (by simp [split, member])

theorem allocate_tidy (h : m.Tidy) (amount : Nat) : (m.allocate amount).2.Tidy := by
  rcases allocate_cases h amount with ⟨-, same⟩ | ⟨pre, c, post, split, -, fit, cut⟩
  · rwa [same]
  · rw [cut]
    exact cut_tidy h split fit

/-- What an allocation that found a block does to the table: the granted range
    leaves it, and nothing else changes. -/
structure Granted (m next : BlockMap) (ptr amount : Nat) : Prop where
  wellFormed : next.WellFormed
  taken : Set.Ico ptr (ptr + amount) ⊆ m.free
  free : next.free = m.free \ Set.Ico ptr (ptr + amount)
  numBlocks : next.numBlocks = m.numBlocks
  bounded : ptr + amount < 2 ^ 64

theorem granted_of_cut (h : m.WellFormed) {pre post : List Block} {c : Block} {amount : Nat}
    (split : m.blocks = pre ++ c :: post) (fit : c.start + amount ≤ c.stop) :
    Granted m ⟨pre ++ ⟨c.start + amount, c.stop⟩ :: post⟩ c.start amount := by
  have hc : c.WellFormed := h.blocks c (by simp [split])
  have count : ∀ a, holders m.blocks a =
      holders (pre ++ ⟨c.start + amount, c.stop⟩ :: post) a +
        multiplicity Block.range [⟨c.start, c.start + amount⟩] a := by
    intro a
    rw [split]
    simp only [holders, multiplicity_append, multiplicity_cons, multiplicity_nil, Block.mem_range]
    split_ifs <;> omega
  have inside : ∀ a, multiplicity Block.range [⟨c.start, c.start + amount⟩] a = 1 ∨
      multiplicity Block.range [⟨c.start, c.start + amount⟩] a = 0 := by
    intro a
    simp only [multiplicity_cons, multiplicity_nil]
    split_ifs <;> omega
  have granted : ∀ a, 0 < multiplicity Block.range [⟨c.start, c.start + amount⟩] a ↔
      a ∈ Set.Ico c.start (c.start + amount) := by
    intro a
    rw [multiplicity_pos]
    simp [Block.range]
  refine ⟨(cut_tidy h.toTidy split fit).wellFormed ?_, ?_, ?_, ?_, ?_⟩
  · intro a
    have := h.single a
    rw [count a] at this
    exact le_trans (Nat.le_add_right _ _) this
  · intro a member
    simp only [Set.mem_Ico] at member
    exact ⟨c, by simp [split], by simp only [Block.mem_range]; omega⟩
  · ext a
    have total := count a
    have single := h.single a
    rw [Set.mem_sdiff, ← granted a, free, free, ← multiplicity_pos, ← multiplicity_pos]
    simp only [holders] at total single ⊢
    rcases inside a with one | zero <;> constructor <;> omega
  · simp [numBlocks, split]
  · have := hc.bounded
    omega

/-- The specification of `allocate`: failure changes nothing, and success grants
    the front of a block. -/
theorem allocate_spec (h : m.WellFormed) (amount : Nat) :
    ((∀ c ∈ m.blocks, c.capacity < amount) ∧ m.allocate amount = (0, m)) ∨
    ((∃ c ∈ m.blocks, (m.allocate amount).1 = c.start ∧ amount ≤ c.capacity) ∧
      Granted m (m.allocate amount).2 (m.allocate amount).1 amount) := by
  rcases allocate_cases h.toTidy amount with fail | ⟨pre, c, post, split, -, fit, cut⟩
  · exact .inl fail
  · have hc : c.WellFormed := h.blocks c (by simp [split])
    rw [cut]
    exact .inr ⟨⟨c, by simp [split], rfl, by rw [hc.capacity]; omega⟩, granted_of_cut h split fit⟩

theorem allocate_wellFormed (h : m.WellFormed) (amount : Nat) :
    (m.allocate amount).2.WellFormed := by
  rcases allocate_spec h amount with ⟨-, same⟩ | ⟨-, granted⟩
  · rwa [same]
  · exact granted.wellFormed

end BlockMap

end Mykonos.Memory
