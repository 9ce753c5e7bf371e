import Mykonos.Memory.Capacity

/-! # What one coalescing pass leaves

`merge` joins each block to the first one already placed that touches it, and to no
other. A block that closes the gap between two placed ones leaves a seam, and a seam
stays to the end of the pass.
-/

namespace Mykonos.Memory

open Lib

namespace BlockMap

/-! ## Seams -/

/-- A block of the list ends where a block of the list starts. -/
def Seam (l : List Block) (a : Nat) : Prop := (∃ c ∈ l, c.stop = a) ∧ ∃ d ∈ l, d.start = a

theorem settled_iff_no_seam {l : List Block} (solid : ∀ b ∈ l, b.Solid) :
    Settled l ↔ ∀ a, ¬ Seam l a := by
  constructor
  · rintro settled a ⟨⟨c, hc, stops⟩, d, hd, starts⟩
    have := (solid c hc).inhabited
    have different : c ≠ d := by
      rintro rfl
      omega
    exact settled.not_touching hc hd different (.inl (starts.trans stops.symm))
  · intro seamless
    refine ⟨solid, List.pairwise_of_forall_mem_list fun b hb c hc touches => ?_⟩
    rcases touches with after | before
    · exact seamless _ ⟨⟨c, hc, rfl⟩, b, hb, after⟩
    · exact seamless _ ⟨⟨b, hb, rfl⟩, c, hc, before.symm⟩

section Absorb

variable {b : Block} {l : List Block}

theorem absorb_stops {a : Nat} (other : a ≠ b.start) (stops : ∃ c ∈ l, c.stop = a) :
    ∃ c ∈ absorb b l, c.stop = a := by
  induction l with
  | nil => simp at stops
  | cons c rest ih =>
      rw [List.exists_mem_cons_iff] at stops
      simp only [absorb]
      split_ifs with after before <;> rw [List.exists_mem_cons_iff]
      · exact stops
      · exact stops.imp (fun here => absurd (here.symm.trans before) other) id
      · exact stops.imp_right ih

theorem absorb_starts {a : Nat} (other : a ≠ b.stop) (starts : ∃ c ∈ l, c.start = a) :
    ∃ c ∈ absorb b l, c.start = a := by
  induction l with
  | nil => simp at starts
  | cons c rest ih =>
      rw [List.exists_mem_cons_iff] at starts
      simp only [absorb]
      split_ifs with after before <;> rw [List.exists_mem_cons_iff]
      · exact starts.imp (fun here => absurd (here.symm.trans after) other) id
      · exact starts
      · exact starts.imp_right ih

/-- A block between two placed ones is joined to one of them and then touches the other. -/
theorem absorb_between (solid : b.Solid) (all : ∀ c ∈ l, c.Solid) (left : ∃ c ∈ l, c.stop = b.start)
    (right : ∃ d ∈ l, d.start = b.stop) : ∃ a, Seam (absorb b l) a := by
  induction l with
  | nil => simp at left
  | cons c rest ih =>
      rw [List.forall_mem_cons] at all
      rw [List.exists_mem_cons_iff] at left right
      have := solid.inhabited
      have := all.1.inhabited
      simp only [absorb]
      split_ifs with after before
      · obtain ⟨d, hd, stops⟩ := left.resolve_left (by omega)
        exact ⟨b.start, ⟨d, List.mem_cons_of_mem _ hd, stops⟩, _, List.mem_cons_self, rfl⟩
      · obtain ⟨d, hd, starts⟩ := right.resolve_left (by omega)
        exact ⟨b.stop, ⟨_, List.mem_cons_self, rfl⟩, d, List.mem_cons_of_mem _ hd, starts⟩
      · obtain ⟨a, ⟨d, hd, stops⟩, e, he, starts⟩ :=
          ih all.2 (left.resolve_left before) (right.resolve_left after)
        exact ⟨a, ⟨d, List.mem_cons_of_mem _ hd, stops⟩, e, List.mem_cons_of_mem _ he, starts⟩

/-- A block of the result starts and ends where placed blocks or the new one do. -/
theorem absorb_ends_of_mem {e : Block} (member : e ∈ absorb b l) :
    (e.start = b.start ∨ ∃ c ∈ l, c.start = e.start) ∧
    (e.stop = b.stop ∨ ∃ c ∈ l, c.stop = e.stop) := by
  induction l with
  | nil =>
      obtain rfl : e = b := by simpa [absorb] using member
      exact ⟨.inl rfl, .inl rfl⟩
  | cons c rest ih =>
      rw [List.exists_mem_cons_iff, List.exists_mem_cons_iff]
      simp only [absorb] at member
      split_ifs at member <;> rcases List.mem_cons.mp member with rfl | later
      · exact ⟨.inl rfl, .inr (.inl rfl)⟩
      · exact ⟨.inr (.inr ⟨e, later, rfl⟩), .inr (.inr ⟨e, later, rfl⟩)⟩
      · exact ⟨.inr (.inl rfl), .inl rfl⟩
      · exact ⟨.inr (.inr ⟨e, later, rfl⟩), .inr (.inr ⟨e, later, rfl⟩)⟩
      · exact ⟨.inr (.inl rfl), .inr (.inl rfl)⟩
      · exact (ih later).imp (.imp_right .inr) (.imp_right .inr)

/-- A block with at most one neighbour leaves no seam. -/
theorem absorb_beside (solid : b.Solid) (settled : Settled l)
    (single : ¬ ((∃ c ∈ l, c.stop = b.start) ∧ ∃ d ∈ l, d.start = b.stop)) :
    Settled (absorb b l) := by
  refine ⟨absorb_solid solid settled.solid, ?_⟩
  induction l with
  | nil => exact List.pairwise_singleton _ _
  | cons c rest ih =>
      obtain ⟨beside, apart⟩ := List.pairwise_cons.mp settled.apart
      rw [List.exists_mem_cons_iff, List.exists_mem_cons_iff] at single
      simp only [absorb]
      split_ifs with after before <;> rw [List.pairwise_cons]
      · refine ⟨fun e he touches => ?_, apart⟩
        rcases touches with starts | stops
        · exact single ⟨.inr ⟨e, he, starts.symm⟩, .inl after⟩
        · exact beside e he (.inr stops)
      · refine ⟨fun e he touches => ?_, apart⟩
        rcases touches with starts | stops
        · exact beside e he (.inl starts)
        · exact single ⟨.inl before, .inr ⟨e, he, stops.symm⟩⟩
      · refine ⟨fun e he touches => ?_,
          ih ⟨fun d hd => settled.solid d (List.mem_cons_of_mem _ hd), apart⟩
          fun both => single ⟨.inr both.1, .inr both.2⟩⟩
        obtain ⟨starts, stops⟩ := absorb_ends_of_mem he
        rcases touches with first | second
        · rcases stops with new | ⟨d, hd, old⟩
          · exact after (first.trans new)
          · exact beside d hd (.inl (first.trans old.symm))
        · rcases starts with new | ⟨d, hd, old⟩
          · exact before (second.trans new)
          · exact beside d hd (.inr (second.trans old.symm))

end Absorb

/-- A seam stays: the blocks on both sides of it leave no room for another one. -/
theorem Seam.absorb {b : Block} {l : List Block} {a : Nat} (seam : Seam l a) (solid : b.Solid)
    (all : ∀ c ∈ l, c.Solid) (apart : ∀ a ∈ b.range, a ∉ covered Block.range l) :
    Seam (absorb b l) a := by
  obtain ⟨⟨c, hc, stops⟩, d, hd, starts⟩ := seam
  have := solid.inhabited
  have := (all c hc).inhabited
  have := (all d hd).inhabited
  refine ⟨absorb_stops ?_ ⟨c, hc, stops⟩, absorb_starts ?_ ⟨d, hd, starts⟩⟩
  · rintro rfl
    exact apart b.start (by rw [Block.mem_range]; omega) ⟨d, hd, by rw [Block.mem_range]; omega⟩
  · rintro rfl
    exact apart (b.stop - 1) (by rw [Block.mem_range]; omega) ⟨c, hc,
      by rw [Block.mem_range]; omega⟩

/-! ## Neighbours -/

section Neighbours

variable {b : Block} {l : List Block}

/-- Whether a block ends where another starts can be told from the free addresses. -/
theorem exists_stop_iff (solid : b.Solid) (wellFormed : ∀ c ∈ l, c.WellFormed)
    (apart : ∀ a ∈ b.range, a ∉ covered Block.range l) :
    (∃ c ∈ l, c.Solid ∧ c.stop = b.start) ↔ ∃ a ∈ covered Block.range l, a + 1 = b.start := by
  constructor
  · rintro ⟨c, hc, inhabited, stops⟩
    have := inhabited.inhabited
    exact ⟨c.stop - 1, ⟨c, hc, by rw [Block.mem_range]; omega⟩, by omega⟩
  · rintro ⟨a, ⟨c, hc, inside⟩, next⟩
    have outside := apart b.start (by rw [Block.mem_range]; exact ⟨le_rfl, solid.inhabited⟩)
    rw [Block.mem_range] at inside
    refine ⟨c, hc, ⟨by omega, (wellFormed c hc).bounded⟩, ?_⟩
    by_contra past
    exact outside ⟨c, hc, by rw [Block.mem_range]; omega⟩

theorem exists_start_iff (solid : b.Solid) (wellFormed : ∀ c ∈ l, c.WellFormed)
    (apart : ∀ a ∈ b.range, a ∉ covered Block.range l) :
    (∃ c ∈ l, c.Solid ∧ c.start = b.stop) ↔ b.stop ∈ covered Block.range l := by
  constructor
  · rintro ⟨c, hc, inhabited, starts⟩
    have := inhabited.inhabited
    exact ⟨c, hc, by rw [Block.mem_range]; omega⟩
  · rintro ⟨c, hc, inside⟩
    have := solid.inhabited
    have outside := apart (b.stop - 1) (by rw [Block.mem_range]; omega)
    rw [Block.mem_range] at inside
    refine ⟨c, hc, ⟨by omega, (wellFormed c hc).bounded⟩, ?_⟩
    by_contra past
    exact outside ⟨c, hc, by rw [Block.mem_range]; omega⟩

end Neighbours

/-! ## The whole pass -/

/-- A block stands behind one that ends at its start and one that starts at its end. -/
def Bridged (l : List Block) : Prop :=
  ∃ pre b post, l = pre ++ b :: post ∧ b.Solid ∧ (∃ c ∈ pre, c.Solid ∧ c.stop = b.start) ∧
    ∃ d ∈ pre, d.Solid ∧ d.start = b.stop

theorem not_bridged_nil : ¬ Bridged [] := by
  rintro ⟨pre, b, post, split, -⟩
  exact List.cons_ne_nil b post (List.append_eq_nil_iff.mp split.symm).2

theorem bridged_append_singleton (l : List Block) (b : Block) :
    Bridged (l ++ [b]) ↔ Bridged l ∨ b.Solid ∧ (∃ c ∈ l, c.Solid ∧ c.stop = b.start) ∧
      ∃ d ∈ l, d.Solid ∧ d.start = b.stop := by
  constructor
  · rintro ⟨pre, c, post, split, bridging⟩
    rcases List.eq_nil_or_concat post with rfl | ⟨rest, d, rfl⟩
    · obtain ⟨rfl, last⟩ := List.append_inj' split rfl
      obtain rfl : b = c := by simpa using last
      exact .inr bridging
    · rw [List.concat_eq_append, ← List.cons_append, ← List.append_assoc] at split
      exact .inl ⟨pre, c, rest, (List.append_inj' split rfl).1, bridging⟩
  · rintro (⟨pre, c, post, rfl, bridging⟩ | bridging)
    · exact ⟨pre, c, post ++ [b], List.append_assoc _ _ _, bridging⟩
    · exact ⟨l, b, [], rfl, bridging⟩

theorem mergeBlocks_append_singleton (l : List Block) (b : Block) :
    mergeBlocks (l ++ [b]) = mergeOne (mergeBlocks l) b := by
  rw [mergeBlocks, mergeBlocks, List.foldl_append, List.foldl_cons]
  exact List.foldl_nil

/-- The seams of a pass come from blocks that stand behind both their neighbours. -/
theorem mergeBlocks_settled_iff {l : List Block} (wellFormed : ∀ b ∈ l, b.WellFormed)
    (disjoint : l.Pairwise fun b c => Disjoint b.range c.range) :
    Settled (mergeBlocks l) ↔ ¬ Bridged l := by
  induction l using List.reverseRecOn with
  | nil => exact iff_of_true ⟨by simp [mergeBlocks], .nil⟩ not_bridged_nil
  | append_singleton l b ih =>
      have before : ∀ c ∈ l, c.WellFormed := fun c hc => wellFormed c (List.mem_append_left _ hc)
      have hb := wellFormed b (by simp)
      obtain ⟨earlier, -, beside⟩ := List.pairwise_append.mp disjoint
      have all : ∀ c ∈ mergeBlocks l, c.Solid := merge_solid (m := ⟨l⟩) before
      have same : covered Block.range (mergeBlocks l) = covered Block.range l :=
        merge_free (m := ⟨l⟩) before
      specialize ih before earlier
      rw [mergeBlocks_append_singleton, bridged_append_singleton, mergeOne]
      split_ifs with flat
      · have hollow : ¬ b.Solid := hb.capacity_eq_zero.mp flat
        rw [ih, or_iff_left fun bridging => hollow bridging.1]
      · have solid : b.Solid := hb.capacity_pos.mp (Nat.pos_of_ne_zero flat)
        have apart : ∀ a ∈ b.range, a ∉ covered Block.range l := by
          rintro a inside ⟨c, hc, there⟩
          exact Set.disjoint_left.mp (beside c hc b (List.mem_singleton_self b)) there inside
        have left : (∃ c ∈ mergeBlocks l, c.stop = b.start) ↔
            ∃ c ∈ l, c.Solid ∧ c.stop = b.start := by
          rw [exists_stop_iff solid before apart, ← same, ← exists_stop_iff solid
            (fun c hc => (all c hc).wellFormed) (by rwa [same])]
          exact exists_congr fun c => and_congr_right fun hc => (and_iff_right (all c hc)).symm
        have right : (∃ c ∈ mergeBlocks l, c.start = b.stop) ↔
            ∃ c ∈ l, c.Solid ∧ c.start = b.stop := by
          rw [exists_start_iff solid before apart, ← same, ← exists_start_iff solid
            (fun c hc => (all c hc).wellFormed) (by rwa [same])]
          exact exists_congr fun c => and_congr_right fun hc => (and_iff_right (all c hc)).symm
        rw [← same] at apart
        rw [← left, ← right, not_or, ← ih, not_and]
        constructor
        · intro settled
          have seamless := (settled_iff_no_seam settled.solid).mp settled
          refine ⟨(settled_iff_no_seam all).mpr fun a seam => ?_, fun _ both => ?_⟩
          · exact seamless a (seam.absorb solid all apart)
          · obtain ⟨a, seam⟩ := absorb_between solid all both.1 both.2
            exact seamless a seam
        · rintro ⟨settled, single⟩
          exact absorb_beside solid settled (single solid)

/-- The table holds the same addresses in blocks none of which is empty or touches
    another, so that each is a run of free addresses from end to end. -/
structure Canonical (m n : BlockMap) : Prop where
  free : n.free = m.free
  settled : Settled n.blocks
  runs : ∀ b ∈ n.blocks, (∀ a, a + 1 = b.start → a ∉ n.free) ∧ b.range ⊆ n.free ∧ b.stop ∉ n.free

theorem Canonical.of_settled {m n : BlockMap} (free : n.free = m.free) (wellFormed : n.WellFormed)
    (settled : Settled n.blocks) : Canonical m n := by
  refine ⟨free, settled, fun b hb =>
    ⟨fun a next => before_start_not_free wellFormed settled hb next,
      fun a inside => ⟨b, hb, inside⟩, ?_⟩⟩
  rintro ⟨c, hc, inside⟩
  have := (settled.solid b hb).inhabited
  rw [Block.mem_range] at inside
  by_cases next : c.start = b.stop
  · have different : b ≠ c := by
      rintro rfl
      omega
    exact settled.not_touching hb hc different (.inl next)
  · have same : b = c := wellFormed.same_holder hb hc (a := b.stop - 1)
      (by rw [Block.mem_range]; omega) (by rw [Block.mem_range]; omega)
    subst same
    omega

/-- `merge` keeps the free addresses and drops empty blocks; it leaves a canonical table
    exactly when no block stands behind both its neighbours. -/
theorem merge_canonical_iff {m : BlockMap} (h : m.WellFormed) :
    Canonical m m.merge ↔ ¬ Bridged m.blocks := by
  rw [← mergeBlocks_settled_iff h.blocks h.disjoint]
  exact ⟨fun canonical => canonical.settled, .of_settled (merge_free h.blocks) (merge_wellFormed h)⟩

/-- Three blocks in a row, in the order of their addresses. -/
def ordered : BlockMap := ⟨[⟨0, 10⟩, ⟨10, 20⟩, ⟨20, 30⟩]⟩

/-- The middle one comes last. -/
def bridgedLast : BlockMap := ⟨[⟨0, 10⟩, ⟨20, 30⟩, ⟨10, 20⟩]⟩

theorem disjoint_of_stop_le {b c : Block} (below : b.stop ≤ c.start) :
    Disjoint b.range c.range := by
  rw [Set.disjoint_left]
  intro a inside there
  rw [Block.mem_range] at inside there
  omega

theorem ordered_wellFormed : ordered.WellFormed := by
  refine ⟨⟨by decide, by decide⟩, List.pairwise_cons.mpr ⟨?_, List.pairwise_pair.mpr ?_⟩⟩
  · rw [List.forall_mem_cons, List.forall_mem_singleton]
    exact ⟨disjoint_of_stop_le (by decide), disjoint_of_stop_le (by decide)⟩
  · exact disjoint_of_stop_le (by decide)

theorem bridgedLast_wellFormed : bridgedLast.WellFormed := by
  refine ⟨⟨by decide, by decide⟩, List.pairwise_cons.mpr ⟨?_, List.pairwise_pair.mpr ?_⟩⟩
  · rw [List.forall_mem_cons, List.forall_mem_singleton]
    exact ⟨disjoint_of_stop_le (by decide), disjoint_of_stop_le (by decide)⟩
  · exact (disjoint_of_stop_le (by decide)).symm

theorem ordered_not_bridged : ¬ Bridged ordered.blocks := by
  have split : ordered.blocks = [] ++ [⟨0, 10⟩] ++ [⟨10, 20⟩] ++ [⟨20, 30⟩] := rfl
  rw [split, bridged_append_singleton, bridged_append_singleton, bridged_append_singleton]
  rintro (((empty | ⟨-, ⟨c, hc, -⟩, -⟩) | ⟨-, -, d, hd, -, starts⟩) | ⟨-, -, d, hd, -, starts⟩)
  · exact not_bridged_nil empty
  · cases hc
  · obtain rfl : d = ⟨0, 10⟩ := by simpa using hd
    exact absurd starts (by decide)
  · have listed : d = ⟨0, 10⟩ ∨ d = ⟨10, 20⟩ := by simpa using hd
    rcases listed with rfl | rfl <;> exact absurd starts (by decide)

/-- The blocks in order become one. -/
theorem ordered_canonical : Canonical ordered ordered.merge :=
  (merge_canonical_iff ordered_wellFormed).mpr ordered_not_bridged

/-- With the middle block at the end two blocks are left, and they touch. -/
theorem bridgedLast_not_canonical : ¬ ∀ m : BlockMap, m.WellFormed → Canonical m m.merge := by
  intro always
  have settled := (always bridgedLast bridgedLast_wellFormed).settled
  have left : bridgedLast.merge = ⟨[⟨0, 20⟩, ⟨20, 30⟩]⟩ := by decide
  rw [left] at settled
  exact settled.not_touching (b := ⟨0, 20⟩) (c := ⟨20, 30⟩) (by decide) (by decide)
    (by decide) (by decide)

end BlockMap

end Mykonos.Memory
