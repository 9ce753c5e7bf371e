import Mykonos.Memory.FreeSet

/-! # Reserving a range

`BlockMap::reserve` edits the table it is iterating over. A block that reaches
past the range on both sides is cleared and its two remainders are added behind
the others, which can start a second coalescing pass under the loop index. In
that case no other block comes near the range, so whichever entries the loop
still visits, or skips, it leaves as they are.
-/

namespace Mykonos.Memory

open Lib

namespace Block

/-- The block reaches past the range on both sides. -/
def Straddles (b r : Block) : Prop :=
  b.start < r.start ∧ b.start < r.stop ∧ r.start < b.stop ∧ r.stop < b.stop

instance (b r : Block) : Decidable (b.Straddles r) := inferInstanceAs (Decidable (_ ∧ _))

/-- The block ends before the range or starts after it. -/
def Clear (b r : Block) : Prop := r.stop ≤ b.start ∨ b.stop ≤ r.start

instance (b r : Block) : Decidable (b.Clear r) := inferInstanceAs (Decidable (_ ∨ _))

/-- What one iteration leaves of a block that does not straddle the range. -/
def trim (b r : Block) : Block :=
  if r.stop ≤ b.start then b
  else if b.stop ≤ r.start then b
  else if r.start ≤ b.start ∧ b.stop ≤ r.stop then empty
  else if r.start ≤ b.start then { b with start := r.stop }
  else { b with stop := r.start }

theorem trim_wellFormed {b : Block} (hb : b.WellFormed) (r : Block) : (b.trim r).WellFormed := by
  have := hb.ordered
  have := hb.bounded
  simp only [trim]
  split_ifs
  · exact hb
  · exact hb
  · exact empty_wellFormed
  · exact ⟨by simp only; omega, by simp only; omega⟩
  · exact ⟨by simp only; omega, by simp only; omega⟩

/-- For an ordered range, trimming removes exactly the range. -/
theorem mem_trim {b r : Block} (hr : r.start ≤ r.stop) (apart : ¬ b.Straddles r) (a : Nat) :
    a ∈ (b.trim r).range ↔ a ∈ b.range ∧ a ∉ r.range := by
  simp only [Straddles] at apart
  simp only [trim]
  split_ifs <;> simp only [mem_range, empty] <;> omega

/-- An empty or inverted range trims nothing. -/
theorem trim_inverted {b r : Block} (hr : r.stop ≤ r.start) (apart : ¬ b.Straddles r) :
    b.trim r = b := by
  simp only [Straddles] at apart
  simp only [trim]
  split_ifs with after before
  · rfl
  · rfl
  all_goals exact absurd ⟨by omega, by omega, by omega, by omega⟩ apart

/-- The addresses a block must hold to come near the range at all. -/
def core (r : Block) : Set Nat := Set.Ico r.start (max r.stop (r.start + 1))

theorem clear_of_core {b r : Block} (solid : b.Solid) (outside : ∀ a ∈ r.core, a ∉ b.range) :
    b.Clear r := by
  by_contra near
  simp only [Clear, not_or, not_le] at near
  have := solid.inhabited
  refine outside (max b.start r.start) ?_ ?_
  · simp only [core, Set.mem_Ico]
    omega
  · simp only [mem_range]
    omega

theorem Straddles.core_subset {b r : Block} (h : b.Straddles r) : r.core ⊆ b.range := by
  intro a member
  simp only [core, Set.mem_Ico] at member
  simp only [Straddles] at h
  simp only [mem_range]
  omega

end Block

namespace BlockMap

variable {m : BlockMap} {r : Block}

theorem disjoint_of_clear (clear : ∀ b ∈ m.blocks, b.Clear r) : Disjoint r.range m.free := by
  refine Set.disjoint_left.mpr fun a inside held => ?_
  obtain ⟨b, member, holds⟩ := held
  have := clear b member
  simp only [Block.Clear] at this
  simp only [Block.mem_range] at inside holds
  omega

/-! ## The loop -/

theorem reserveStep_clear {i : Nat} (clear : ∀ b, m.blocks[i]? = some b → b.Clear r) :
    reserveStep r i m = m := by
  simp only [reserveStep]
  split
  · rfl
  · rename_i b here
    rcases clear b here with after | before
    · simp only [after, if_true]
    · simp only [before, if_true, ite_self]

theorem reserveStep_trim {i : Nat} {b : Block} (here : m.blocks[i]? = some b)
    (apart : ¬ b.Straddles r) : reserveStep r i m = ⟨m.blocks.set i (b.trim r)⟩ := by
  have same : m = ⟨m.blocks.set i b⟩ := by
    obtain ⟨bound, rfl⟩ := List.getElem?_eq_some_iff.mp here
    rw [List.set_getElem_self bound]
  simp only [Block.Straddles] at apart
  simp only [reserveStep, here, Block.trim]
  split_ifs
  · exact same
  · exact same
  · rfl
  · rfl
  · rfl
  · exact absurd ⟨by omega, by omega, by omega, by omega⟩ apart

/-- Both remainders of a straddling block, added behind the cleared entry. -/
def splitAt (m : BlockMap) (i : Nat) (c r : Block) : BlockMap :=
  (addBlock ⟨m.blocks.set i Block.empty⟩ ⟨c.start, r.start⟩).addBlock ⟨r.stop, c.stop⟩

theorem reserveStep_split {i : Nat} {c : Block} (here : m.blocks[i]? = some c)
    (straddles : c.Straddles r) : reserveStep r i m = m.splitAt i c r := by
  simp only [Block.Straddles] at straddles
  simp only [reserveStep, here, splitAt]
  split_ifs <;> first | omega | rfl

theorem reserveLoop_clear (clear : ∀ b ∈ m.blocks, b.Clear r) (fuel i : Nat) :
    reserveLoop r fuel i m = m := by
  induction fuel generalizing i with
  | zero => rfl
  | succ fuel ih =>
      simp only [reserveLoop]
      split
      · rw [reserveStep_clear fun b here => clear b (List.mem_of_getElem? here), ih]
      · rfl

theorem reserveLoop_trim (fuel : Nat) (done left : List Block)
    (apart : ∀ b ∈ left, ¬ b.Straddles r) (enough : left.length ≤ fuel) :
    reserveLoop r fuel done.length ⟨done ++ left⟩ = ⟨done ++ left.map (Block.trim · r)⟩ := by
  induction fuel generalizing done left with
  | zero => simp [reserveLoop, List.length_eq_zero_iff.mp (Nat.le_zero.mp enough)]
  | succ fuel ih =>
      cases left with
      | nil => simp [reserveLoop, numBlocks]
      | cons b rest =>
          have here : (done ++ b :: rest)[done.length]? = some b := by simp
          have inside : done.length < (⟨done ++ b :: rest⟩ : BlockMap).numBlocks := by
            simp [numBlocks]
          have edited : (done ++ b :: rest).set done.length (b.trim r) =
              (done ++ [b.trim r]) ++ rest := by
            simp
          have next := ih (done ++ [b.trim r]) rest (fun c member => apart c (by simp [member]))
            (by simpa using enough)
          simp only [reserveLoop, inside, if_true,
            reserveStep_trim here (apart b (by simp)), edited]
          simpa using next

/-- Entries clear of the range are passed over on the way to a straddling one. -/
theorem reserveLoop_split (fuel : Nat) (done pre post : List Block) (c : Block)
    (clear : ∀ b ∈ pre, b.Clear r) (straddles : c.Straddles r) (enough : pre.length < fuel)
    (after : ∀ b ∈ (splitAt ⟨done ++ pre ++ c :: post⟩ (done ++ pre).length c r).blocks,
      b.Clear r) :
    reserveLoop r fuel done.length ⟨done ++ pre ++ c :: post⟩ =
      splitAt ⟨done ++ pre ++ c :: post⟩ (done ++ pre).length c r := by
  induction fuel generalizing done pre with
  | zero => simp at enough
  | succ fuel ih =>
      have inside : done.length < (⟨done ++ pre ++ c :: post⟩ : BlockMap).numBlocks := by
        simp [numBlocks]
      cases pre with
      | nil =>
          have here : (done ++ [] ++ c :: post)[done.length]? = some c := by simp
          simp only [reserveLoop, inside, if_true, reserveStep_split here straddles]
          simp only [List.append_nil] at after ⊢
          exact reserveLoop_clear after fuel _
      | cons b rest =>
          have here : ∀ d, (done ++ b :: rest ++ c :: post)[done.length]? = some d → d.Clear r := by
            intro d at_
            have same : d = b := by simpa [eq_comm] using at_
            exact same ▸ clear b (by simp)
          have shift : done ++ b :: rest = (done ++ [b]) ++ rest := by simp
          have next := ih (done ++ [b]) rest (fun d member => clear d (by simp [member]))
            (by simpa using enough) (by rw [← shift]; exact after)
          simp only [reserveLoop, inside, if_true, reserveStep_clear here]
          rw [shift]
          simpa using next

theorem set_tidy (h : m.Tidy) {b : Block} (hb : b.WellFormed) (i : Nat) :
    (⟨m.blocks.set i b⟩ : BlockMap).Tidy := by
  refine ⟨by simpa [numBlocks] using h.fits, fun c member => ?_⟩
  rcases List.mem_or_eq_of_mem_set member with member | rfl
  · exact h.blocks c member
  · exact hb

theorem reserveStep_tidy (h : m.Tidy) (r : Block) (i : Nat) : (reserveStep r i m).Tidy := by
  cases here : m.blocks[i]? with
  | none => simpa only [reserveStep, here] using h
  | some c =>
      have hc := h.blocks c (List.mem_of_getElem? here)
      by_cases straddles : c.Straddles r
      · obtain ⟨before, _, _, after⟩ := id straddles
        have := hc.bounded
        rw [reserveStep_split here straddles]
        exact addBlock_tidy (addBlock_tidy (set_tidy h Block.empty_wellFormed i)
          ⟨before.le, by simp only; omega⟩) ⟨after.le, hc.bounded⟩
      · rw [reserveStep_trim here straddles]
        exact set_tidy h (Block.trim_wellFormed hc r) i

theorem reserveLoop_tidy (h : m.Tidy) (r : Block) (fuel i : Nat) :
    (reserveLoop r fuel i m).Tidy := by
  induction fuel generalizing m i with
  | zero => exact h
  | succ fuel ih =>
      simp only [reserveLoop]
      split
      · exact ih (reserveStep_tidy h r i) (i + 1)
      · exact h

/-- The loop leaves through its own condition: more fuel changes nothing. -/
theorem reserveLoop_enough (h : m.Tidy) (r : Block) {fuel i : Nat}
    (enough : blockMapSize ≤ fuel + i) :
    reserveLoop r (fuel + 1) i m = reserveLoop r fuel i m := by
  induction fuel generalizing m i with
  | zero =>
      have out : ¬ i < m.numBlocks := by
        have := h.fits
        omega
      simp only [reserveLoop, out, if_false]
  | succ fuel ih =>
      by_cases inside : i < m.numBlocks
      · have next := ih (reserveStep_tidy h r i) (i := i + 1) (by omega)
        simp only [reserveLoop, inside, if_true] at next ⊢
        exact next
      · simp only [reserveLoop, inside, if_false]

/-- Any range at all leaves a tidy table. -/
theorem reserve_tidy (h : m.Tidy) (r : Block) : (m.reserve r).Tidy :=
  reserveLoop_tidy (merge_tidy h) r blockMapSize 0

/-! ## Without a straddling block -/

theorem trim_holders {l : List Block} (hr : r.start ≤ r.stop) (apart : ∀ b ∈ l, ¬ b.Straddles r)
    {a : Nat} (outside : a ∉ r.range) : holders (l.map (Block.trim · r)) a = holders l a := by
  induction l with
  | nil => rfl
  | cons b rest ih =>
      have tail := ih fun c member => apart c (by simp [member])
      have here : a ∈ (b.trim r).range ↔ a ∈ b.range := by
        simp [Block.mem_trim hr (apart b (by simp)), -Block.mem_range, outside]
      simp only [holders, List.map_cons, multiplicity_cons] at tail ⊢
      by_cases held : a ∈ b.range
      · rw [if_pos held, if_pos (here.mpr held), tail]
      · rw [if_neg held, if_neg (mt here.mp held), tail]

theorem trim_holders_inside {l : List Block} (hr : r.start ≤ r.stop)
    (apart : ∀ b ∈ l, ¬ b.Straddles r) {a : Nat} (inside : a ∈ r.range) :
    holders (l.map (Block.trim · r)) a = 0 := by
  rw [holders, multiplicity_eq_zero]
  rintro ⟨b, member, held⟩
  obtain ⟨c, listed, rfl⟩ := List.mem_map.mp member
  exact ((Block.mem_trim hr (apart c listed) a).mp held).2 inside

/-! ## With a straddling block -/

section Split

variable {pre post : List Block} {c : Block}

/-- No block of a well-formed table other than the straddling one is near the
    range. -/
theorem core_only (h : (⟨pre ++ c :: post⟩ : BlockMap).WellFormed) (straddles : c.Straddles r)
    {a : Nat} (ha : a ∈ r.core) : holders (pre ++ Block.empty :: post) a = 0 := by
  have single := h.single a
  have inside := straddles.core_subset ha
  simp only [holders, multiplicity_append, multiplicity_cons, inside, if_true] at single ⊢
  simp only [Block.mem_range, Block.empty]
  split_ifs <;> omega

theorem clear_of_holders {l : List Block} (outside : ∀ a ∈ r.core, holders l a = 0) {b : Block}
    (member : b ∈ l) (solid : b.Solid) : b.Clear r :=
  Block.clear_of_core solid fun a ha held =>
    (multiplicity_eq_zero Block.range).mp (outside a ha) ⟨b, member, held⟩

/-- The first remainder always finds the slot the cleared entry left. -/
theorem not_saturated_of_empty {l : List Block} (h : Block.empty ∈ l) :
    ¬ (⟨l⟩ : BlockMap).Saturated :=
  fun full => absurd (full.settled.solid _ h).inhabited (by simp [Block.empty])

/-- The table between the two additions: the remainders and the entries it was
    built from, with nothing near the range. -/
structure Halfway (pre post : List Block) (c r : Block) (half : BlockMap) : Prop where
  tidy : half.Tidy
  holders : ∀ a, holders half.blocks a = holders (⟨c.start, r.start⟩ :: (pre ++ post)) a
  clear : ∀ b ∈ half.blocks, b.Clear r
  apart : ∀ a ∈ r.core, BlockMap.holders half.blocks a = 0

theorem halfway (h : (⟨pre ++ c :: post⟩ : BlockMap).WellFormed)
    (solid : ∀ b ∈ pre ++ c :: post, b.Solid) (straddles : c.Straddles r) :
    Halfway pre post c r (addBlock ⟨pre ++ Block.empty :: post⟩ ⟨c.start, r.start⟩) := by
  obtain ⟨before, _, within, _⟩ := id straddles
  have hc := h.blocks c (by simp)
  have := hc.bounded
  have left : (⟨c.start, r.start⟩ : Block).Solid := ⟨before, by simp only; omega⟩
  have cleared : ∀ b ∈ pre ++ Block.empty :: post, b.Solid ∨ b = Block.empty := by
    intro b member
    simp only [List.mem_append, List.mem_cons] at member
    rcases member with member | rfl | member
    · exact .inl (solid b (by simp [member]))
    · exact .inr rfl
    · exact .inl (solid b (by simp [member]))
  have tidy : (⟨pre ++ Block.empty :: post⟩ : BlockMap).Tidy :=
    ⟨by simpa [numBlocks] using h.fits, fun b member =>
      (cleared b member).elim Block.Solid.wellFormed fun same => same ▸ Block.empty_wellFormed⟩
  have room := not_saturated_of_empty (l := pre ++ Block.empty :: post) (by simp)
  have outside : ∀ a ∈ r.core, BlockMap.holders (pre ++ Block.empty :: post) a = 0 :=
    fun a ha => core_only h straddles ha
  have total := addBlock_holders tidy room left.wellFormed
  refine ⟨addBlock_tidy tidy left.wellFormed, ?_, ?_, ?_⟩
  · intro a
    rw [total a]
    simp only [BlockMap.holders, multiplicity_cons, multiplicity_append,
      Block.mem_range, Block.empty]
    split_ifs <;> omega
  · obtain ⟨k, same, -, stored⟩ := addBlock_stored tidy room left
    rw [stored]
    intro b member
    rcases List.mem_append.mp member with member | member
    · rcases same with rfl | rfl
      · rcases cleared b member with whole | rfl
        · exact clear_of_holders outside member whole
        · exact .inr (Nat.zero_le _)
      · exact clear_of_holders (fun a ha => (merge_holders tidy.blocks a).trans (outside a ha))
          member
          (merge_solid tidy.blocks b member)
    · exact .inr (List.mem_singleton.mp member ▸ le_rfl)
  · intro a ha
    have := outside a ha
    rw [total a]
    simp only [Block.core, Set.mem_Ico] at ha
    simp only [BlockMap.holders, multiplicity_cons, Block.mem_range] at this ⊢
    split_ifs <;> omega

/-- The second remainder leaves every entry clear of the range too. -/
theorem Halfway.finish {half : BlockMap} (h : Halfway pre post c r half) (hc : c.WellFormed)
    (straddles : c.Straddles r) : ∀ b ∈ (half.addBlock ⟨r.stop, c.stop⟩).blocks, b.Clear r := by
  obtain ⟨_, _, _, after⟩ := id straddles
  have right : (⟨r.stop, c.stop⟩ : Block).Solid := ⟨after, hc.bounded⟩
  by_cases room : half.Saturated
  · rw [addBlock_saturated room]
    exact h.clear
  · obtain ⟨k, same, -, stored⟩ := addBlock_stored h.tidy room right
    rw [stored]
    intro b member
    rcases List.mem_append.mp member with member | member
    · rcases same with rfl | rfl
      · exact h.clear b member
      · exact clear_of_holders (fun a ha => (merge_holders h.tidy.blocks a).trans (h.apart a ha))
          member
          (merge_solid h.tidy.blocks b member)
    · exact .inl (List.mem_singleton.mp member ▸ le_rfl)

theorem merge_skips_empty (pre post : List Block) :
    mergeBlocks (pre ++ Block.empty :: post) = mergeBlocks (pre ++ post) := by
  have flat : ∀ merged, mergeOne merged Block.empty = merged := by
    intro merged
    simp [mergeOne, Block.capacity, Block.empty]
  simp only [mergeBlocks, List.foldl_append, List.foldl_cons, flat]

/-- Settled entries stay settled when a straddling block is replaced by its first
    remainder. -/
theorem settled_remainder (h : (⟨pre ++ c :: post⟩ : BlockMap).WellFormed)
    (settled : Settled (pre ++ c :: post)) (straddles : c.Straddles r) :
    Settled (pre ++ post ++ [⟨c.start, r.start⟩]) := by
  obtain ⟨before, _, within, _⟩ := id straddles
  have hc := settled.solid c (by simp)
  have := hc.bounded
  have order := List.pairwise_append.mp settled.apart
  have tail := List.pairwise_cons.mp order.2.1
  have meets := List.pairwise_append.mp h.disjoint
  have rest : ∀ d ∈ pre ++ post, d.Solid ∧ ¬ c.Touches d ∧ Disjoint d.range c.range := by
    intro d member
    refine ⟨settled.solid d (by simpa [or_left_comm] using Or.inr (List.mem_append.mp member)), ?_⟩
    rcases List.mem_append.mp member with member | member
    · exact ⟨order.2.2 d member c (by simp), meets.2.2 d member c (by simp)⟩
    · exact ⟨fun touch => tail.1 d member touch.symm,
        ((List.pairwise_cons.mp meets.2.1).1 d member).symm⟩
  refine ⟨?_, List.pairwise_append.mpr ⟨?_, by simp, ?_⟩⟩
  · intro d member
    rcases List.mem_append.mp member with member | member
    · exact (rest d member).1
    · rw [List.mem_singleton.mp member]
      exact ⟨before, by simp only; omega⟩
  · exact List.pairwise_append.mpr ⟨order.1, tail.2,
      fun d hd e he => order.2.2 d hd e (by simp [he])⟩
  · intro d member e last touch
    rw [List.mem_singleton.mp last] at touch
    obtain ⟨solid, apart, disjoint⟩ := rest d member
    have := solid.inhabited
    rcases touch with starts | ends
    · have first : d.start ∈ d.range := by
        simp only [Block.mem_range]
        omega
      refine Set.disjoint_left.mp disjoint first ?_
      simp only [Block.mem_range] at starts ⊢
      omega
    · exact apart (.inr ends)

theorem merged_below_full (h : m.WellFormed) (room : ¬ m.Saturated) :
    m.merge.numBlocks < blockMapSize := by
  have := merge_numBlocks_le m
  have := h.fits
  by_contra full
  exact room ⟨by omega, settled_of_merge h.blocks (by omega)⟩

theorem halfway_saturated (h : m.WellFormed) (split : m.merge.blocks = pre ++ c :: post)
    (straddles : c.Straddles r) :
    (addBlock ⟨pre ++ Block.empty :: post⟩ ⟨c.start, r.start⟩).Saturated ↔ m.Saturated := by
  obtain ⟨before, _, within, _⟩ := id straddles
  have hm := merge_wellFormed h
  have hc := hm.blocks c (by simp [split])
  have := hc.bounded
  have left : (⟨c.start, r.start⟩ : Block).Solid := ⟨before, by simp only; omega⟩
  have size := left.wellFormed.capacity_pos.mpr left
  have length : (⟨pre ++ Block.empty :: post⟩ : BlockMap).numBlocks = m.merge.numBlocks := by
    simp [numBlocks, split]
  constructor
  · intro full
    by_contra room
    have spare := merged_below_full h room
    rw [← length] at spare
    simp only [addBlock, size, spare, if_true] at full
    exact not_saturated_of_empty (by simp) full
  · intro full
    have same := merge_settled full.settled
    rw [same] at split length hm
    have settled :=
      settled_remainder (r := r) (by rw [← split]; exact hm) (split ▸ full.settled) straddles
    have kept : mergeBlocks (pre ++ post) = pre ++ post := by
      have inner : Settled (pre ++ post) :=
        ⟨fun d member => settled.solid d (List.mem_append_left _ member),
          (List.pairwise_append.mp settled.apart).1⟩
      exact congrArg BlockMap.blocks (merge_settled (m := ⟨pre ++ post⟩) inner)
    have entries : (pre ++ post).length + 1 = blockMapSize := by
      have := full.full
      simp only [numBlocks, split, List.length_append, List.length_cons] at this ⊢
      omega
    have filled : ¬ (⟨pre ++ Block.empty :: post⟩ : BlockMap).numBlocks < blockMapSize := by
      rw [length, full.full]
      exact Nat.lt_irrefl _
    have merged : (⟨pre ++ Block.empty :: post⟩ : BlockMap).merge = ⟨pre ++ post⟩ := by
      simp only [merge, merge_skips_empty, kept]
    have gained : (⟨pre ++ post⟩ : BlockMap).numBlocks < blockMapSize := by
      simp only [numBlocks]
      omega
    simp only [addBlock, size, filled, merged, gained, if_true, if_false]
    exact ⟨by simpa only [numBlocks, List.length_append, List.length_singleton] using entries,
      settled⟩

end Split

/-! ## The whole call -/

/-- Either every entry is trimmed, or one is split and the others stay. -/
theorem reserve_eq (h : m.WellFormed) (r : Block) :
    ((∀ b ∈ m.merge.blocks, ¬ b.Straddles r) ∧
      m.reserve r = ⟨m.merge.blocks.map (Block.trim · r)⟩) ∨
    ∃ pre c post, m.merge.blocks = pre ++ c :: post ∧ c.Straddles r ∧
      m.reserve r = (addBlock ⟨pre ++ Block.empty :: post⟩ ⟨c.start, r.start⟩).addBlock
        ⟨r.stop, c.stop⟩ := by
  have hm := merge_wellFormed h
  have fits := hm.fits
  have solid := merge_solid h.blocks
  by_cases apart : ∀ b ∈ m.merge.blocks, ¬ b.Straddles r
  · have loop := reserveLoop_trim blockMapSize [] m.merge.blocks apart fits
    exact .inl ⟨apart, by simpa [reserve] using loop⟩
  · push Not at apart
    obtain ⟨c, member, straddles⟩ := apart
    obtain ⟨pre, post, split⟩ := List.append_of_mem member
    have whole : m.merge = ⟨pre ++ c :: post⟩ := by rw [← split]
    rw [whole] at hm
    rw [split] at solid
    have final := (halfway hm solid straddles).finish (hm.blocks c (by simp)) straddles
    have cleared : (pre ++ c :: post).set pre.length Block.empty = pre ++ Block.empty :: post := by
      simp
    refine .inr ⟨pre, c, post, split, straddles, ?_⟩
    have clear : ∀ b ∈ pre, b.Clear r := fun b listed =>
      clear_of_holders (fun a ha => core_only hm straddles ha) (by simp [listed])
        (solid b (by simp [listed]))
    have loop := reserveLoop_split blockMapSize [] pre post c clear straddles
      (by simp only [numBlocks, split, List.length_append, List.length_cons] at fits; omega)
      (by simpa only [splitAt, List.nil_append, cleared] using final)
    simpa only [reserve, whole, splitAt, List.nil_append, List.length_nil, cleared] using loop

theorem reserve_cases (h : m.WellFormed) (r : Block) :
    ((∀ b ∈ m.merge.blocks, ¬ b.Straddles r) ∧
      m.reserve r = ⟨m.merge.blocks.map (Block.trim · r)⟩) ∨
    ∃ pre c post half, m.merge.blocks = pre ++ c :: post ∧ c.Straddles r ∧
      Halfway pre post c r half ∧ (half.Saturated ↔ m.Saturated) ∧
      m.reserve r = half.addBlock ⟨r.stop, c.stop⟩ := by
  have solid := merge_solid h.blocks
  rcases reserve_eq h r with trimmed | ⟨pre, c, post, split, straddles, same⟩
  · exact .inl trimmed
  · have whole : m.merge = ⟨pre ++ c :: post⟩ := by rw [← split]
    have half := halfway (whole ▸ merge_wellFormed h) (split ▸ solid) straddles
    exact .inr ⟨pre, c, post, _, split, straddles, half, halfway_saturated h split straddles, same⟩

/-- At most one entry is split, which takes two more slots. -/
theorem reserve_numBlocks_le (h : m.WellFormed) (r : Block) :
    (m.reserve r).numBlocks ≤ m.numBlocks + 2 := by
  have merged := merge_numBlocks_le m
  rcases reserve_eq h r with ⟨_, same⟩ | ⟨pre, c, post, split, _, same⟩
  · rw [same]
    simp only [numBlocks, List.length_map] at merged ⊢
    omega
  · have first := addBlock_numBlocks_le ⟨pre ++ Block.empty :: post⟩ ⟨c.start, r.start⟩
    have second :=
      addBlock_numBlocks_le (addBlock ⟨pre ++ Block.empty :: post⟩ ⟨c.start, r.start⟩)
        ⟨r.stop, c.stop⟩
    rw [same]
    simp only [numBlocks, split, List.length_append, List.length_cons] at first merged second ⊢
    omega

theorem merged_single (h : m.WellFormed) {pre post : List Block} {c : Block}
    (split : m.merge.blocks = pre ++ c :: post) (a : Nat) :
    holders m.blocks a = holders (c :: (pre ++ post)) a := by
  rw [← merge_holders h.blocks, split]
  simp only [holders, multiplicity_append, multiplicity_cons]
  omega

/-- For an ordered range, the addresses inside it end with no holder, and the
    others with the holders they had or, in a saturated table, none. -/
theorem reserve_holders (h : m.WellFormed) (hr : r.start ≤ r.stop) (a : Nat) :
    (a ∈ r.range → holders (m.reserve r).blocks a = 0) ∧
    holders (m.reserve r).blocks a ≤ holders m.blocks a := by
  rcases reserve_cases h r with ⟨apart, same⟩ |
    ⟨pre, c, post, half, split, straddles, between, -, same⟩
  · rw [same]
    refine ⟨trim_holders_inside hr apart, ?_⟩
    by_cases inside : a ∈ r.range
    · exact (trim_holders_inside hr apart inside).trans_le (Nat.zero_le _)
    · exact ((trim_holders hr apart inside).trans (merge_holders h.blocks a)).le
  · obtain ⟨_, _, _, after⟩ := id straddles
    have hc := (merge_wellFormed h).blocks c (by simp [split])
    have right : (⟨r.stop, c.stop⟩ : Block).WellFormed := ⟨after.le, hc.bounded⟩
    have bound : holders (half.addBlock ⟨r.stop, c.stop⟩).blocks a ≤
        holders (⟨r.stop, c.stop⟩ :: half.blocks) a := by
      by_cases room : half.Saturated
      · rw [addBlock_saturated room, holders, holders, multiplicity_cons]
        omega
      · exact (addBlock_holders between.tidy room right a).le
    have before := merged_single h split a
    have middle := between.holders a
    have single := h.single a
    rw [same]
    simp only [Block.Straddles] at straddles
    simp only [holders, multiplicity_cons, Block.mem_range] at before middle bound single ⊢
    constructor
    · intro inside
      split_ifs at before middle bound <;> omega
    · split_ifs at before middle bound <;> omega

theorem reserve_wellFormed (h : m.WellFormed) (hr : r.start ≤ r.stop) : (m.reserve r).WellFormed :=
  (reserve_tidy h.toTidy r).wellFormed fun a => (reserve_holders h hr a).2.trans (h.single a)

theorem reserve_free_subset (h : m.WellFormed) (hr : r.start ≤ r.stop) :
    (m.reserve r).free ⊆ m.free \ r.range := by
  intro a held
  obtain ⟨inside, bound⟩ := reserve_holders h hr a
  have pos := (multiplicity_pos Block.range).mpr held
  refine ⟨(multiplicity_pos Block.range).mp (pos.trans_le bound), fun within => ?_⟩
  exact pos.ne' (inside within)

/-- A full table with no slot to gain that holds a block straddling the range. -/
def Torn (m : BlockMap) (r : Block) : Prop := m.Saturated ∧ ∃ c ∈ m.blocks, c.Straddles r

/-- Both remainders are kept unless the table is torn, whatever the range. -/
theorem reserve_holders_kept (h : m.WellFormed) (whole : ¬ m.Torn r) {a : Nat}
    (outside : a ∉ r.range) :
    0 < holders (m.reserve r).blocks a ↔ 0 < holders m.blocks a := by
  rcases reserve_cases h r with ⟨apart, same⟩ |
    ⟨pre, c, post, half, split, straddles, between, full, same⟩
  · rw [same, ← merge_holders h.blocks a]
    rcases le_total r.start r.stop with ordered | inverted
    · rw [trim_holders ordered apart outside]
    · have fixed : m.merge.blocks.map (Block.trim · r) = m.merge.blocks :=
        (List.map_congr_left fun b member => Block.trim_inverted inverted (apart b member)).trans
          (List.map_id _)
      rw [fixed]
  · obtain ⟨_, _, _, after⟩ := id straddles
    have hc := (merge_wellFormed h).blocks c (by simp [split])
    have right : (⟨r.stop, c.stop⟩ : Block).WellFormed := ⟨after.le, hc.bounded⟩
    have room : ¬ half.Saturated := by
      intro stuck
      have saturated := full.mp stuck
      rw [merge_settled saturated.settled] at split
      exact whole ⟨saturated, c, by simp [split], straddles⟩
    have added := addBlock_holders between.tidy room right a
    have before := merged_single h split a
    have middle := between.holders a
    rw [same, added]
    simp only [Block.Straddles] at straddles
    simp only [Block.mem_range] at outside
    simp only [holders, multiplicity_cons, Block.mem_range] at before middle ⊢
    split_ifs at before middle ⊢ <;> omega

theorem reserve_free (h : m.WellFormed) (whole : ¬ m.Torn r) :
    (m.reserve r).free = m.free \ r.range := by
  ext a
  by_cases inside : a ∈ r.range
  · have ordered : r.start ≤ r.stop := by
      simp only [Block.mem_range] at inside
      omega
    refine iff_of_false (fun held => ?_) (fun held => held.2 inside)
    exact (reserve_free_subset h ordered held).2 inside
  · have kept := reserve_holders_kept h whole inside
    simp only [Set.mem_sdiff, inside, not_false_eq_true, and_true]
    exact (multiplicity_pos _).symm.trans (kept.trans (multiplicity_pos _))

/-- A torn table loses everything of the straddling block from the range on. -/
theorem reserve_torn (h : m.WellFormed) (saturated : m.Saturated) {c : Block}
    (member : c ∈ m.blocks) (straddles : c.Straddles r) :
    (m.reserve r).free = m.free \ Set.Ico r.start c.stop := by
  have kept := merge_settled saturated.settled
  rcases reserve_cases h r with ⟨apart, -⟩ | ⟨pre, d, post, half, split, near, between, full, same⟩
  · rw [kept] at apart
    exact absurd straddles (apart c member)
  · rw [addBlock_saturated (full.mpr saturated)] at same
    have twin : d = c := by
      by_contra other
      rw [kept] at split
      have outside := core_only (r := r) (by rw [← split]; exact h) near (a := r.start)
        (by simp [Block.core])
      refine (multiplicity_eq_zero Block.range).mp outside ⟨c, ?_, ?_⟩
      · rw [split] at member
        simp only [List.mem_append, List.mem_cons] at member ⊢
        rcases member with member | rfl | member
        · exact .inl member
        · exact absurd rfl other
        · exact .inr (.inr member)
      · simp only [Block.Straddles] at straddles
        simp only [Block.mem_range]
        omega
    subst twin
    ext a
    have before := merged_single h split a
    have middle := between.holders a
    have single := h.single a
    rw [same, Set.mem_sdiff, Set.mem_Ico, free, free, ← multiplicity_pos, ← multiplicity_pos]
    simp only [Block.Straddles] at near
    simp only [holders, multiplicity_cons, Block.mem_range] at before middle single ⊢
    split_ifs at before middle <;> constructor <;> omega

end BlockMap

end Mykonos.Memory
