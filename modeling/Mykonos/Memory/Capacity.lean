import Mykonos.Memory.BlockMapRuns

/-! # What a full or fragmented table does to free memory

A coalescing pass joins each block to one neighbour at most and never looks at
the block that is being added. So a full table whose blocks do not touch drops a
returned range even when that range closes a gap, and an allocation that only a
joined block could serve fails. Both are settled here exactly, as conditions on
the table before the call.
-/

namespace Mykonos.Memory

open Lib

namespace BlockMap

variable {m : BlockMap}

/-! ## Run starts of a table -/

/-- Each maximal free run starts where a block starts. -/
theorem start_of_runStart {l : List Block} {a : Nat} (h : a ∈ runStarts (covered Block.range l)) :
    ∃ b ∈ l, a = b.start ∧ b.start < b.stop := by
  obtain ⟨⟨b, member, inside⟩, first⟩ := h
  simp only [Block.mem_range] at inside
  by_cases edge : a = b.start
  · exact ⟨b, member, edge, by omega⟩
  · refine absurd ⟨b, member, ?_⟩ (first (a - 1) (by omega))
    simp only [Block.mem_range]
    omega

theorem WellFormed.same_holder (h : m.WellFormed) {b c : Block} (hb : b ∈ m.blocks)
    (hc : c ∈ m.blocks) {a : Nat} (first : a ∈ b.range) (second : a ∈ c.range) : b = c := by
  have symmetric : Std.Symm fun b c : Block => Disjoint b.range c.range :=
    ⟨fun _ _ apart => apart.symm⟩
  by_contra different
  exact Set.disjoint_left.mp (h.disjoint.forall hb hc different) first second

theorem Settled.not_touching {l : List Block} (h : Settled l) {b c : Block}
    (hb : b ∈ l) (hc : c ∈ l) (different : b ≠ c) : ¬ b.Touches c := by
  have symmetric : Std.Symm fun b c : Block => ¬ c.Touches b :=
    ⟨fun _ _ apart touch => apart touch.symm⟩
  exact fun touch => h.apart.forall hb hc different touch.symm

theorem WellFormed.starts_nodup (h : m.WellFormed) (solid : ∀ b ∈ m.blocks, b.Solid) :
    (m.blocks.map Block.start).Nodup := by
  rw [List.nodup_iff_pairwise_ne, List.pairwise_map]
  refine h.disjoint.imp_of_mem fun {b c} hb hc apart same => ?_
  have := (solid b hb).inhabited
  have := (solid c hc).inhabited
  refine Set.disjoint_left.mp apart (show b.start ∈ b.range from ?_) ?_ <;>
    simp only [Block.mem_range] <;> omega

/-- In a settled table no free address comes right before a block. -/
theorem before_start_not_free {b : Block} (h : m.WellFormed) (settled : Settled m.blocks)
    (hb : b ∈ m.blocks) {a : Nat} (next : a + 1 = b.start) : a ∉ m.free := by
  rintro ⟨c, hc, inside⟩
  have solid := (settled.solid b hb).inhabited
  simp only [Block.mem_range] at inside
  by_cases past : c.stop = b.start
  · have different : b ≠ c := by
      rintro rfl
      omega
    exact settled.not_touching hb hc different (.inr past)
  · have same : b = c := h.same_holder hb hc (a := b.start)
      (by simp only [Block.mem_range]; omega) (by simp only [Block.mem_range]; omega)
    subst same
    omega

/-! ## Loss on a full table -/

/-- No free address is lost by a call whose result would fit the table if it were
    fully coalesced. -/
def Lossless (m : BlockMap) : Call → Prop
  | .addBlock b => RunsAtMost 256 (m.free ∪ b.range) → (m.addBlock b).free = m.free ∪ b.range
  | .returnMemory ptr amount =>
      RunsAtMost 256 (m.free ∪ Set.Ico ptr ((ptr + amount) % 2 ^ 64)) →
        (m.returnMemory ptr amount).free = m.free ∪ Set.Ico ptr ((ptr + amount) % 2 ^ 64)
  | .reserve r => RunsAtMost 256 (m.free \ r.range) → (m.reserve r).free = m.free \ r.range
  | .allocate _ | .clear => True

/-- The table is full of non-empty blocks that do not touch, and either the added
    range touches one of them or an empty or inverted reserved range lies
    strictly inside one. -/
def Overflows (m : BlockMap) : Call → Prop
  | .addBlock b => m.Saturated ∧ b.Solid ∧ ∃ c ∈ m.blocks, b.Touches c
  | .returnMemory ptr amount =>
      m.Saturated ∧ (⟨ptr, (ptr + amount) % 2 ^ 64⟩ : Block).Solid ∧
        ∃ c ∈ m.blocks, (⟨ptr, (ptr + amount) % 2 ^ 64⟩ : Block).Touches c
  | .reserve r => m.Saturated ∧ r.stop ≤ r.start ∧ ∃ c ∈ m.blocks, c.Straddles r
  | .allocate _ | .clear => False

/-- A range that touches a block of a saturated table closes at least as many
    runs as it opens. -/
theorem runs_of_touching {b c : Block} (full : m.Saturated) (solid : b.Solid) (hc : c ∈ m.blocks)
    (touch : b.Touches c) : RunsAtMost 256 (m.free ∪ b.range) := by
  have length : m.blocks.length = 256 := full.full
  have := solid.inhabited
  have := (full.settled.solid c hc).inhabited
  have starts : ∀ a ∈ runStarts (m.free ∪ b.range), ∃ d ∈ b :: m.blocks, a = d.start := by
    intro a member
    rw [Set.union_comm] at member
    obtain ⟨d, listed, edge, -⟩ :=
      start_of_runStart (l := b :: m.blocks) (by simpa [free] using member)
    exact ⟨d, listed, edge⟩
  rcases touch with after | before
  · refine .of_list (b.start :: (m.blocks.erase c).map Block.start) ?_ ?_
    · simp only [List.length_cons, List.length_map, List.length_erase_of_mem hc]
      omega
    · intro a member
      obtain ⟨d, listed, rfl⟩ := starts a member
      rcases List.mem_cons.mp listed with rfl | listed
      · exact List.mem_cons_self
      · have different : d ≠ c := by
          rintro rfl
          refine member.2 (b.stop - 1) (by omega) (.inr ?_)
          simp only [Block.mem_range]
          omega
        exact List.mem_cons_of_mem _
          (List.mem_map_of_mem ((List.mem_erase_of_ne different).mpr listed))
  · refine .of_list (m.blocks.map Block.start) (by simpa using length.le) ?_
    intro a member
    obtain ⟨d, listed, rfl⟩ := starts a member
    rcases List.mem_cons.mp listed with rfl | listed
    · refine absurd (.inl ⟨c, hc, ?_⟩) (member.2 (c.stop - 1) (by omega))
      simp only [Block.mem_range]
      omega
    · exact List.mem_map_of_mem listed

/-- A range apart from every block of a saturated table opens a 257th run. -/
theorem runs_of_apart {b : Block} (h : m.WellFormed) (full : m.Saturated) (solid : b.Solid)
    (disjoint : Disjoint b.range m.free) (apart : ∀ c ∈ m.blocks, ¬ b.Touches c) :
    ¬ RunsAtMost 256 (m.free ∪ b.range) := by
  intro runs
  have length : m.blocks.length = 256 := full.full
  have := solid.inhabited
  have first : b.start ∈ b.range := by
    simp only [Block.mem_range]
    omega
  have fresh : b.start ∉ m.blocks.map Block.start := by
    intro member
    obtain ⟨c, hc, same⟩ := List.mem_map.mp member
    refine Set.disjoint_left.mp disjoint first ⟨c, hc, ?_⟩
    have := (full.settled.solid c hc).inhabited
    simp only [Block.mem_range]
    omega
  have bound := runs.length_le (b.start :: m.blocks.map Block.start)
    (List.nodup_cons.mpr ⟨fresh, h.starts_nodup full.settled.solid⟩) ?_
  · simp only [List.length_cons, List.length_map] at bound
    omega
  · intro a member
    rcases List.mem_cons.mp member with rfl | member
    · refine ⟨.inr first, ?_⟩
      rintro a next (⟨c, hc, inside⟩ | inside)
      · simp only [Block.mem_range] at inside
        by_cases edge : c.stop = b.start
        · exact apart c hc (.inr edge)
        · refine Set.disjoint_left.mp disjoint first ⟨c, hc, ?_⟩
          simp only [Block.mem_range]
          omega
      · simp only [Block.mem_range] at inside
        omega
    · obtain ⟨c, hc, rfl⟩ := List.mem_map.mp member
      have := (full.settled.solid c hc).inhabited
      refine ⟨.inl ⟨c, hc, by simp only [Block.mem_range]; omega⟩, ?_⟩
      rintro a next (held | inside)
      · exact before_start_not_free h full.settled hc next held
      · simp only [Block.mem_range] at inside
        by_cases edge : b.stop = c.start
        · exact apart c hc (.inl edge.symm)
        · refine Set.disjoint_left.mp disjoint (show c.start ∈ b.range from ?_)
            ⟨c, hc, ?_⟩ <;> simp only [Block.mem_range] <;> omega

theorem addBlock_lossless_iff {b : Block} (h : m.WellFormed) (hb : b.WellFormed)
    (disjoint : Disjoint b.range m.free) :
    (RunsAtMost 256 (m.free ∪ b.range) → (m.addBlock b).free = m.free ∪ b.range) ↔
      ¬ (m.Saturated ∧ b.Solid ∧ ∃ c ∈ m.blocks, b.Touches c) := by
  constructor
  · rintro exact_ ⟨full, solid, c, hc, touch⟩
    have kept := exact_ (runs_of_touching full solid hc touch)
    rw [addBlock_saturated full] at kept
    have first : b.start ∈ b.range := ⟨le_rfl, solid.inhabited⟩
    exact Set.disjoint_left.mp disjoint first (kept.symm ▸ Set.mem_union_right _ first)
  · intro room runs
    by_cases full : m.Saturated
    · by_cases solid : b.Solid
      · refine absurd runs (runs_of_apart h full solid disjoint fun c hc touch => ?_)
        exact room ⟨full, solid, c, hc, touch⟩
      · rw [addBlock_flat hb solid, Block.range_eq_empty hb solid, Set.union_empty]
    · exact addBlock_free h.toTidy full hb

/-- Cutting a hole into a block of a saturated table opens a 257th run. -/
theorem runs_of_hole {c r : Block} (h : m.WellFormed) (full : m.Saturated) (hc : c ∈ m.blocks)
    (straddles : c.Straddles r) (hole : r.start < r.stop) :
    ¬ RunsAtMost 256 (m.free \ r.range) := by
  intro runs
  have length : m.blocks.length = 256 := full.full
  simp only [Block.Straddles] at straddles
  have fresh : r.stop ∉ m.blocks.map Block.start := by
    intro member
    obtain ⟨d, hd, same⟩ := List.mem_map.mp member
    have := (full.settled.solid d hd).inhabited
    have twin : d = c := h.same_holder hd hc (a := d.start)
      (by simp only [Block.mem_range]; omega) (by simp only [Block.mem_range]; omega)
    subst twin
    omega
  have bound := runs.length_le (r.stop :: m.blocks.map Block.start)
    (List.nodup_cons.mpr ⟨fresh, h.starts_nodup full.settled.solid⟩) ?_
  · simp only [List.length_cons, List.length_map] at bound
    omega
  · intro a member
    rcases List.mem_cons.mp member with rfl | member
    · refine ⟨⟨⟨c, hc, ?_⟩, ?_⟩, fun a next held => held.2 ?_⟩ <;>
        simp only [Block.mem_range] <;> omega
    · obtain ⟨d, hd, rfl⟩ := List.mem_map.mp member
      have := (full.settled.solid d hd).inhabited
      refine ⟨⟨⟨d, hd, by simp only [Block.mem_range]; omega⟩, fun inside => ?_⟩, ?_⟩
      · simp only [Block.mem_range] at inside
        have twin : d = c := h.same_holder hd hc (a := d.start)
          (by simp only [Block.mem_range]; omega) (by simp only [Block.mem_range]; omega)
        subst twin
        omega
      · exact fun a next held => before_start_not_free h full.settled hd next held.1

theorem runs_of_saturated (full : m.Saturated) : RunsAtMost 256 m.free := by
  refine .of_list (m.blocks.map Block.start) (by simpa using full.full.le) fun a member => ?_
  obtain ⟨d, listed, rfl, -⟩ := start_of_runStart member
  exact List.mem_map_of_mem listed

theorem reserve_lossless_iff (h : m.WellFormed) (r : Block) :
    (RunsAtMost 256 (m.free \ r.range) → (m.reserve r).free = m.free \ r.range) ↔
      ¬ (m.Saturated ∧ r.stop ≤ r.start ∧ ∃ c ∈ m.blocks, c.Straddles r) := by
  constructor
  · rintro kept ⟨full, inverted, c, hc, straddles⟩
    have nothing : r.range = ∅ := Set.Ico_eq_empty (by omega)
    rw [nothing, Set.sdiff_empty, reserve_torn h full hc straddles] at kept
    have lost := kept (runs_of_saturated full)
    simp only [Block.Straddles] at straddles
    have held : r.start ∈ m.free := ⟨c, hc, by simp only [Block.mem_range]; omega⟩
    rw [← lost] at held
    exact held.2 ⟨le_rfl, by omega⟩
  · intro safe runs
    refine reserve_free h ?_
    rintro ⟨full, c, hc, straddles⟩
    by_cases hole : r.start < r.stop
    · exact runs_of_hole h full hc straddles hole runs
    · exact safe ⟨full, by omega, c, hc, straddles⟩

/-- Free memory is lost by exactly the calls that overflow the table. -/
theorem lossless_iff_not_overflows {call : Call} (h : m.WellFormed)
    (admissible : call.Admissible m) :
    m.Lossless call ↔ ¬ m.Overflows call := by
  cases call with
  | addBlock b => exact addBlock_lossless_iff h admissible.1 admissible.2
  | returnMemory ptr amount =>
      exact addBlock_lossless_iff (b := ⟨ptr, (ptr + amount) % 2 ^ 64⟩) h admissible.1 admissible.2
  | reserve r => exact reserve_lossless_iff h r
  | allocate | clear => exact iff_of_true trivial id

/-- A table with room takes a range that touches its only block. -/
theorem lossless_with_room :
    (⟨[⟨0x1000, 0x2000⟩]⟩ : BlockMap).Lossless (.addBlock ⟨0x2000, 0x3000⟩) := by
  have wellFormed : (⟨[⟨0x1000, 0x2000⟩]⟩ : BlockMap).WellFormed :=
    ⟨⟨by decide, by decide⟩, List.pairwise_singleton _ _⟩
  refine (lossless_iff_not_overflows wellFormed (Call.admissible_of_acceptable (by decide))).mpr ?_
  exact fun overflow => absurd overflow.1.full (by decide)

/-- Disjoint non-empty blocks added to an empty map are stored as they come. -/
theorem run_adding {l : List Block} (solid : ∀ b ∈ l, b.Solid)
    (disjoint : l.Pairwise (fun b c => Disjoint b.range c.range)) (fits : l.length ≤ blockMapSize) :
    ∃ s, Run Audited.Step .initial (l.map .addBlock) s ∧ s.map = ⟨l⟩ := by
  induction l using List.reverseRecOn with
  | nil => exact ⟨_, .start _, rfl⟩
  | append_singleton l b ih =>
      obtain ⟨front, -, last⟩ := List.pairwise_append.mp disjoint
      simp only [List.length_append, List.length_singleton] at fits
      obtain ⟨s, run, same⟩ := ih (fun c member => solid c (by simp [member])) front (by omega)
      have hb := solid b (by simp)
      have apart : Disjoint b.range s.map.free := by
        rw [same]
        refine Set.disjoint_left.mpr ?_
        rintro a inside ⟨c, member, held⟩
        exact Set.disjoint_left.mp (last c member b (by simp)) held inside
      rw [List.map_append]
      refine ⟨_, .next run ⟨⟨hb.wellFormed, apart⟩, rfl⟩, ?_⟩
      have size := hb.wellFormed.capacity_pos.mpr hb
      have spare : l.length < blockMapSize := by omega
      simp only [Audited.after, Call.execute, same, addBlock, numBlocks, size, spare, if_true]

/-- The 256 one-byte blocks at the even addresses from two on. -/
def comb : List Block := (List.range 256).map fun i => ⟨2 * i + 2, 2 * i + 3⟩

theorem comb_saturated : (⟨comb⟩ : BlockMap).Saturated := by
  refine ⟨by simp [numBlocks, comb], fun b member => ?_, ?_⟩
  · obtain ⟨i, bound, rfl⟩ := List.mem_map.mp member
    have := List.mem_range.mp bound
    exact ⟨by simp only; omega, by simp only; omega⟩
  · refine List.pairwise_map.mpr (List.pairwise_lt_range.imp fun order touch => ?_)
    simp only [Block.Touches] at touch
    omega

theorem comb_disjoint : comb.Pairwise (fun b c => Disjoint b.range c.range) := by
  refine List.pairwise_map.mpr (List.pairwise_lt_range.imp fun order => ?_)
  refine Set.disjoint_left.mpr fun a first second => ?_
  simp only [Block.mem_range] at first second
  omega

/-- The comb is reachable, and the byte that joins its first two teeth is
    dropped. -/
theorem comb_loses_gap :
    ∃ calls s, Run Audited.Step .initial calls s ∧ s.map.WellFormed ∧
      Call.Admissible s.map (.addBlock ⟨3, 4⟩) ∧ ¬ s.map.Lossless (.addBlock ⟨3, 4⟩) := by
  obtain ⟨s, run, same⟩ := run_adding comb_saturated.settled.solid comb_disjoint (by simp [comb])
  have wellFormed : s.map.WellFormed := by
    rw [same]
    exact ⟨⟨comb_saturated.full.le,
      fun b member => (comb_saturated.settled.solid b member).wellFormed⟩,
      comb_disjoint⟩
  have gap : Disjoint (⟨3, 4⟩ : Block).range s.map.free := by
    rw [same]
    refine Set.disjoint_left.mpr ?_
    rintro a inside ⟨b, member, held⟩
    obtain ⟨i, -, rfl⟩ := List.mem_map.mp member
    simp only [Block.mem_range] at inside held
    omega
  refine ⟨_, s, run, wellFormed, ⟨by decide, gap⟩, fun lossless => ?_⟩
  refine (addBlock_lossless_iff wellFormed (by decide) gap).mp lossless ?_
  rw [same]
  refine ⟨comb_saturated, ⟨by decide, by decide⟩, ⟨2, 3⟩, ?_, .inr rfl⟩
  exact List.mem_map.mpr ⟨0, List.mem_range.mpr (by decide), rfl⟩

/-! ## Allocation on a fragmented table -/

/-- The free set holds `amount` consecutive addresses. -/
def HasRun (m : BlockMap) (amount : Nat) : Prop := ∃ a, Set.Ico a (a + amount) ⊆ m.free

/-- A request that the free set can meet gets a non-null range of free addresses. -/
def Serves (m : BlockMap) (amount : Nat) : Prop :=
  m.HasRun amount → (m.allocate amount).1 ≠ 0 ∧
    Set.Ico (m.allocate amount).1 ((m.allocate amount).1 + amount) ⊆ m.free

/-- The run is there, but every stored block is shorter. -/
def Fragmented (m : BlockMap) (amount : Nat) : Prop :=
  m.HasRun amount ∧ ∀ c ∈ m.blocks, c.stop - c.start < amount

/-- The first block that is long enough starts at address zero. -/
def ZeroFit (m : BlockMap) (amount : Nat) : Prop :=
  ∃ pre c post, m.blocks = pre ++ c :: post ∧ (∀ d ∈ pre, d.stop - d.start < amount) ∧
    amount ≤ c.stop - c.start ∧ c.start = 0

theorem serves_iff (h : m.Tidy) (amount : Nat) :
    m.Serves amount ↔ ¬ (m.Fragmented amount ∨ m.ZeroFit amount) := by
  constructor
  · rintro serves (⟨run, small⟩ | ⟨pre, c, post, split, small, large, zero⟩)
    · rcases allocate_cases h amount with ⟨-, same⟩ | ⟨pre, c, post, split, -, fit, -⟩
      · exact (serves run).1 (by rw [same])
      · have := small c (by simp [split])
        omega
    · have hc := h.blocks c (by simp [split])
      have capacity : ∀ d ∈ pre, d.capacity < amount := fun d member => by
        rw [(h.blocks d (by simp [split, member])).capacity]
        exact small d member
      have found : firstFit amount (pre ++ c :: post) =
          (c.start, pre ++ ⟨c.start + amount, c.stop⟩ :: post) :=
        firstFit_at hc capacity (by rw [hc.capacity]; exact large)
      have run : m.HasRun amount := by
        refine ⟨0, fun a member => ⟨c, by simp [split], ?_⟩⟩
        simp only [Set.mem_Ico] at member
        simp only [Block.mem_range]
        omega
      refine (serves run).1 ?_
      simp only [allocate, split, found, zero]
  · intro usable run
    rcases allocate_cases h amount with ⟨small, -⟩ | ⟨pre, c, post, split, small, fit, found⟩
    · refine absurd (.inl ⟨run, fun c member => ?_⟩) usable
      rw [← (h.blocks c member).capacity]
      exact small c member
    · rw [found]
      refine ⟨fun zero => usable (.inr ⟨pre, c, post, split, fun d member => ?_, by omega, zero⟩),
        ?_⟩
      · rw [← (h.blocks d (by simp [split, member])).capacity]
        exact small d member
      · intro a member
        simp only [Set.mem_Ico] at member
        exact ⟨c, by simp [split], by simp only [Block.mem_range]; omega⟩

/-- In every reachable map, a request the free set could meet fails exactly when
    it would need touching blocks joined or is served from address zero. -/
theorem reachable_serves_iff {s : Audited} {calls : List Call}
    (run : Run Audited.Step .initial calls s) (amount : Nat) :
    s.map.Serves amount ↔ ¬ (s.map.Fragmented amount ∨ s.map.ZeroFit amount) :=
  serves_iff (Audited.tidy_after_run run) amount

/-- A freshly added block serves a request for all of it. -/
theorem fresh_block_serves :
    (Audited.initial.replay [.addBlock ⟨0x1000, 0x3000⟩]).map.Serves 0x2000 := by
  have stored : (Audited.initial.replay [.addBlock ⟨0x1000, 0x3000⟩]).map.blocks =
      [⟨0x1000, 0x3000⟩] := by decide
  refine (reachable_serves_iff (Audited.run_replay (by decide)) 0x2000).mpr ?_
  rintro (⟨-, small⟩ | ⟨pre, c, post, split, -, -, zero⟩)
  · exact absurd (small ⟨0x1000, 0x3000⟩ (by simp [stored])) (by decide)
  · have member : c ∈ [(⟨0x1000, 0x3000⟩ : Block)] := by simp [← stored, split]
    simp only [List.mem_singleton] at member
    subst member
    simp at zero

/-- Half of a block is allocated and returned; the whole, free again, can no
    longer be allocated. -/
theorem returned_half_not_served :
    ∃ calls s, Run Audited.Step .initial calls s ∧ s.map.HasRun 0x2000 ∧ ¬ s.map.Serves 0x2000 := by
  refine ⟨[.addBlock ⟨0x1000, 0x3000⟩, .allocate 0x1000, .returnMemory 0x1000 0x1000], _,
    Audited.run_replay (by decide), ?_⟩
  have stored : (Audited.initial.replay [.addBlock ⟨0x1000, 0x3000⟩, .allocate 0x1000,
      .returnMemory 0x1000 0x1000]).map = ⟨[⟨0x2000, 0x3000⟩, ⟨0x1000, 0x2000⟩]⟩ := by decide
  rw [stored]
  have run : HasRun ⟨[⟨0x2000, 0x3000⟩, ⟨0x1000, 0x2000⟩]⟩ 0x2000 := by
    refine ⟨0x1000, fun a member => ?_⟩
    simp only [Set.mem_Ico] at member
    simp only [mem_free, List.mem_cons, List.not_mem_nil, or_false, exists_eq_or_imp,
      exists_eq_left]
    omega
  exact ⟨run, fun serves => (serves run).1 (by decide)⟩

/-- A run that no single block holds crosses two touching blocks. -/
theorem Fragmented.touching (h : m.WellFormed) {amount : Nat} (fragmented : m.Fragmented amount)
    (positive : 0 < amount) : ∃ b ∈ m.blocks, ∃ c ∈ m.blocks, b ≠ c ∧ b.Touches c := by
  obtain ⟨⟨a, run⟩, small⟩ := fragmented
  obtain ⟨b, hb, inside⟩ := run (show a ∈ _ from ⟨le_rfl, by omega⟩)
  have short := small b hb
  simp only [Block.mem_range] at inside
  obtain ⟨c, hc, beyond⟩ := run (show b.stop ∈ _ from ⟨by omega, by omega⟩)
  simp only [Block.mem_range] at beyond
  have different : b ≠ c := by
    rintro rfl
    omega
  refine ⟨b, hb, c, hc, different, .inl ?_⟩
  by_contra gap
  exact different (h.same_holder hb hc (a := b.stop - 1)
    (by simp only [Block.mem_range]; omega) (by simp only [Block.mem_range]; omega))

/-- When no two blocks touch and none starts at zero, every positive request the
    free set can meet is served. -/
theorem serves_of_apart (h : m.WellFormed)
    (apart : ∀ b ∈ m.blocks, ∀ c ∈ m.blocks, b ≠ c → ¬ b.Touches c)
    (nonzero : ∀ b ∈ m.blocks, b.start ≠ 0) {amount : Nat} (positive : 0 < amount) :
    m.Serves amount := by
  refine (serves_iff h.toTidy amount).mpr ?_
  rintro (fragmented | ⟨pre, c, post, split, -, -, zero⟩)
  · obtain ⟨b, hb, c, hc, different, touch⟩ := fragmented.touching h positive
    exact apart b hb c hc different touch
  · exact nonzero c (by simp [split]) zero

end BlockMap

end Mykonos.Memory
