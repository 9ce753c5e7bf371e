import Mykonos.Memory.BlockMapRuns

/-! # Frames of physical memory

`allocateFrame` divides the pointer of a one-page allocation by the page size, so
frame zero is both the failure value and the page at address zero. Page alignment
of every block and the absence of page zero make the failure value unambiguous,
and both survive any order of allocations and returns.
-/

namespace Mykonos.Memory

open Lib

/-- `PAGE_SIZE`. -/
abbrev pageSize : Nat := 4096

/-- The addresses of a frame. -/
def frameRange (frame : Nat) : Set Nat := Set.Ico (frame * 4096) (frame * 4096 + 4096)

theorem frame_mem (frame : Nat) : frame * 4096 ∈ frameRange frame := ⟨le_rfl, by omega⟩

/-- The frame index, zero on failure, and the pool left behind. -/
def allocateFrame (physicalMemory : BlockMap) : Nat × BlockMap :=
  ((physicalMemory.allocate pageSize).1 / pageSize, (physicalMemory.allocate pageSize).2)

def returnFrame (physicalMemory : BlockMap) (frameIndex : Nat) : BlockMap :=
  physicalMemory.returnMemory (frameIndex * pageSize % 2 ^ 64) pageSize

namespace BlockMap

variable {m : BlockMap} {P : Nat → Prop}

/-! ## Conditions on the ends of blocks -/

/-- Every block starts and stops at an address with the property. -/
def Ends (P : Nat → Prop) (l : List Block) : Prop := ∀ b ∈ l, P b.start ∧ P b.stop

theorem absorb_ends {b : Block} {l : List Block} (hb : P b.start ∧ P b.stop) (hl : Ends P l) :
    Ends P (absorb b l) := by
  induction l with
  | nil => simpa [absorb, Ends] using hb
  | cons c rest ih =>
      obtain ⟨hc, hrest⟩ := List.forall_mem_cons.mp hl
      simp only [absorb]
      split_ifs
      · exact List.forall_mem_cons.mpr ⟨⟨hb.1, hc.2⟩, hrest⟩
      · exact List.forall_mem_cons.mpr ⟨⟨hc.1, hb.2⟩, hrest⟩
      · exact List.forall_mem_cons.mpr ⟨hc, ih hrest⟩

theorem merge_ends (h : Ends P m.blocks) : Ends P m.merge.blocks := by
  have fold : ∀ temp merged, Ends P temp → Ends P merged → Ends P (temp.foldl mergeOne merged) := by
    intro temp
    induction temp with
    | nil => exact fun _ _ ends => ends
    | cons b rest ih =>
        intro merged ht hm
        obtain ⟨hb, hrest⟩ := List.forall_mem_cons.mp ht
        simp only [List.foldl_cons, mergeOne]
        split_ifs
        · exact ih merged hrest hm
        · exact ih _ hrest (absorb_ends hb hm)
  exact fold m.blocks [] h (by simp [Ends])

theorem addBlock_ends {b : Block} (h : Ends P m.blocks) (hb : P b.start ∧ P b.stop) :
    Ends P (m.addBlock b).blocks := by
  have last : ∀ l, Ends P l → Ends P (l ++ [b]) := fun l ends c member => by
    rcases List.mem_append.mp member with member | member
    · exact ends c member
    · exact List.mem_singleton.mp member ▸ hb
  simp only [addBlock]
  split_ifs
  · exact last _ h
  · exact last _ (merge_ends h)
  · exact merge_ends h
  · exact h

theorem allocate_ends {amount : Nat} (tidy : m.Tidy) (h : Ends P m.blocks)
    (shift : ∀ b ∈ m.blocks, P b.start → P (b.start + amount)) :
    Ends P (m.allocate amount).2.blocks := by
  rcases allocate_cases tidy amount with ⟨-, same⟩ | ⟨pre, c, post, split, -, -, cut⟩
  · rwa [same]
  · rw [cut]
    rw [split] at h shift
    intro d member
    simp only [List.mem_append, List.mem_cons] at member
    rcases member with member | rfl | member
    · exact h d (by simp [member])
    · exact ⟨shift c (by simp) (h c (by simp)).1, (h c (by simp)).2⟩
    · exact h d (by simp [member])

/-- Every block starts and stops at a 64-bit address. -/
def InRange (m : BlockMap) : Prop := Ends (· < 2 ^ 64) m.blocks

theorem firstFit_inRange (amount : Nat) {l : List Block} (h : Ends (· < 2 ^ 64) l) :
    (firstFit amount l).1 < 2 ^ 64 ∧ Ends (· < 2 ^ 64) (firstFit amount l).2 := by
  induction l with
  | nil => simp [firstFit, Ends]
  | cons b rest ih =>
      obtain ⟨hb, hrest⟩ := List.forall_mem_cons.mp h
      obtain ⟨low, kept⟩ := ih hrest
      simp only [firstFit]
      split_ifs with large
      · simp only [Block.reserve, large, if_true]
        exact ⟨hb.1, List.forall_mem_cons.mpr ⟨⟨Nat.mod_lt _ (by decide), hb.2⟩, hrest⟩⟩
      · exact ⟨low, List.forall_mem_cons.mpr ⟨hb, kept⟩⟩

theorem returnMemory_inRange {ptr amount : Nat} (h : m.InRange) (bounded : ptr < 2 ^ 64) :
    (m.returnMemory ptr amount).InRange :=
  addBlock_ends h ⟨bounded, Nat.mod_lt _ (by decide)⟩

/-- Every block starts and stops on a page boundary. -/
def Aligned (m : BlockMap) : Prop := Ends (· % 4096 = 0) m.blocks

theorem allocate_aligned {amount : Nat} (tidy : m.Tidy) (h : m.Aligned)
    (whole : amount % 4096 = 0) :
    (m.allocate amount).2.Aligned :=
  allocate_ends tidy h fun b _ start => by omega

theorem addBlock_aligned {b : Block} (h : m.Aligned) (hb : b.start % 4096 = 0 ∧ b.stop % 4096 = 0) :
    (m.addBlock b).Aligned :=
  addBlock_ends h hb

/-- In an aligned table a page is free as soon as one of its addresses is. -/
theorem Aligned.whole_page (h : m.Aligned) {a : Nat} (held : a ∈ m.free) :
    frameRange (a / 4096) ⊆ m.free := by
  obtain ⟨b, member, inside⟩ := held
  obtain ⟨start, stop⟩ := h b member
  intro c page
  simp only [frameRange, Set.mem_Ico] at page
  simp only [Block.mem_range] at inside
  exact ⟨b, member, by simp only [Block.mem_range]; omega⟩

end BlockMap

/-! ## One call -/

section Calls

variable {pm : BlockMap}

/-- Either the pool is empty and nothing happens, or a whole free page leaves
    it. -/
theorem allocateFrame_spec (h : pm.WellFormed) (aligned : pm.Aligned) :
    (pm.free = ∅ ∧ allocateFrame pm = (0, pm)) ∨
    (pm.Granted (allocateFrame pm).2 ((allocateFrame pm).1 * 4096) 4096 ∧
      (allocateFrame pm).2.Aligned) := by
  rcases BlockMap.allocate_spec h 4096 with ⟨small, same⟩ | ⟨⟨c, member, start, -⟩, granted⟩
  · refine .inl ⟨Set.eq_empty_of_forall_notMem fun a held => ?_,
      by simp only [allocateFrame, same, Nat.zero_div]⟩
    obtain ⟨c, member, inside⟩ := held
    have capacity := small c member
    have ends := aligned c member
    rw [(h.blocks c member).capacity] at capacity
    simp only [Block.mem_range] at inside
    omega
  · have ends := aligned c member
    have address : (pm.allocate 4096).1 / 4096 * 4096 = (pm.allocate 4096).1 := by omega
    refine .inr ⟨?_, BlockMap.allocate_aligned h.toTidy aligned (by decide)⟩
    simpa only [allocateFrame, pageSize, address] using granted

theorem allocateFrame_inRange (h : pm.InRange) :
    (allocateFrame pm).1 < 2 ^ 52 ∧ (allocateFrame pm).2.InRange := by
  obtain ⟨low, kept⟩ := BlockMap.firstFit_inRange 4096 h
  refine ⟨?_, kept⟩
  simp only [allocateFrame, BlockMap.allocate, pageSize]
  omega

theorem returnFrame_inRange (h : pm.InRange) (frame : Nat) : (returnFrame pm frame).InRange :=
  BlockMap.returnMemory_inRange h (Nat.mod_lt _ (by decide))

theorem returnFrame_eq {frame : Nat} (bounded : frame * 4096 + 4096 < 2 ^ 64) :
    returnFrame pm frame = pm.addBlock ⟨frame * 4096, frame * 4096 + 4096⟩ := by
  have low : frame * 4096 < 2 ^ 64 := (Nat.le_add_right _ _).trans_lt bounded
  simp only [returnFrame, BlockMap.returnMemory, pageSize, Nat.mod_eq_of_lt low,
    Nat.mod_eq_of_lt bounded]

theorem frameBlock_wellFormed {frame : Nat} (bounded : frame * 4096 + 4096 < 2 ^ 64) :
    (⟨frame * 4096, frame * 4096 + 4096⟩ : Block).WellFormed :=
  ⟨Nat.le_add_right _ _, bounded⟩

theorem frameRange_disjoint {f g : Nat} (different : f ≠ g) :
    Disjoint (frameRange f) (frameRange g) := by
  refine Set.disjoint_left.mpr fun a first second => ?_
  simp only [frameRange, Set.mem_Ico] at first second
  omega

end Calls

/-! ## The pool and its outstanding frames -/

/-- Physical memory with the frames its callers hold. -/
structure FramePool where
  pool : BlockMap
  outstanding : List Nat

namespace FramePool

inductive Call where
  | allocate
  | return_ (frame : Nat)
  deriving Repr, DecidableEq

/-- The frame the next `allocateFrame` returns. -/
def next (s : FramePool) : Nat := (allocateFrame s.pool).1

def after (s : FramePool) : Call → FramePool
  | .allocate =>
      ⟨(allocateFrame s.pool).2, if s.next = 0 then s.outstanding else s.next :: s.outstanding⟩
  | .return_ frame => ⟨returnFrame s.pool frame, s.outstanding.erase frame⟩

/-- Only outstanding frames are returned. -/
def Admissible (s : FramePool) : Call → Prop
  | .allocate => True
  | .return_ frame => frame ∈ s.outstanding

def Step (s : FramePool) (call : Call) (t : FramePool) : Prop :=
  s.Admissible call ∧ t = s.after call

/-- A pool of disjoint page-aligned blocks without page zero. -/
structure Pristine (pool : BlockMap) : Prop where
  wellFormed : pool.WellFormed
  aligned : pool.Aligned
  nonzero : ∀ a ∈ pool.free, 4096 ≤ a

/-- The invariant of a pool in use. -/
structure Sound (s : FramePool) : Prop extends Pristine s.pool where
  distinct : s.outstanding.Nodup
  bounded : ∀ frame ∈ s.outstanding, 0 < frame ∧ frame * 4096 + 4096 < 2 ^ 64
  taken : ∀ frame ∈ s.outstanding, Disjoint (frameRange frame) s.pool.free

theorem Pristine.sound {pool : BlockMap} (h : Pristine pool) : Sound ⟨pool, []⟩ :=
  ⟨h, List.nodup_nil, by simp, by simp⟩

/-- A granted frame is whole, was free and is held by nobody else. -/
theorem Sound.next_fresh {s : FramePool} (h : s.Sound) (found : s.next ≠ 0) :
    s.pool.Granted (allocateFrame s.pool).2 (s.next * 4096) 4096 ∧ s.next ∉ s.outstanding := by
  rcases allocateFrame_spec h.wellFormed h.aligned with ⟨-, same⟩ | ⟨granted, -⟩
  · exact absurd (by rw [next, same]) found
  · refine ⟨granted, fun held => ?_⟩
    exact Set.disjoint_left.mp (h.taken _ held) (frame_mem s.next)
      (granted.taken (frame_mem s.next))

/-- Zero is returned exactly by an empty pool. -/
theorem Sound.next_eq_zero {s : FramePool} (h : s.Sound) : s.next = 0 ↔ s.pool.free = ∅ := by
  rcases allocateFrame_spec h.wellFormed h.aligned with ⟨empty, same⟩ | ⟨granted, -⟩
  · exact iff_of_true (by rw [next, same]) empty
  · have held : s.next * 4096 ∈ s.pool.free := granted.taken (frame_mem s.next)
    have := h.nonzero _ held
    exact iff_of_false (by omega) fun empty => by simp [empty] at held

theorem Sound.allocate {s : FramePool} (h : s.Sound) : (s.after .allocate).Sound := by
  by_cases found : s.next = 0
  · have same : allocateFrame s.pool = (0, s.pool) := by
      rcases allocateFrame_spec h.wellFormed h.aligned with ⟨-, same⟩ | ⟨granted, -⟩
      · exact same
      · have held : s.next * 4096 ∈ s.pool.free := granted.taken (frame_mem s.next)
        rw [h.next_eq_zero.mp found] at held
        exact held.elim
    simpa only [after, found, same, if_true] using h
  · obtain ⟨granted, fresh⟩ := h.next_fresh found
    simp only [after, found, if_false]
    refine ⟨⟨granted.wellFormed,
      BlockMap.allocate_aligned h.wellFormed.toTidy h.aligned (by decide), ?_⟩,
      List.nodup_cons.mpr ⟨fresh, h.distinct⟩, ?_, ?_⟩
    · exact fun a held => h.nonzero a (granted.free.subset held).1
    · exact List.forall_mem_cons.mpr ⟨⟨Nat.pos_of_ne_zero found, granted.bounded⟩, h.bounded⟩
    · simp only [granted.free]
      refine List.forall_mem_cons.mpr ⟨Set.disjoint_sdiff_right, fun frame held => ?_⟩
      exact (h.taken frame held).mono_right Set.sdiff_subset

theorem Sound.return_ {s : FramePool} (h : s.Sound) {frame : Nat} (held : frame ∈ s.outstanding) :
    (s.after (.return_ frame)).Sound := by
  obtain ⟨positive, bounded⟩ := h.bounded frame held
  have block := frameBlock_wellFormed bounded
  have free := BlockMap.addBlock_free_subset h.wellFormed.toTidy block
  simp only [after, returnFrame_eq bounded]
  refine ⟨⟨BlockMap.addBlock_wellFormed h.wellFormed block (h.taken frame held),
    BlockMap.addBlock_aligned h.aligned ⟨by simp only; omega, by simp only; omega⟩, ?_⟩,
    h.distinct.erase frame, fun other member => h.bounded other (List.mem_of_mem_erase member), ?_⟩
  · intro a member
    rcases free member with old | new
    · exact h.nonzero a old
    · simp only [Block.mem_range] at new
      omega
  · intro other member
    have different : other ≠ frame := (h.distinct.mem_erase_iff.mp member).1
    exact (Set.disjoint_union_right.mpr ⟨h.taken other (List.mem_of_mem_erase member),
      frameRange_disjoint different⟩).mono_right free

theorem Sound.run {s t : FramePool} {calls : List Call} (h : s.Sound) (run : Run Step s calls t) :
    t.Sound := by
  refine run.invariant h ?_
  rintro s call _ sound ⟨admissible, rfl⟩
  cases call with
  | allocate => exact sound.allocate
  | return_ frame => exact sound.return_ admissible

/-- Along every run of a pristine pool the blocks stay page aligned, a non-zero
    frame was free as a whole and is nobody else's, and zero means that no page
    is free. -/
theorem frames_after_run {pool : BlockMap} (pristine : Pristine pool) {calls : List Call}
    {s : FramePool} (run : Run Step ⟨pool, []⟩ calls s) :
    (∀ b ∈ s.pool.blocks, b.start % 4096 = 0 ∧ b.stop % 4096 = 0) ∧
    ((allocateFrame s.pool).1 ≠ 0 →
      frameRange (allocateFrame s.pool).1 ⊆ s.pool.free ∧ (allocateFrame s.pool).1 ∉
        s.outstanding) ∧
    ((allocateFrame s.pool).1 = 0 ↔ ¬ ∃ frame, frameRange frame ⊆ s.pool.free) := by
  have sound := pristine.sound.run run
  refine ⟨sound.aligned, fun found => ?_, ?_⟩
  · obtain ⟨granted, fresh⟩ := sound.next_fresh found
    exact ⟨granted.taken, fresh⟩
  · refine sound.next_eq_zero.trans ⟨?_, fun none => ?_⟩
    · rintro empty ⟨frame, page⟩
      rw [empty] at page
      exact page (frame_mem frame)
    · exact Set.eq_empty_of_forall_notMem fun a held => none ⟨_, sound.aligned.whole_page held⟩

/-- Two pages, both handed out and one returned. -/
theorem frames_after_reuse :
    (allocateFrame ((FramePool.mk ⟨[⟨0x1000, 0x3000⟩]⟩ []).after .allocate |>.after .allocate
      |>.after (.return_ 1)).pool).1 = 1 ∧
    1 ∉ ((FramePool.mk ⟨[⟨0x1000, 0x3000⟩]⟩ []).after .allocate |>.after .allocate
      |>.after (.return_ 1)).outstanding := by
  have pristine : Pristine ⟨[⟨0x1000, 0x3000⟩]⟩ := by
    refine ⟨⟨⟨by decide, by decide⟩, List.pairwise_singleton _ _⟩,
      by simp [BlockMap.Aligned, BlockMap.Ends], ?_⟩
    rintro a ⟨b, member, inside⟩
    rw [List.mem_singleton.mp member] at inside
    exact le_trans (by decide) inside.1
  have run : Run Step ⟨⟨[⟨0x1000, 0x3000⟩]⟩, []⟩ [.allocate, .allocate, .return_ 1] _ :=
    .next (.next (.single ⟨trivial, rfl⟩) ⟨trivial, rfl⟩) ⟨List.mem_of_mem_tail (by decide), rfl⟩
  have facts := frames_after_run pristine run
  exact ⟨by decide, (facts.2.1 (by decide)).2⟩

end FramePool

end Mykonos.Memory
