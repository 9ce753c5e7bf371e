import Mykonos.Heap.Kmalloc
import Mykonos.Paging.Effects

/-! # Who holds a frame

A frame is free in the pool, in use as a table, or named by one leaf entry that
carries `ALLOCATED`. The three never overlap, and mapping or unmapping one page
keeps them apart.
-/

namespace Mykonos.Heap

open Lib Memory Paging

/-! ## Frames leaving the pool -/

theorem mem_frameRange {frame a : Nat} : a ∈ frameRange frame ↔ a / 4096 = frame := by
  simp only [frameRange, Set.mem_Ico]
  omega

/-- The frames have left the pool, and nothing else has happened to it. -/
structure Withdrawn (pm next : BlockMap) (frames : Set Nat) : Prop where
  wellFormed : next.WellFormed
  aligned : next.Aligned
  taken : ∀ frame ∈ frames, frameRange frame ⊆ pm.free
  bounded : ∀ frame ∈ frames, frame * 4096 + 4096 < 2 ^ 64
  free : ∀ a, a ∈ next.free ↔ a ∈ pm.free ∧ a / 4096 ∉ frames

namespace Withdrawn

variable {pm mid next : BlockMap} {frames more : Set Nat}

theorem refl (h : pm.WellFormed) (aligned : pm.Aligned) : Withdrawn pm pm ∅ :=
  ⟨h, aligned, by simp, by simp, by simp⟩

theorem subset (h : Withdrawn pm next frames) : next.free ⊆ pm.free :=
  fun a held => ((h.free a).mp held).1

/-- A withdrawn frame is no longer free. -/
theorem gone (h : Withdrawn pm next frames) {frame : Nat} (member : frame ∈ frames) :
    Disjoint (frameRange frame) next.free := by
  refine Set.disjoint_left.mpr fun a inside held => ((h.free a).mp held).2 ?_
  rwa [mem_frameRange.mp inside]

/-- Its number fits an entry. -/
theorem frame_lt (h : Withdrawn pm next frames) {frame : Nat} (member : frame ∈ frames) :
    frame < 2 ^ 52 := by
  have := h.bounded frame member
  omega

theorem trans (first : Withdrawn pm mid frames) (second : Withdrawn mid next more) :
    Withdrawn pm next (frames ∪ more) where
  wellFormed := second.wellFormed
  aligned := second.aligned
  taken frame member :=
    member.elim (first.taken frame) fun late => (second.taken frame late).trans first.subset
  bounded frame member := member.elim (first.bounded frame) (second.bounded frame)
  free a := by
    rw [second.free, first.free, Set.mem_union, not_or, and_assoc]

theorem of_eq (h : Withdrawn pm next frames) (same : ∀ frame, frame ∈ frames ↔ frame ∈ more) :
    Withdrawn pm next more :=
  Set.ext same ▸ h

theorem notMem_later (first : Withdrawn pm mid frames)
    (second : Withdrawn mid next more) {frame : Nat} (member : frame ∈ frames) :
    frame ∉ more := fun again =>
  Set.disjoint_left.mp (first.gone member) (frame_mem frame)
    (second.taken frame again (frame_mem frame))

end Withdrawn

theorem allocateFrame_withdrawn {pm : BlockMap} (h : pm.WellFormed) (aligned : pm.Aligned)
    (found : (allocateFrame pm).1 ≠ 0) :
    Withdrawn pm (allocateFrame pm).2 {(allocateFrame pm).1} := by
  rcases allocateFrame_spec h aligned with ⟨-, same⟩ | ⟨granted, kept⟩
  · exact absurd (by rw [same]) found
  · refine ⟨granted.wellFormed, kept, ?_, ?_, fun a => ?_⟩
    · rintro frame rfl
      exact granted.taken
    · rintro frame rfl
      exact granted.bounded
    · rw [granted.free, Set.mem_sdiff, Set.mem_singleton_iff, ← mem_frameRange]
      rfl

/-- An allocation that fails, or that hands out page zero, leaves a good pool. -/
theorem allocateFrame_keeps {pm : BlockMap} (h : pm.WellFormed) (aligned : pm.Aligned) :
    (allocateFrame pm).2.WellFormed ∧ (allocateFrame pm).2.Aligned ∧
    (allocateFrame pm).2.free ⊆ pm.free := by
  rcases allocateFrame_spec h aligned with ⟨-, same⟩ | ⟨granted, kept⟩
  · rw [same]
    exact ⟨h, aligned, subset_rfl⟩
  · exact ⟨granted.wellFormed, kept, granted.free.subset.trans Set.sdiff_subset⟩

theorem takes_withdrawn {pm next : BlockMap} {frames : List Nat} (takes : Takes pm frames next)
    (h : pm.WellFormed) (aligned : pm.Aligned) (nonzero : 0 ∉ frames) :
    frames.Nodup ∧ Withdrawn pm next {frame | frame ∈ frames} := by
  induction takes with
  | nothing => exact ⟨List.nodup_nil, by simpa using Withdrawn.refl h aligned⟩
  | @frame mid frames takes ih =>
      simp only [List.mem_cons, not_or] at nonzero
      obtain ⟨distinct, early⟩ := ih nonzero.2
      have late := allocateFrame_withdrawn early.wellFormed early.aligned (Ne.symm nonzero.1)
      refine ⟨List.nodup_cons.mpr ⟨fun again => ?_, distinct⟩, ?_⟩
      · exact early.notMem_later late again rfl
      · have joined := early.trans late
        rw [Set.union_comm] at joined
        exact joined.of_eq fun frame => List.mem_cons.symm

/-! ## Computations that are never denied a table frame -/

/-- Whatever happens, the record of table frames only grows. -/
def Logs {α : Type} (x : Kernel α) : Prop := ∀ s, s.tableFrames <:+ (x.after s).tableFrames

/-- No allocation inside `allocatePageTable` fails, now or before. -/
def Fed {α : Type} (x : Kernel α) (s : Machine) : Prop := 0 ∉ (x.after s).tableFrames

section Feeding

variable {α β : Type} {x : Kernel α} {f : α → Kernel β} {s t : Machine} {a : α}

theorem Logs.of_draws (h : Draws x) : Logs x := by
  intro s
  obtain ⟨new, drawn⟩ := h s
  exact ⟨new, drawn.log.symm⟩

theorem Logs.of_same (h : ∀ s, (x.after s).tableFrames = s.tableFrames) : Logs x := fun s => by
  rw [h s]

theorem Logs.bind (first : Logs x) (second : ∀ a, Logs (f a)) : Logs (x >>= f) := by
  intro s
  have early := first s
  rw [after_bind]
  simp only [Kernel.after] at early
  cases here : x s with
  | ok a t =>
      rw [here] at early
      exact early.trans (second a t)
  | error fault t =>
      rw [here] at early
      exact early

theorem Fed.first (h : Fed (x >>= f) s) (second : ∀ a, Logs (f a)) : Fed x s := by
  rw [Fed, after_bind] at h
  rw [Fed, Kernel.after]
  cases here : x s with
  | ok a t =>
      rw [here] at h
      exact fun member => h ((second a t).subset member)
  | error fault t =>
      rw [here] at h
      exact h

theorem Fed.onward (h : Fed (x >>= f) s) (here : x s = .ok a t) : Fed (f a) t := by
  rw [Fed, after_bind, here] at h
  exact h

end Feeding

/-! ## Good machines -/

/-- The tables form a tree, the pool is in order, and no table is in the pool. -/
structure Stocked (s : Machine) : Prop where
  tree : TableTree s
  wellFormed : s.physicalMemory.WellFormed
  aligned : s.physicalMemory.Aligned
  tables : ∀ frame, s.IsTable frame → Disjoint (frameRange frame) s.physicalMemory.free

/-- The frame is neither free nor a table. -/
structure Private (s : Machine) (frame : Nat) : Prop where
  bounded : frame * 4096 + 4096 < 2 ^ 64
  notTable : ¬ s.IsTable frame
  notFree : Disjoint (frameRange frame) s.physicalMemory.free

/-- Every frame a leaf entry owns is private and has no other owner. -/
structure Owned (s : Machine) : Prop extends Stocked s where
  held : ∀ n, Outside n → isAllocated (s.leaf n) = true → Private s (entryFrame (s.leaf n))
  exclusive : ∀ n k, Outside n → Outside k → isAllocated (s.leaf n) = true →
    isAllocated (s.leaf k) = true → entryFrame (s.leaf n) = entryFrame (s.leaf k) → n = k

section Pages

variable {s t : Machine} {n value : Nat} {new : List Nat}

/-- The specification of `mapPage` on a stocked machine. -/
theorem mapPage_fed {address target flags : Nat} {allocated cacheable : Bool} (h : Stocked s)
    (outside : Outside (page address))
    (fed : Fed (mapPage address target flags allocated cacheable) s) :
    ∃ t new, mapPage address target flags allocated cacheable s = .ok () t ∧
      Edited s t (page address) (leafEntry target flags allocated cacheable) new ∧
      Withdrawn s.physicalMemory t.physicalMemory {frame | frame ∈ new} := by
  obtain ⟨new, drawn, mapped⟩ := mapPage_spec h.tree outside target flags allocated cacheable
  have nonzero : 0 ∉ new :=
    fun member => fed (by rw [drawn.log]; exact List.mem_append_left _ member)
  obtain ⟨distinct, withdrawn⟩ := takes_withdrawn drawn.takes h.wellFormed h.aligned nonzero
  have fresh : FreshAll s new := by
    refine ⟨distinct, fun frame member =>
      ⟨fun zero => nonzero (zero ▸ member), withdrawn.frame_lt member, fun used => ?_⟩⟩
    exact Set.disjoint_left.mp (h.tables frame used) (frame_mem frame)
      (withdrawn.taken frame member (frame_mem frame))
  obtain ⟨t, returned, edited⟩ := mapped fresh
  rw [Kernel.after, returned] at withdrawn
  exact ⟨t, new, returned, edited, withdrawn⟩

theorem Private.edited {frame : Nat} (h : Private s frame) (edited : Edited s t n value new)
    (withdrawn : Withdrawn s.physicalMemory t.physicalMemory {frame | frame ∈ new}) :
    Private t frame := by
  refine ⟨h.bounded, ?_, h.notFree.mono_right withdrawn.subset⟩
  rw [edited.isTable]
  rintro (used | fresh)
  · exact h.notTable used
  · exact Set.disjoint_left.mp h.notFree (frame_mem frame)
      (withdrawn.taken frame fresh (frame_mem frame))

theorem Stocked.edited (h : Stocked s) (edited : Edited s t n value new)
    (withdrawn : Withdrawn s.physicalMemory t.physicalMemory {frame | frame ∈ new}) :
    Stocked t := by
  refine ⟨edited.tree, withdrawn.wellFormed, withdrawn.aligned, fun frame used => ?_⟩
  rcases (edited.isTable frame).mp used with old | fresh
  · exact (h.tables frame old).mono_right withdrawn.subset
  · exact withdrawn.gone fresh

/-- Writing an entry keeps frames apart when the frame it owns, if any, had no
    owner. -/
theorem Owned.edited (h : Owned s) (edited : Edited s t n value new)
    (withdrawn : Withdrawn s.physicalMemory t.physicalMemory {frame | frame ∈ new})
    (entry : isAllocated value = true → Private s (entryFrame value) ∧
      ∀ k, Outside k → isAllocated (s.leaf k) = true → entryFrame (s.leaf k) ≠ entryFrame value) :
        Owned t := by
  refine ⟨h.toStocked.edited edited withdrawn, fun k outside owns => ?_,
    fun k j hk hj ownk ownj same => ?_⟩
  · rw [edited.leaf k outside] at owns ⊢
    split_ifs at owns ⊢ with here
    · exact (entry owns).1.edited edited withdrawn
    · exact (h.held k outside owns).edited edited withdrawn
  · rw [edited.leaf k hk] at ownk same
    rw [edited.leaf j hj] at ownj same
    split_ifs at ownk ownj same with one two two
    · rw [one, two]
    · exact absurd same.symm ((entry ownk).2 j hj ownj)
    · exact absurd same ((entry ownj).2 k hk ownk)
    · exact h.exclusive k j hk hj ownk ownj same

/-- A frame put back into a pool that does not have it. -/
structure Refilled (pm next : BlockMap) (frame : Nat) : Prop where
  wellFormed : next.WellFormed
  aligned : next.Aligned
  free : next.free ⊆ pm.free ∪ frameRange frame

theorem returnFrame_refilled {pm : BlockMap} (h : pm.WellFormed)
    (aligned : pm.Aligned) {frame : Nat} (bounded : frame * 4096 + 4096 < 2 ^ 64)
    (apart : Disjoint (frameRange frame) pm.free) :
    Refilled pm (returnFrame pm frame) frame := by
  have block := frameBlock_wellFormed bounded
  rw [returnFrame_eq bounded]
  exact ⟨BlockMap.addBlock_wellFormed h block apart, BlockMap.addBlock_aligned aligned
    ⟨Nat.mul_mod_left _ _, by simp⟩, BlockMap.addBlock_free_subset h.toTidy block⟩

/-- A private frame can go back to the pool. -/
theorem Stocked.refilled {frame : Nat} (h : Stocked s) (hidden : Private s frame)
    (tree : TableTree t) (tables : ∀ table, t.IsTable table ↔ s.IsTable table)
    (refilled : Refilled s.physicalMemory t.physicalMemory frame) : Stocked t := by
  refine ⟨tree, refilled.wellFormed, refilled.aligned, fun table used => ?_⟩
  have old := (tables table).mp used
  have different : table ≠ frame := fun same => hidden.notTable (same ▸ old)
  exact (Set.disjoint_union_right.mpr ⟨h.tables table old,
    frameRange_disjoint different⟩).mono_right refilled.free

theorem Owned.cleared (h : Owned s) (outside : Outside n) (edited : Edited s t n 0 [])
    (pool : t.physicalMemory = if isAllocated (s.leaf n) then
      returnFrame s.physicalMemory (entryFrame (s.leaf n)) else s.physicalMemory) : Owned t := by
  have tables : ∀ frame, t.IsTable frame ↔ s.IsTable frame := by simp [edited.isTable]
  have empty : isAllocated 0 = false := by decide
  have kept : ∀ k, Outside k → isAllocated (t.leaf k) = true →
      k ≠ n ∧ t.leaf k = s.leaf k ∧ isAllocated (s.leaf k) = true := by
    intro k hk owns
    rw [edited.leaf k hk] at owns ⊢
    split_ifs at owns ⊢ with here
    · exact absurd owns (by simp [empty])
    · exact ⟨here, rfl, owns⟩
  have good : Stocked t ∧ ∀ frame, Private s frame →
    (isAllocated (s.leaf n) = true → frame ≠ entryFrame (s.leaf n)) →
      Private t frame := by
    cases owned : isAllocated (s.leaf n) with
    | false =>
        rw [owned, if_neg (by simp)] at pool
        refine ⟨⟨edited.tree, pool ▸ h.wellFormed, pool ▸ h.aligned, fun frame used => ?_⟩,
          fun frame hidden _ => ?_⟩
        · rw [pool]
          exact h.tables frame ((tables frame).mp used)
        · exact ⟨hidden.bounded, fun used => hidden.notTable ((tables frame).mp used),
            pool ▸ hidden.notFree⟩
    | true =>
        have hidden := h.held n outside owned
        rw [owned, if_pos rfl] at pool
        have refilled := returnFrame_refilled h.wellFormed h.aligned hidden.bounded hidden.notFree
        rw [← pool] at refilled
        refine ⟨h.toStocked.refilled hidden edited.tree tables refilled,
            fun frame other different =>
          ⟨other.bounded, fun used => other.notTable ((tables frame).mp used), ?_⟩⟩
        exact (Set.disjoint_union_right.mpr ⟨other.notFree,
          frameRange_disjoint (different rfl)⟩).mono_right
          refilled.free
  refine ⟨good.1, fun k hk owns => ?_, fun k j hk hj ownk ownj same => ?_⟩
  · obtain ⟨elsewhere, same, owns⟩ := kept k hk owns
    rw [same]
    exact good.2 _ (h.held k hk owns) fun owned again =>
      elsewhere (h.exclusive k n hk outside owns owned again)
  · obtain ⟨-, samek, ownk⟩ := kept k hk ownk
    obtain ⟨-, samej, ownj⟩ := kept j hj ownj
    rw [samek, samej] at same
    exact h.exclusive k j hk hj ownk ownj same

end Pages

end Mykonos.Heap
