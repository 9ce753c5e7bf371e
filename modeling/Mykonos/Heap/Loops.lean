import Mykonos.Heap.Frames

/-! # The loops over the pages of a range

Each loop of the heap edits the entries of consecutive pages. What it leaves is
the old entries overlaid with a list of new ones, together with what has moved
between the pool, the tables and the entries.
-/

namespace Mykonos.Heap

open Lib Memory Paging

/-! ## Consecutive pages -/

/-- The entries after a list of them has been written from one page on. -/
def overlay (old : Nat → Nat) (first : Nat) (entries : List Nat) (k : Nat) : Nat :=
  if first ≤ k then entries.getD (k - first) (old k) else old k

section Overlay

variable {old : Nat → Nat} {first k : Nat} {entries : List Nat}

@[simp] theorem overlay_nil : overlay old first [] k = old k := by
  simp [overlay]

theorem overlay_cons {value : Nat} :
    overlay (fun j => if j = first then value else old j) (first + 1) entries k =
      overlay old first (value :: entries) k := by
  simp only [overlay]
  rcases Nat.lt_trichotomy k first with before | rfl | beyond
  · simp [Nat.not_le.mpr before, Nat.not_le.mpr (Nat.lt_succ_of_lt before), before.ne]
  · simp
  · obtain ⟨d, rfl⟩ : ∃ d, k = first + 1 + d := ⟨k - (first + 1), by omega⟩
    have index : first + 1 + d - first = d + 1 := by omega
    have different : first + 1 + d ≠ first := by omega
    simp [index, different, show first ≤ first + 1 + d by omega]

theorem overlay_outside (h : k < first ∨ first + entries.length ≤ k) :
    overlay old first entries k = old k := by
  rcases h with before | beyond
  · simp [overlay, Nat.not_le.mpr before]
  · have index : entries.length ≤ k - first := by omega
    simp only [overlay, List.getD_eq_default _ _ index, ite_self]

theorem overlay_inside {j : Nat} (h : j < entries.length) :
    overlay old first entries (first + j) = entries[j] := by
  simp [overlay, h]

end Overlay

/-- A page-aligned range, in the upper half below the recursive window unless it
    is empty. -/
structure HeapRange (ptr pages : Nat) : Prop where
  aligned : ptr % 4096 = 0
  low : ptr < 2 ^ 64
  above : 0 < pages → 0xFFFF800000000000 ≤ ptr
  below : 0 < pages → ptr + pages * 4096 ≤ pageTablePointer

section Range

variable {ptr pages j : Nat}

theorem HeapRange.address (h : HeapRange ptr pages) (inside : j < pages) :
    addToPointer ptr (j * 4096) = ptr + j * 4096 := by
  have below := h.below (by omega)
  simp only [pageTablePointer] at below
  exact Nat.mod_eq_of_lt (by omega)

theorem HeapRange.page (h : HeapRange ptr pages) (inside : j < pages) :
    page (addToPointer ptr (j * 4096)) = page ptr + j := by
  have aligned := h.aligned
  have above := h.above (by omega)
  have below := h.below (by omega)
  rw [h.address inside]
  simp only [Paging.page, pageTablePointer] at *
  omega

theorem HeapRange.outside (h : HeapRange ptr pages) (inside : j < pages) :
    Outside (Paging.page ptr + j) := by
  have aligned := h.aligned
  have above := h.above (by omega)
  have below := h.below (by omega)
  simp only [Paging.page, Outside, pageTablePointer] at *
  omega

end Range

/-! ## Rewriting a range -/

/-- The entries from page `first` on are those in the list, the tables in `new`
    have been added, and nothing else has changed. -/
structure Rewritten (s t : Machine) (first : Nat) (entries : List Nat) (new : Set Nat) : Prop where
  virtualMemory : t.virtualMemory = s.virtualMemory
  isTable : ∀ frame, t.IsTable frame ↔ s.IsTable frame ∨ frame ∈ new
  leaf : ∀ k, Outside k → t.leaf k = overlay s.leaf first entries k
  memory : ∀ frame, frame ∉ new → ¬ s.IsTable frame → t.memory frame = s.memory frame

namespace Rewritten

variable {s t u : Machine} {first value : Nat} {entries : List Nat} {new : Set Nat}
  {more : List Nat}

theorem refl (s : Machine) (first : Nat) : Rewritten s s first [] ∅ :=
  ⟨rfl, by simp, by simp, by simp⟩

theorem cons (edited : Edited s t first value more) (rest : Rewritten t u (first + 1) entries new) :
    Rewritten s u first (value :: entries) ({frame | frame ∈ more} ∪ new) where
  virtualMemory := rest.virtualMemory.trans edited.virtualMemory
  isTable frame := by
    rw [rest.isTable, edited.isTable, Set.mem_union, Set.mem_ofPred_eq, or_assoc]
  leaf k outside := by
    have same : overlay t.leaf (first + 1) entries k =
        overlay (fun j => if j = first then value else s.leaf j) (first + 1) entries k := by
      simp only [overlay, edited.leaf k outside]
    rw [rest.leaf k outside, same, overlay_cons]
  memory frame outside unused := by
    simp only [Set.mem_union, Set.mem_ofPred_eq, not_or] at outside
    have still : ¬ t.IsTable frame := by
      rw [edited.isTable]
      exact not_or.mpr ⟨unused, outside.1⟩
    rw [rest.memory frame outside.2 still, edited.memory frame outside.1 unused]

end Rewritten

/-- The entries of other pages, and the frames they own, are as they were, and
    frames are still kept apart. -/
structure Preserves (s t : Machine) (pages : Set Nat) : Prop where
  owned : Owned t
  virtualMemory : t.virtualMemory = s.virtualMemory
  leaf : ∀ k, Outside k → k ∉ pages → t.leaf k = s.leaf k
  memory : ∀ k, Outside k → k ∉ pages → isAllocated (s.leaf k) = true →
    t.memory (entryFrame (s.leaf k)) = s.memory (entryFrame (s.leaf k))

section Preserve

variable {s t u : Machine} {pages more : Set Nat}

theorem Preserves.refl (h : Owned s) (pages : Set Nat) : Preserves s s pages :=
  ⟨h, rfl, fun _ _ _ => rfl, fun _ _ _ _ => rfl⟩

theorem Preserves.trans (first : Preserves s t pages) (second : Preserves t u more) :
    Preserves s u (pages ∪ more) := by
  refine ⟨second.owned, second.virtualMemory.trans first.virtualMemory, fun k outside apart => ?_,
    fun k outside apart owns => ?_⟩
  · simp only [Set.mem_union, not_or] at apart
    rw [second.leaf k outside apart.2, first.leaf k outside apart.1]
  · simp only [Set.mem_union, not_or] at apart
    have same := first.leaf k outside apart.1
    have later := second.memory k outside apart.2 (by rwa [same])
    rw [same] at later
    rw [later, first.memory k outside apart.1 owns]

theorem Preserves.mono (h : Preserves s t pages) (larger : pages ⊆ more) : Preserves s t more :=
  ⟨h.owned, h.virtualMemory,
    fun k outside apart => h.leaf k outside fun inside => apart (larger inside),
    fun k outside apart => h.memory k outside fun inside => apart (larger inside)⟩

theorem Rewritten.preserves {first : Nat} {entries : List Nat} {new : Set Nat}
    (h : Rewritten s t first entries new) (before : Owned s) (after : Owned t)
    (taken : ∀ frame ∈ new, frameRange frame ⊆ s.physicalMemory.free) :
    Preserves s t (Set.Ico first (first + entries.length)) := by
  refine ⟨after, h.virtualMemory, fun k outside apart => ?_, fun k outside apart owns => ?_⟩
  · rw [h.leaf k outside]
    apply overlay_outside
    simp only [Set.mem_Ico] at apart
    omega
  · have hidden := before.held k outside owns
    refine h.memory _ (fun fresh => ?_) hidden.notTable
    exact Set.disjoint_left.mp hidden.notFree (frame_mem _) (taken _ fresh (frame_mem _))

end Preserve

/-! ## Mapping a physical range -/

theorem Logs.forPages {body : Nat → Kernel Unit} (each : ∀ i, Logs (body i)) (pages i : Nat) :
    Logs (forPages body pages i) := by
  induction pages generalizing i with
  | zero => exact .of_same fun _ => rfl
  | succ pages ih => exact (each i).bind fun _ => ih _

theorem mapPage_logs (address target flags : Nat) (allocated cacheable : Bool) :
    Logs (mapPage address target flags allocated cacheable) :=
  .of_draws (.mapPage address target flags allocated cacheable)

theorem addToPointer_lt (ptr amount : Nat) : addToPointer ptr amount < 2 ^ 64 :=
  Nat.mod_lt _ (by decide)

section Loop

variable {body : Nat → Kernel Unit} {rest j : Nat} {s t : Machine}

theorem forPages_succ (first : body (j * 4096) s = .ok () t) :
    forPages body (rest + 1) (j * 4096) s = forPages body rest ((j + 1) * 4096) t := by
  rw [Nat.succ_mul]
  exact bind_ok first _

theorem Fed.head (fed : Fed (forPages body (rest + 1) (j * 4096)) s) (each : ∀ i, Logs (body i)) :
    Fed (body (j * 4096)) s :=
  Fed.first fed fun _ => Logs.forPages each _ _

theorem Fed.tail (fed : Fed (forPages body (rest + 1) (j * 4096)) s)
    (first : body (j * 4096) s = .ok () t) :
    Fed (forPages body rest ((j + 1) * 4096)) t := by
  have later := Fed.onward fed first
  rw [Nat.succ_mul]
  exact later

end Loop

section Mapping

variable {ptr total target : Nat} {cacheable : Bool}

/-- The entries `mapAddress` writes, from one page of the range on. -/
def mapEntries (target : Nat) (cacheable : Bool) (j rest : Nat) : List Nat :=
  (List.range rest).map fun d =>
    leafEntry (addToPointer target ((j + d) * 4096)) PageTableFlags.writable false cacheable

theorem mapEntries_succ (target : Nat) (cacheable : Bool) (j rest : Nat) :
    mapEntries target cacheable j (rest + 1) =
      leafEntry (addToPointer target (j * 4096)) PageTableFlags.writable false cacheable ::
        mapEntries target cacheable (j + 1) rest := by
  simp only [mapEntries, List.range_succ_eq_map, List.map_cons, List.map_map, Nat.add_zero,
    List.cons.injEq, true_and]
  refine List.map_congr_left fun d _ => ?_
  simp only [Function.comp_apply, Nat.succ_eq_add_one, Nat.add_assoc, Nat.add_comm d 1]

theorem forPages_maps (range : HeapRange ptr total) {rest j : Nat}
    (inside : j + rest = total) {s : Machine} (owned : Owned s)
    (fed : Fed (forPages (mapAddressBody ptr target cacheable) rest (j * 4096)) s) :
    ∃ t new, forPages (mapAddressBody ptr target cacheable) rest (j * 4096) s = .ok () t ∧
      Rewritten s t (page ptr + j) (mapEntries target cacheable j rest) new ∧
      Withdrawn s.physicalMemory t.physicalMemory new ∧ Owned t := by
  induction rest generalizing j s with
  | zero => exact ⟨s, ∅, rfl, .refl s _, .refl owned.wellFormed owned.aligned, owned⟩
  | succ rest ih =>
      have here : j < total := by omega
      have logs : ∀ i, Logs (mapAddressBody ptr target cacheable i) :=
        fun i => mapPage_logs _ _ _ _ _
      have outside := range.outside here
      rw [← range.page here] at outside
      obtain ⟨mid, added, first, edited, withdrawn⟩ :=
        mapPage_fed owned.toStocked outside (fed.head logs)
      rw [range.page here] at edited
      have plain :
          isAllocated
            (leafEntry (addToPointer target (j * 4096)) PageTableFlags.writable false cacheable) =
          false := by
        have bounded := addToPointer_lt target (j * 4096)
        rw [leafEntry_eq bounded]
        exact (leafEntry_fields (by omega) false cacheable).2.1
      have kept : Owned mid :=
        owned.edited edited withdrawn fun allocated => by simp [plain] at allocated
      obtain ⟨t, new, rests, rewritten, drained, final⟩ := ih (by omega) kept (fed.tail first)
      refine ⟨t, _, (forPages_succ first).trans rests, ?_, withdrawn.trans drained, final⟩
      rw [mapEntries_succ]
      exact .cons edited rewritten

end Mapping

/-! ## Backing a range with frames -/

/-- The entry `allocateMemory` writes for a frame. -/
def dataEntry (frame : Nat) : Nat := frame * 4096 + leafFlags true true

section Backing

variable {ptr total : Nat} {s t : Machine}

theorem dataEntry_fields {frame : Nat} (bounded : frame < 2 ^ 52) :
    isPresent (dataEntry frame) = true ∧ isAllocated (dataEntry frame) = true ∧
    entryFrame (dataEntry frame) = frame :=
  ⟨(leafEntry_fields bounded true true).1, (leafEntry_fields bounded true true).2.1,
    (leafEntry_fields bounded true true).2.2.1⟩

theorem Owned.drained (h : Owned s) {pm : BlockMap} (wellFormed : pm.WellFormed)
    (aligned : pm.Aligned) (fewer : pm.free ⊆ s.physicalMemory.free) :
    Owned { s with physicalMemory := pm } where
  tree := ⟨h.tree.loop, h.tree.unique⟩
  wellFormed := wellFormed
  aligned := aligned
  tables frame used := (h.tables frame used).mono_right fewer
  held n outside owns :=
    ⟨(h.held n outside owns).bounded, (h.held n outside owns).notTable,
      (h.held n outside owns).notFree.mono_right fewer⟩
  exclusive := h.exclusive

theorem edited_of_drained {pm : BlockMap} {n value : Nat} {new : List Nat}
    (h : Edited { s with physicalMemory := pm } t n value new) : Edited s t n value new :=
  ⟨h.tree, h.cr3, h.virtualMemory, h.isTable, h.leaf, h.window, h.memory⟩

/-- One page backed, and the frame it was given. -/
structure Backed (s t : Machine) (n frame : Nat) (new : List Nat) : Prop where
  edited : Edited s t n (dataEntry frame) new
  withdrawn : Withdrawn s.physicalMemory t.physicalMemory ({frame} ∪ {table | table ∈ new})
  apart : frame ∉ new
  owned : Owned t

theorem allocateMemoryBody_spec {i : Nat} (owned : Owned s)
    (outside : Outside (page (addToPointer ptr i))) (fed : Fed (allocateMemoryBody ptr i) s) :
    (∃ t frame new, allocateMemoryBody ptr i s = .ok () t ∧
      Backed s t (page (addToPointer ptr i)) frame new) ∨
    ∃ t, allocateMemoryBody ptr i s = .error (.kpanic "Out of memory") t ∧ Preserves s t ∅ := by
  obtain ⟨pm, frame, taking⟩ : ∃ pm frame, allocateFrame s.physicalMemory = (frame, pm) :=
    ⟨_, _, rfl⟩
  have took : takeFrame s = .ok frame { s with physicalMemory := pm } := by
    simp only [takeFrame, taking]
  have body := bind_ok took fun frame => if frame ≠ 0 then
    mapPage (addToPointer ptr i) (frame * pageSize % 2 ^ 64) PageTableFlags.writable true true
    else kpanic "Out of memory"
  have later := Fed.onward fed took
  by_cases found : frame = 0
  · right
    have keeps := allocateFrame_keeps owned.wellFormed owned.aligned
    rw [taking] at keeps
    refine ⟨_, body.trans ?_, owned.drained keeps.1 keeps.2.1 keeps.2.2, rfl, fun _ _ _ => rfl,
      fun _ _ _ _ => rfl⟩
    simp only [found, ne_eq, not_true, if_false]
    rfl
  · left
    have taken := allocateFrame_withdrawn owned.wellFormed owned.aligned (by rwa [taking])
    rw [taking] at taken
    have drained := owned.drained taken.wellFormed taken.aligned taken.subset
    simp only [ne_eq, found, not_false_eq_true, if_true] at body later
    have bounded : frame * 4096 + 4096 < 2 ^ 64 := taken.bounded frame rfl
    have low : frame * 4096 < 2 ^ 64 := (Nat.le_add_right _ _).trans_lt bounded
    obtain ⟨t, new, mapped, edited, withdrawn⟩ := mapPage_fed drained.toStocked outside later
    have entry : leafEntry (frame * pageSize % 2 ^ 64) PageTableFlags.writable true true =
        dataEntry frame := by
      rw [Nat.mod_eq_of_lt low, leafEntry_eq low, Nat.mul_div_cancel _ (by decide), dataEntry]
    rw [entry] at edited
    obtain ⟨-, -, named⟩ := dataEntry_fields (show frame < 2 ^ 52 by omega)
    have free : frameRange frame ⊆ s.physicalMemory.free := taken.taken frame rfl
    have hidden : Private { s with physicalMemory := pm } frame :=
      ⟨bounded, fun used => Set.disjoint_left.mp (owned.tables frame used) (frame_mem frame)
        (free (frame_mem frame)), taken.gone rfl⟩
    refine ⟨t, frame, new, body.trans mapped, edited_of_drained edited, taken.trans withdrawn,
      taken.notMem_later withdrawn rfl, drained.edited edited withdrawn fun _ => ?_⟩
    rw [named]
    refine ⟨hidden, fun k hk owns same => ?_⟩
    have held := (owned.held k hk owns).notFree
    exact Set.disjoint_left.mp held (frame_mem _) (same ▸ free (frame_mem frame))

/-- Consecutive pages backed by the frames in the list. -/
structure BackedAll (s t : Machine) (first : Nat) (data : List Nat) (new : Set Nat) : Prop where
  rewritten : Rewritten s t first (data.map dataEntry) new
  withdrawn : Withdrawn s.physicalMemory t.physicalMemory ({frame | frame ∈ data} ∪ new)
  distinct : data.Nodup
  apart : ∀ frame ∈ data, frame ∉ new
  owned : Owned t

theorem BackedAll.refl (owned : Owned s) (first : Nat) : BackedAll s s first [] ∅ :=
  ⟨.refl s first, by simpa using Withdrawn.refl owned.wellFormed owned.aligned, .nil,
    by simp, owned⟩

theorem BackedAll.cons {u : Machine} {first frame : Nat} {data tables : List Nat} {new : Set Nat}
    (one : Backed s t first frame tables) (rest : BackedAll t u (first + 1) data new) :
    BackedAll s u first (frame :: data) ({table | table ∈ tables} ∪ new) where
  rewritten := .cons one.edited rest.rewritten
  withdrawn := (one.withdrawn.trans rest.withdrawn).of_eq fun f => by
    simp only [Set.mem_union, Set.mem_singleton_iff, Set.mem_ofPred_eq, List.mem_cons]
    tauto
  distinct := List.nodup_cons.mpr
    ⟨fun again => one.withdrawn.notMem_later rest.withdrawn (.inl rfl) (.inl again), rest.distinct⟩
  apart f member := by
    simp only [Set.mem_union, Set.mem_ofPred_eq, not_or]
    rcases List.mem_cons.mp member with rfl | later
    · exact ⟨one.apart, fun table => one.withdrawn.notMem_later rest.withdrawn
        (.inl rfl) (.inr table)⟩
    · exact ⟨fun table => one.withdrawn.notMem_later rest.withdrawn (.inr table) (.inl later),
        rest.apart f later⟩
  owned := rest.owned

theorem BackedAll.preserves {first : Nat} {data : List Nat} {new : Set Nat}
    (h : BackedAll s t first data new) (before : Owned s) :
    Preserves s t (Set.Ico first (first + data.length)) := by
  have kept :=
    h.rewritten.preserves before h.owned fun frame member => h.withdrawn.taken frame (.inr member)
  rwa [List.length_map] at kept

theorem allocateMemoryBody_logs (ptr i : Nat) : Logs (allocateMemoryBody ptr i) := by
  refine Logs.bind (.of_same fun _ => rfl) fun frame => ?_
  split_ifs
  · exact mapPage_logs _ _ _ _ _
  · exact .of_same fun _ => rfl

/-- The loop of `allocateMemory` backs every page, or stops the kernel. -/
theorem forPages_backs (range : HeapRange ptr total) {rest j : Nat} (inside : j + rest = total)
    (owned : Owned s) (fed : Fed (forPages (allocateMemoryBody ptr) rest (j * 4096)) s) :
    (∃ t data new, forPages (allocateMemoryBody ptr) rest (j * 4096) s = .ok () t ∧
      data.length = rest ∧
      BackedAll s t (page ptr + j) data new) ∨
    ∃ t, forPages (allocateMemoryBody ptr) rest (j * 4096) s = .error (.kpanic "Out of memory") t ∧
      Preserves s t (Set.Ico (page ptr + j) (page ptr + total)) := by
  induction rest generalizing j s with
  | zero => exact .inl ⟨s, [], ∅, rfl, rfl, .refl owned _⟩
  | succ rest ih =>
      have here : j < total := by omega
      have outside := range.outside here
      rw [← range.page here] at outside
      rcases allocateMemoryBody_spec owned outside (fed.head (allocateMemoryBody_logs ptr)) with
        ⟨mid, frame, tables, first, backed⟩ | ⟨t, stopped, preserved⟩
      · rw [range.page here] at backed
        have single := (BackedAll.cons backed (.refl backed.owned _)).preserves owned
        rcases ih (by omega) backed.owned (fed.tail first) with
          ⟨t, data, new, rests, size, all⟩ | ⟨t, stopped, preserved⟩
        · exact .inl ⟨t, frame :: data, _, (forPages_succ first).trans rests, by simp [size],
            .cons backed all⟩
        · refine .inr ⟨t, (forPages_succ first).trans stopped,
            (single.trans preserved).mono fun k member => ?_⟩
          simp only [Set.mem_union, Set.mem_Ico, List.length_singleton] at member ⊢
          omega
      · exact .inr ⟨t, bind_error stopped _, preserved.mono (Set.empty_subset _)⟩

end Backing

/-! ## Unmapping a range -/

/-- The frames owned by consecutive entries, in the order of the pages. -/
def ownedFrames (leaf : Nat → Nat) : Nat → Nat → List Nat
  | _, 0 => []
  | first, pages + 1 =>
      (if isAllocated (leaf first) then [entryFrame (leaf first)] else []) ++
        ownedFrames leaf (first + 1) pages

/-- Frames returned to a pool one after the other. -/
def returnFrames (pm : BlockMap) (frames : List Nat) : BlockMap := frames.foldl returnFrame pm

section Unmapping

variable {ptr total : Nat} {s : Machine}

theorem ownedFrames_congr {leaf other : Nat → Nat} {first pages : Nat}
    (same : ∀ k, first ≤ k → k < first + pages → leaf k = other k) :
    ownedFrames leaf first pages = ownedFrames other first pages := by
  induction pages generalizing first with
  | zero => rfl
  | succ pages ih =>
      rw [ownedFrames, ownedFrames, same first le_rfl (by omega),
        ih fun k above below => same k (by omega) (by omega)]

theorem forPages_unmaps (range : HeapRange ptr total) {rest j : Nat} (inside : j + rest = total)
    (owned : Owned s) :
    ∃ t, forPages (unmapMemoryBody ptr) rest (j * 4096) s = .ok () t ∧
      Rewritten s t (page ptr + j) (List.replicate rest 0) ∅ ∧ Owned t ∧ t.tableFrames =
        s.tableFrames ∧
      t.physicalMemory = returnFrames s.physicalMemory
        (ownedFrames s.leaf (page ptr + j) rest) := by
  induction rest generalizing j s with
  | zero => exact ⟨s, rfl, .refl s _, owned, rfl, rfl⟩
  | succ rest ih =>
      have here : j < total := by omega
      have outside := range.outside here
      obtain ⟨mid, first, edited, log, pool⟩ :=
        unmapPage_spec owned.tree
          (range.page here ▸ outside : Outside (page (addToPointer ptr (j * 4096))))
      rw [range.page here] at edited pool
      have kept := owned.cleared outside edited pool
      obtain ⟨t, rests, rewritten, final, logs, pools⟩ := ih (j := j + 1) (by omega) kept
      have same : ownedFrames mid.leaf (page ptr + (j + 1)) rest =
          ownedFrames s.leaf (page ptr + j + 1) rest := by
        refine ownedFrames_congr fun k above below => ?_
        obtain ⟨d, rfl⟩ : ∃ d, k = page ptr + d := ⟨k - page ptr, by omega⟩
        rw [edited.leaf _ (range.outside (by omega)), if_neg (by omega)]
      refine ⟨t, (forPages_succ first).trans rests, ?_, final, logs.trans log, ?_⟩
      · have joined := Rewritten.cons edited rewritten
        simpa [List.replicate_succ] using joined
      · rw [pools, same, pool, ownedFrames]
        split_ifs <;> rfl

/-- `unmapMemory` on a whole number of pages. -/
theorem unmapMemory_eq {address n pages : Nat} (nonnull : address ≠ 0)
    (size : (pageAlignUp ((address + n) % 2 ^ 64) + 2 ^ 64 - pageAlignDown address) % 2 ^ 64 =
      pages * 4096) :
    unmapMemory address n = (do
      forPages (unmapMemoryBody (pageAlignDown address)) pages 0
      virtualReturn (pageAlignDown address) (pages * 4096)) := by
  have whole : pages * 4096 / 4096 = pages := Nat.mul_div_cancel _ (by decide)
  simp only [unmapMemory, nonnull, ne_eq, not_false_eq_true, if_true, size, pageSize, whole]

end Unmapping

end Mykonos.Heap
