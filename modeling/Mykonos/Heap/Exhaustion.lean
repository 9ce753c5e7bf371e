import Mykonos.Heap.Frames
import Mykonos.Paging.Refinement

/-! # Running out of frames for tables

`allocatePageTable` does not look at what `allocateFrame` returns, and an empty pool
returns zero. Frame zero then becomes a table, and where more tables are missing below,
it is cleared again under the feet of the walk.
-/

namespace Mykonos.Heap

open Lib Memory Paging

/-! ## Supply and demand -/

/-- Frame zero is neither a table nor in the pool. -/
structure Clean (s : Machine) : Prop extends Stocked s where
  nonzero : ¬ s.IsTable 0
  reserved : Disjoint (frameRange 0) s.physicalMemory.free

/-- How many of the tables on the way are missing, from the path on. -/
def missing (s : Machine) : List Nat → List Nat → Nat
  | _, [] => 0
  | path, i :: rest =>
      (if (s.tableAt (path ++ [i])).isSome then 0 else 1) + missing s (path ++ [i]) rest

/-- The pool has so many frames to give. -/
def Supplies : BlockMap → Nat → Prop
  | _, 0 => True
  | pm, count + 1 => (allocateFrame pm).1 ≠ 0 ∧ Supplies (allocateFrame pm).2 count

instance decidableSupplies : (pm : BlockMap) → (count : Nat) → Decidable (Supplies pm count)
  | _, 0 => isTrue trivial
  | pm, count + 1 => @instDecidableAnd _ _ _ (decidableSupplies (allocateFrame pm).2 count)

/-- No entry for a table names frame zero or the frame of another table, and those that
    are new name frames that came out of the pool. -/
structure Intact (s t : Machine) : Prop where
  clean : Clean t
  nonzero : ∀ path table, TablePath path → t.tableAt path = some table → table ≠ 0
  unique : ∀ path other table, TablePath path → TablePath other → t.tableAt path = some table →
    t.tableAt other = some table → path = other
  obtained : ∀ path table, TablePath path → t.tableAt path = some table →
    s.tableAt path = some table ∨ frameRange table ⊆ s.physicalMemory.free \ t.physicalMemory.free

/-- The call returns, or panics, with the tables in order. -/
def Survives (x : Kernel Unit) (s : Machine) : Prop :=
  (∃ t, x s = .ok () t ∧ Intact s t) ∨ ∃ message t, x s = .error (.kpanic message) t ∧ Intact s t

/-- Tables are where memory says. -/
theorem tableAt_congr {t u : Machine} (memory : u.memory = t.memory) (cr3 : u.cr3 = t.cr3)
    (path : List Nat) :
    u.tableAt path = t.tableAt path := by
  rw [Machine.tableAt, Machine.tableAt, memory, cr3]

section Missing

variable {s : Machine} {path : List Nat}

theorem missing_none (absent : s.tableAt path = none) (rest : List Nat) :
    missing s path rest = rest.length := by
  induction rest generalizing path with
  | nil => rfl
  | cons i rest ih =>
      have below := tableAt_below absent i
      rw [missing, below, ih below, List.length_cons, Nat.add_comm]
      rfl

/-- Below a table without entries every table is missing. -/
theorem missing_empty {table : Nat} (here : s.tableAt path = some table)
    (empty : ∀ j, s.memory table j = 0) (rest : List Nat) : missing s path rest = rest.length := by
  cases rest with
  | nil => rfl
  | cons j rest =>
      have below : s.tableAt (path ++ [j]) = none := by
        rw [Machine.tableAt_snoc, Machine.slot_of_table here, empty, child_zero]
      rw [missing, below, missing_none below, List.length_cons, Nat.add_comm]
      rfl

end Missing

/-! ## One level -/

/-- The machine has got tables, each in a frame out of the pool. -/
structure Built (s t : Machine) (new : List Nat) : Prop extends Grown s t new where
  clean : Clean t
  withdrawn : Withdrawn s.physicalMemory t.physicalMemory {frame | frame ∈ new}

/-- Frame zero is the table at the path, it has no entries, and the pool is empty. -/
structure Poisoned (s : Machine) (path : List Nat) : Prop where
  tree : TableTree s
  allowed : TablePath path
  below : path ≠ []
  here : s.tableAt path = some 0
  empty : ∀ j, s.memory 0 j = 0
  dry : allocateFrame s.physicalMemory = (0, s.physicalMemory)

section Level

variable {s t u : Machine} {entry table i parent : Nat} {path : List Nat} {new more : List Nat}

theorem Built.refl (clean : Clean s) : Built s s [] :=
  ⟨.refl clean.tree, clean, by simpa using Withdrawn.refl clean.wellFormed clean.aligned⟩

theorem Built.trans (first : Built s t new) (second : Built t u more) :
    Built s u (more ++ new) := by
  refine ⟨first.toGrown.trans second.toGrown, second.clean, ?_⟩
  refine (first.withdrawn.trans second.withdrawn).of_eq fun frame => ?_
  simp only [Set.mem_union, Set.mem_ofPred_eq, List.mem_append, or_comm]

/-- A new table has no entries. -/
theorem planted_empty (s : Machine) (parent i j : Nat) :
    (planted s parent i).memory (allocateFrame s.physicalMemory).1 j = 0 := by
  simp only [planted, plant, Function.update_self]

theorem zero_lt_pages : 0 < 2 ^ 52 := by decide

/-- A frame out of the pool makes a good table. -/
theorem Clean.plant (clean : Clean s) (extended : TablePath (path ++ [i]))
    (here : s.tableAt path = some parent) (absent : isPresent (s.slot path i) = false)
    (found : (allocateFrame s.physicalMemory).1 ≠ 0) :
    Built s (planted s parent i) [(allocateFrame s.physicalMemory).1] := by
  have allowed := TablePath.shorter path i extended
  have withdrawn := allocateFrame_withdrawn clean.wellFormed clean.aligned found
  have taken := withdrawn.taken _ rfl
  have vacant : Vacant s (allocateFrame s.physicalMemory).1 := ⟨withdrawn.frame_lt rfl, fun used =>
    Set.disjoint_left.mp (clean.tables _ used) (frame_mem _) (taken (frame_mem _))⟩
  have grown := planted_grown clean.tree allowed extended here absent vacant
  refine ⟨grown, ⟨⟨grown.tree, withdrawn.wellFormed, withdrawn.aligned, fun frame used => ?_⟩, ?_,
    ?_⟩, ?_⟩
  · rcases (grown.isTable frame).mp used with old | fresh
    · exact (clean.tables frame old).mono_right withdrawn.subset
    · exact withdrawn.gone (List.mem_singleton.mp fresh)
  · rw [grown.isTable, List.mem_singleton]
    rintro (old | zero)
    · exact clean.nonzero old
    · exact found zero.symm
  · exact clean.reserved.mono_right withdrawn.subset
  · exact withdrawn.of_eq fun frame => List.mem_singleton.symm

/-- Without a frame in the pool frame zero becomes the table. -/
theorem Clean.poison (clean : Clean s) (extended : TablePath (path ++ [i]))
    (here : s.tableAt path = some parent) (absent : isPresent (s.slot path i) = false)
    (empty : (allocateFrame s.physicalMemory).1 = 0) :
    Poisoned (planted s parent i) (path ++ [i]) := by
  have allowed := TablePath.shorter path i extended
  have vacant : Vacant s (allocateFrame s.physicalMemory).1 := by
    rw [empty]
    exact ⟨zero_lt_pages, clean.nonzero⟩
  have dry : allocateFrame s.physicalMemory = (0, s.physicalMemory) := by
    rcases allocateFrame_spec clean.wellFormed clean.aligned with ⟨-, same⟩ | ⟨granted, -⟩
    · exact same
    · have zero := granted.taken
      rw [empty] at zero
      exact absurd (zero (frame_mem 0)) (Set.disjoint_left.mp clean.reserved (frame_mem 0))
  have placed := tableAt_planted_new clean.tree allowed extended here absent vacant
  rw [empty] at placed
  have zeros := planted_empty s parent i
  rw [empty] at zeros
  refine ⟨planted_tree clean.tree allowed extended here absent vacant, extended, by simp,
    placed, zeros, ?_⟩
  simp only [planted, dry]

/-- Making sure that one table is there. -/
theorem Clean.provideTable (clean : Clean s) (shows : Shows entry table path i)
    (extended : TablePath (path ++ [i])) (here : s.tableAt path = some parent) (rest : List Nat) :
    (∃ t new below, Paging.provideTable entry table true s = .ok true t ∧ Built s t new ∧
      t.tableAt (path ++ [i]) = some below ∧
      (Supplies t.physicalMemory (missing t (path ++ [i]) rest) ↔
        Supplies s.physicalMemory (missing s path (i :: rest)))) ∨
    (¬ Supplies s.physicalMemory (missing s path (i :: rest)) ∧
      ∃ t, Paging.provideTable entry table true s = .ok true t ∧ Poisoned t (path ++ [i])) := by
  have allowed := TablePath.shorter path i extended
  cases present : isPresent (s.slot path i) with
  | true =>
      have found : s.tableAt (path ++ [i]) = some (entryFrame (s.slot path i)) := by
        rw [Machine.tableAt_snoc]
        exact child_some.mpr ⟨present, rfl⟩
      refine .inl ⟨s, [], _, provideTable_present clean.tree.loop shows present true,
        .refl clean, found, ?_⟩
      rw [missing, found, Option.isSome_some, if_pos rfl, Nat.zero_add]
  | false =>
      have absent : s.tableAt (path ++ [i]) = none := by
        rw [Machine.tableAt_snoc]
        exact child_none.mpr present
      have demand : missing s path (i :: rest) = rest.length + 1 := by
        rw [missing, absent, missing_none absent, Nat.add_comm]
        rfl
      have top : path = [] → i ≠ 511 := by
        rintro rfl rfl
        exact extended.outside rfl
      by_cases empty : (allocateFrame s.physicalMemory).1 = 0
      · refine .inr ⟨?_, planted s parent i,
          provideTable_create clean.tree shows allowed top here present ?_,
          clean.poison extended here present empty⟩
        · rw [demand]
          exact fun supplies => supplies.1 empty
        · rw [empty]
          exact zero_lt_pages
      · have built := clean.plant extended here present empty
        have bounded :=
          built.withdrawn.frame_lt (List.mem_singleton_self (allocateFrame s.physicalMemory).1)
        have vacant : Vacant s (allocateFrame s.physicalMemory).1 := ⟨bounded, fun used =>
          Set.disjoint_left.mp (clean.tables _ used) (frame_mem _)
            (built.withdrawn.taken _ (List.mem_singleton_self _) (frame_mem _))⟩
        have placed := tableAt_planted_new clean.tree allowed extended here present vacant
        refine .inl ⟨_, _, _, provideTable_create clean.tree shows allowed top here present bounded,
          built, placed, ?_⟩
        rw [missing_empty placed (planted_empty s parent i), demand]
        exact ⟨fun supplies => ⟨empty, supplies⟩, fun supplies => supplies.2⟩

/-- The next table below is put into frame zero too, and clearing it wipes out the entry
    that leads to it. -/
theorem Poisoned.provideTable (poisoned : Poisoned s path) (shows : Shows entry table path i)
    (allowed : TablePath path) :
    ∃ t, Paging.provideTable entry table true s = .ok true t ∧ t.memory = s.memory ∧
    t.cr3 = s.cr3 := by
  have absent : isPresent (s.slot path i) = false := by
    rw [Machine.slot_of_table poisoned.here, poisoned.empty]
    decide
  have top : path = [] → i ≠ 511 := fun none => absurd none poisoned.below
  have bounded : (allocateFrame s.physicalMemory).1 < 2 ^ 52 := by
    rw [poisoned.dry]
    exact zero_lt_pages
  refine ⟨planted s 0 i, provideTable_create poisoned.tree shows allowed top poisoned.here absent
    bounded, ?_, rfl⟩
  funext frame
  by_cases zero : frame = 0
  · subst zero
    funext j
    have cleared := planted_empty s 0 i j
    rw [poisoned.dry] at cleared
    rw [cleared, poisoned.empty]
  · simp only [planted, poisoned.dry, plant, Function.update_of_ne zero]

/-- Nothing is below frame zero. -/
theorem Poisoned.cut (poisoned : Poisoned s path) (i : Nat) : s.tableAt (path ++ [i]) = none := by
  rw [Machine.tableAt_snoc, Machine.slot_of_table poisoned.here, poisoned.empty, child_zero]

/-- Then the table after that cannot be reached. -/
theorem Poisoned.fault {j : Nat} (poisoned : Poisoned s path)
    (shows : Shows entry table (path ++ [i]) j) (memory : t.memory = s.memory)
    (cr3 : t.cr3 = s.cr3) :
    Paging.provideTable entry table true t = .error (.pageFault entry) t := by
  have loop : child (t.memory t.cr3 511) = some t.cr3 := by
    rw [memory, cr3]
    exact poisoned.tree.loop
  have unreachable : t.translate entry = none := by
    rw [shows.parent t loop, tableAt_congr memory cr3, poisoned.cut]
  have loading : load entry t = .error (.pageFault entry) t := by
    simp only [load, unreachable]
  rw [Paging.provideTable, bind_error loading]

end Level

/-! ## The whole walk -/

section Walk

variable {s : Machine} {address : Nat}

/-- How the walk to a leaf entry ends, by where the pool was found empty: nowhere, at the
    last level, in the middle or at the first one. -/
inductive Walked (s : Machine) (address : Nat) : Prop where
  | built {t : Machine} {new : List Nat} {table : Nat}
      (enough : Supplies s.physicalMemory (missing s [] (leafPath (page address))))
      (returned : getPageTableEntry address true s = .ok (some (entryAddress (page address))) t)
      (built : Built s t new) (here : t.tableAt (leafPath (page address)) = some table)
  | poisoned {t : Machine}
      (short : ¬ Supplies s.physicalMemory (missing s [] (leafPath (page address))))
      (returned : getPageTableEntry address true s = .ok (some (entryAddress (page address))) t)
      (poisoned : Poisoned t (leafPath (page address)))
  | wiped {t : Machine} {path : List Nat}
      (short : ¬ Supplies s.physicalMemory (missing s [] (leafPath (page address))))
      (returned : getPageTableEntry address true s = .ok (some (entryAddress (page address))) t)
      (allowed : TablePath path) (here : t.tableAt path = some 0)
      (unreachable : t.translate (entryAddress (page address)) = none)
  | faulted {t : Machine} {fault : Nat} {path : List Nat}
      (short : ¬ Supplies s.physicalMemory (missing s [] (leafPath (page address))))
      (returned : getPageTableEntry address true s = .error (.pageFault fault) t)
      (allowed : TablePath path) (here : t.tableAt path = some 0)

theorem getPageTableEntry_returns {t u v : Machine}
    (first : provideTable (pml4Entry (page address / 2 ^ 27)) (pml3Table (page address / 2 ^ 27))
      true s = .ok true t)
    (second : provideTable (pml3Entry (page address / 2 ^ 27) (page address / 2 ^ 18 % 512))
      (pml2Table (page address / 2 ^ 27) (page address / 2 ^ 18 % 512)) true t = .ok true u)
    (third : provideTable
      (pml2Entry (page address / 2 ^ 27) (page address / 2 ^ 18 % 512) (page address / 2 ^ 9 % 512))
      (pml1Table (page address / 2 ^ 27) (page address / 2 ^ 18 % 512) (page address / 2 ^ 9 % 512))
      true u =
        .ok true v) :
    getPageTableEntry address true s = .ok (some (entryAddress (page address))) v := by
  simp only [getPageTableEntry, pageIndices_page]
  rw [bind_ok first]
  simp only [if_true]
  rw [bind_ok second]
  simp only [if_true]
  rw [bind_ok third]
  rfl

/-- The three levels one after the other. The first that finds the pool empty decides. -/
theorem Clean.walked (clean : Clean s) (outside : Outside (page address)) : Walked s address := by
  have top : page address / 2 ^ 27 < 512 := Nat.lt_succ_of_lt outside
  have deep := leafPath_allowed outside
  have middle := TablePath.shorter [_, _] _ deep
  have upper := TablePath.shorter [_] _ middle
  have pml3 := shows_pml3 top (slot_lt (page address / 2 ^ 18))
  have pml2 := shows_pml2 top (slot_lt (page address / 2 ^ 18)) (slot_lt (page address / 2 ^ 9))
  rcases clean.provideTable (shows_pml4 top) upper rfl [page address / 2 ^ 18 % 512,
      page address / 2 ^ 9 % 512] with
    ⟨t, new, _, first, built, here, supplies⟩ | ⟨short, t, first, poisoned⟩
  · rcases built.clean.provideTable pml3 middle here [page address / 2 ^ 9 % 512] with
      ⟨u, new', _, second, built', here', supplies'⟩ | ⟨short, u, second, poisoned⟩
    · rcases built'.clean.provideTable pml2 deep here' [] with
        ⟨v, new'', _, third, built'', here'', supplies''⟩ | ⟨short, v, third, poisoned⟩
      · exact .built (supplies.mp (supplies'.mp (supplies''.mp trivial)))
          (getPageTableEntry_returns first second third) ((built.trans built').trans built'') here''
      · exact .poisoned (fun enough => short (supplies'.mpr (supplies.mpr enough)))
          (getPageTableEntry_returns first second third) poisoned
    · obtain ⟨v, third, memory, cr3⟩ := poisoned.provideTable pml2 middle
      refine .wiped (fun enough => short (supplies.mpr enough))
        (getPageTableEntry_returns first second third) middle
        ((tableAt_congr memory cr3 _).trans poisoned.here) ?_
      have loop : child (v.memory v.cr3 511) = some v.cr3 := by
        rw [memory, cr3]
        exact poisoned.tree.loop
      rw [translate_entryAddress loop outside.bounded, tableAt_congr memory cr3]
      exact poisoned.cut _
  · obtain ⟨u, second, memory, cr3⟩ := poisoned.provideTable pml3 upper
    obtain ⟨fault, third⟩ : ∃ fault, Paging.provideTable
        (pml2Entry (page address / 2 ^ 27) (page address / 2 ^ 18 % 512)
          (page address / 2 ^ 9 % 512))
        (pml1Table (page address / 2 ^ 27) (page address / 2 ^ 18 % 512)
          (page address / 2 ^ 9 % 512)) true u =
          .error (.pageFault fault) u := ⟨_, poisoned.fault pml2 memory cr3⟩
    have returned : getPageTableEntry address true s = .error (.pageFault fault) u := by
      simp only [getPageTableEntry, pageIndices_page]
      rw [bind_ok first]
      simp only [if_true]
      rw [bind_ok second]
      simp only [if_true]
      exact bind_error third _
    exact .faulted short returned upper ((tableAt_congr memory cr3 _).trans poisoned.here)

variable {target flags : Nat} {allocated cacheable : Bool}

/-- With all the frames it needs, the mapping leaves the tables in order. -/
theorem Built.mapPage_intact {t : Machine} {new : List Nat} {table : Nat} (built : Built s t new)
    (outside : Outside (page address))
    (returned : getPageTableEntry address true s = .ok (some (entryAddress (page address))) t)
    (here : t.tableAt (leafPath (page address)) = some table) :
    ∃ u, mapPage address target flags allocated cacheable s = .ok () u ∧ Intact s u := by
  have storing := store_ok ((translate_entryAddress built.tree.loop outside.bounded).trans here)
    (leafEntry target flags allocated cacheable)
  rw [entryAddress_word] at storing
  have same :=
    fun (path : List Nat) (inside : TablePath path) => tableAt_write_leaf built.tree outside here
    (page address % 512) (leafEntry target flags allocated cacheable) inside
  have isTable : ∀ frame, (t.write table (page address % 512)
      (leafEntry target flags allocated cacheable)).IsTable frame ↔ t.IsTable frame := fun frame =>
    exists_congr fun path => and_congr_right fun inside => by rw [same path inside]
  have clean := built.clean
  have tree :=
    write_leaf_tree built.tree outside here (page address % 512)
      (leafEntry target flags allocated cacheable)
  refine ⟨_, (bind_ok returned _).trans storing,
    ⟨⟨tree, clean.wellFormed, clean.aligned, fun frame used => ?_⟩, ?_,
    clean.reserved⟩, fun path found inside there zero => ?_, tree.unique,
    fun path found inside there => ?_⟩
  · exact clean.tables frame ((isTable frame).mp used)
  · rw [isTable]
    exact clean.nonzero
  · rw [same path inside, zero] at there
    exact clean.nonzero ⟨path, inside, there⟩
  · rw [same path inside] at there
    refine (built.created path found inside there).imp_right fun fresh a held => ⟨?_, ?_⟩
    · exact built.withdrawn.taken found fresh.2 held
    · exact Set.disjoint_left.mp (built.withdrawn.gone fresh.2) held

/-- However far it comes, the mapping leaves frame zero as a table. -/
theorem Walked.leaves_zero (walked : Walked s address) (outside : Outside (page address))
    (short : ¬ Supplies s.physicalMemory (missing s [] (leafPath (page address)))) :
    ∃ path, TablePath path ∧
      ((mapPage address target flags allocated cacheable).after s).tableAt path = some 0 := by
  cases walked with
  | built enough => exact absurd enough short
  | @poisoned t _ returned poisoned =>
      have storing :=
        store_ok ((translate_entryAddress poisoned.tree.loop outside.bounded).trans poisoned.here)
        (leafEntry target flags allocated cacheable)
      have whole : mapPage address target flags allocated cacheable s = _ :=
        (bind_ok returned _).trans storing
      refine ⟨_, poisoned.allowed, ?_⟩
      rw [Kernel.after, whole]
      exact (tableAt_write_leaf poisoned.tree outside poisoned.here _ _ poisoned.allowed).trans
        poisoned.here
  | @wiped t path _ returned allowed' here unreachable =>
      have storing :
          store (entryAddress (page address)) (leafEntry target flags allocated cacheable) t =
          .error (.pageFault (entryAddress (page address))) t := by
        simp only [store, unreachable]
      have whole : mapPage address target flags allocated cacheable s = _ :=
        (bind_ok returned _).trans storing
      refine ⟨path, allowed', ?_⟩
      rw [Kernel.after, whole]
      exact here
  | @faulted t fault path _ returned allowed' here =>
      have whole : mapPage address target flags allocated cacheable s = _ := bind_error returned _
      refine ⟨path, allowed', ?_⟩
      rw [Kernel.after, whole]
      exact here

/-- Mapping a page leaves the tables in order exactly when the pool has a frame for each
    table that is missing on the way. -/
theorem mapPage_survives_iff (clean : Clean s) (outside : Outside (page address)) :
    Survives (mapPage address target flags allocated cacheable) s ↔
      Supplies s.physicalMemory (missing s [] (leafPath (page address))) := by
  have walked := clean.walked outside
  constructor
  · intro survives
    by_contra short
    obtain ⟨path, inside, zero⟩ := walked.leaves_zero outside short
    rcases survives with ⟨t, returned, intact⟩ | ⟨message, t, panicked, intact⟩
    · rw [Kernel.after, returned] at zero
      exact intact.nonzero path 0 inside zero rfl
    · rw [Kernel.after, panicked] at zero
      exact intact.nonzero path 0 inside zero rfl
  · intro enough
    cases walked with
    | built _ returned built here => exact .inl (built.mapPage_intact outside returned here)
    | poisoned short => exact absurd enough short
    | wiped short => exact absurd enough short
    | faulted short => exact absurd enough short

end Walk

/-- The machine with nothing mapped and the frames below an address. -/
def framesBelow (finish : Nat) : Machine :=
  { bareMachine with physicalMemory := ⟨[⟨0x2000, finish⟩]⟩ }

theorem framesBelow_clean {finish : Nat} (aligned : finish % 4096 = 0) (above : 0x2000 ≤ finish)
    (low : finish < 2 ^ 64) : Clean (framesBelow finish) := by
  have outside :
      ∀ frame < 2, Disjoint (frameRange frame) (framesBelow finish).physicalMemory.free := by
    intro frame small
    refine Set.disjoint_left.mpr ?_
    rintro a ⟨-, below⟩ ⟨b, member, above, -⟩
    rw [List.mem_singleton.mp member] at above
    simp only at above
    omega
  refine ⟨⟨⟨bareMachine_tree.loop, bareMachine_tree.unique⟩,
    ⟨⟨?_, fun b member => ?_⟩, List.pairwise_singleton _ _⟩, ?_, fun frame used => ?_⟩,
    fun used => ?_, outside 0 (by decide)⟩
  · simp [framesBelow, BlockMap.numBlocks, blockMapSize]
  · rw [List.mem_singleton.mp member]
    exact ⟨above, low⟩
  · simpa [framesBelow, BlockMap.Aligned, BlockMap.Ends] using aligned
  · rw [(bareMachine_isTable frame).mp used]
    exact outside 1 (by decide)
  · exact absurd ((bareMachine_isTable 0).mp used) (by decide)

/-- Three tables are missing, and three frames are enough. -/
theorem threeFrames_survive :
    Survives (mapPage 0 0x9000 PageTableFlags.writable false true) (framesBelow 0x5000) :=
  (mapPage_survives_iff (framesBelow_clean (by decide) (by decide) (by decide)) (by decide)).mpr
    (by decide +kernel)

/-- With two frames the last table is frame zero, and nobody notices. -/
theorem twoFrames_corrupted :
    Clean (framesBelow 0x4000) ∧
    (mapPage 0 0x9000 PageTableFlags.writable false true).value (framesBelow 0x4000) = some () ∧
    ((mapPage 0 0x9000 PageTableFlags.writable false true).after (framesBelow 0x4000)).tableAt [0,
      0, 0] = some 0 ∧
    ¬ Survives (mapPage 0 0x9000 PageTableFlags.writable false true) (framesBelow 0x4000) := by
  have clean : Clean (framesBelow 0x4000) := framesBelow_clean (by decide) (by decide) (by decide)
  have returned : (mapPage 0 0x9000 PageTableFlags.writable false true).value (framesBelow 0x4000) =
      some () := by
    decide +kernel
  have zero :
      ((mapPage 0 0x9000 PageTableFlags.writable false true).after (framesBelow 0x4000)).tableAt [0,
        0, 0] =
      some 0 := by
    decide +kernel
  refine ⟨clean, returned, zero, fun survives => ?_⟩
  have ok := ok_of_value returned
  rcases survives with ⟨t, found, intact⟩ | ⟨message, t, panicked, -⟩
  · rw [found] at ok
    injection ok with _ same
    exact intact.nonzero [0, 0, 0] 0 ⟨by decide, by decide, by decide⟩ (same ▸ zero) rfl
  · rw [panicked] at ok
    cases ok

end Mykonos.Heap
