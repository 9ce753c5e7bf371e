import Mykonos.Paging.Tree

/-! # Effects of mapping and unmapping

`mapPage` and `unmapPage` as seen by code that only knows the leaf entry of each
page, which frames are tables, and the two pools. Everything above this module
uses these effects and never looks at a path again.
-/

namespace Mykonos.Paging

open Lib Memory

/-! ## Frames drawn for tables -/

/-- Frames taken from a pool one after the other, newest first. -/
inductive Takes : BlockMap → List Nat → BlockMap → Prop where
  | nothing (pm : BlockMap) : Takes pm [] pm
  | frame {pm mid : BlockMap} {frames : List Nat} :
      Takes pm frames mid → Takes pm ((allocateFrame mid).1 :: frames) (allocateFrame mid).2

theorem Takes.trans {pm mid last : BlockMap} {frames more : List Nat} (first : Takes pm frames mid)
    (second : Takes mid more last) : Takes pm (more ++ frames) last := by
  induction second with
  | nothing => exact first
  | frame _ ih => exact .frame ih

theorem Takes.inRange {pm next : BlockMap} {frames : List Nat} (h : Takes pm frames next)
    (words : pm.InRange) :
    next.InRange ∧ ∀ frame ∈ frames, frame < 2 ^ 52 := by
  induction h with
  | nothing => exact ⟨words, by simp⟩
  | frame _ ih =>
      obtain ⟨kept, bounded⟩ := ih
      obtain ⟨low, left⟩ := allocateFrame_inRange kept
      exact ⟨left, List.forall_mem_cons.mpr ⟨low, bounded⟩⟩

/-- The frames a computation has drawn for tables. -/
structure Drawn (s t : Machine) (new : List Nat) : Prop where
  log : t.tableFrames = new ++ s.tableFrames
  takes : Takes s.physicalMemory new t.physicalMemory

namespace Drawn

theorem refl (s : Machine) : Drawn s s [] := ⟨rfl, .nothing _⟩

theorem trans {s t u : Machine} {new more : List Nat} (first : Drawn s t new)
    (second : Drawn t u more) :
    Drawn s u (more ++ new) :=
  ⟨by rw [second.log, first.log, List.append_assoc], first.takes.trans second.takes⟩

end Drawn

/-- Whatever happens, the computation only draws frames for tables. -/
def Draws {α : Type} (x : Kernel α) : Prop := ∀ s, ∃ new, Drawn s (x.after s) new

theorem bind_ok {α β : Type} {x : Kernel α} {s t : Machine} {a : α} (h : x s = .ok a t)
    (f : α → Kernel β) :
    (x >>= f) s = f a t := by
  simp only [bind, EStateM.bind, h]

theorem ok_of_value {α : Type} {x : Kernel α} {s : Machine} {a : α} (h : x.value s = some a) :
    x s = .ok a (x.after s) := by
  simp only [Kernel.value, Kernel.after] at h ⊢
  cases here : x s with
  | ok b t =>
      rw [here] at h
      rw [Option.some.inj h]
  | error fault t =>
      rw [here] at h
      exact nomatch h

theorem bind_error {α β : Type} {x : Kernel α} {s t : Machine} {fault : Fault}
    (h : x s = .error fault t) (f : α → Kernel β) : (x >>= f) s = .error fault t := by
  simp only [bind, EStateM.bind, h]

theorem after_bind {α β : Type} (x : Kernel α) (f : α → Kernel β) (s : Machine) :
    (x >>= f).after s = match x s with
      | .ok a t => (f a).after t
      | .error _ t => t := by
  simp only [Kernel.after, bind, EStateM.bind]
  cases x s <;> rfl

namespace Draws

variable {α β : Type}

theorem pure (a : α) : Draws (Pure.pure a : Kernel α) := fun s => ⟨[], .refl s⟩

theorem throw (fault : Fault) : Draws (MonadExcept.throw fault : Kernel α) := fun s => ⟨[], .refl s⟩

theorem load (address : Nat) : Draws (load address) := by
  intro s
  refine ⟨[], ?_⟩
  simp only [Kernel.after, Paging.load]
  cases s.translate address <;> exact .refl s

theorem store (address value : Nat) : Draws (store address value) := by
  intro s
  refine ⟨[], ?_⟩
  simp only [Kernel.after, Paging.store]
  cases s.translate address <;> exact ⟨rfl, .nothing _⟩

theorem clearPage (address : Nat) : Draws (clearPage address) := by
  intro s
  refine ⟨[], ?_⟩
  simp only [Kernel.after, Paging.clearPage]
  cases s.translate address <;> exact ⟨rfl, .nothing _⟩

theorem allocatePageTable : Draws allocatePageTable :=
  fun s => ⟨[(allocateFrame s.physicalMemory).1], rfl, .frame (.nothing _)⟩

/-- What the first half of a computation has drawn stays drawn. -/
theorem onward {x : Kernel α} {f : α → Kernel β} {s : Machine} {new : List Nat}
    (first : Drawn s (x.after s) new) (second : ∀ a, Draws (f a)) :
    ∃ more, Drawn s ((x >>= f).after s) (more ++ new) := by
  rw [after_bind]
  simp only [Kernel.after] at first
  cases here : x s with
  | ok a t =>
      rw [here] at first
      obtain ⟨more, later⟩ := second a t
      exact ⟨more, first.trans later⟩
  | error fault t =>
      rw [here] at first
      exact ⟨[], first⟩

theorem bind {x : Kernel α} {f : α → Kernel β} (first : Draws x) (second : ∀ a, Draws (f a)) :
    Draws (x >>= f) := by
  intro s
  obtain ⟨new, drawn⟩ := first s
  obtain ⟨more, later⟩ := Draws.onward drawn second
  exact ⟨more ++ new, later⟩

theorem ite {c : Prop} [Decidable c] {x y : Kernel α} (yes : Draws x) (no : Draws y) :
    Draws (if c then x else y) := by
  split_ifs
  · exact yes
  · exact no

theorem provideTable (entry table : Nat) (create : Bool) :
    Draws (provideTable entry table create) :=
  (load entry).bind fun _ => .ite
    (.ite (allocatePageTable.bind fun link => (store entry link).bind fun _ =>
      (clearPage table).bind fun _ => pure true) (pure false))
    (pure true)

theorem getPageTableEntry (address : Nat) (create : Bool) :
    Draws (getPageTableEntry address create) :=
  (provideTable _ _ create).bind fun _ => .ite
    ((provideTable _ _ create).bind fun _ => .ite
      ((provideTable _ _ create).bind fun _ => .ite (pure _) (pure none)) (pure none)) (pure none)

/-- The second half of `mapPage`. -/
theorem storeEntry (entry : Option Nat) (value : Nat) :
    Draws (match entry with
      | some entry => Paging.store entry value
      | none => MonadExcept.throw (.pageFault 0)) := by
  cases entry with
  | some entry => exact store entry value
  | none => exact throw _

theorem mapPage (address target flags : Nat) (allocated cacheable : Bool) :
    Draws (mapPage address target flags allocated cacheable) :=
  (getPageTableEntry address true).bind fun entry => storeEntry entry _

end Draws

/-- The frames can all become tables. -/
structure FreshAll (s : Machine) (new : List Nat) : Prop where
  distinct : new.Nodup
  fresh : ∀ frame ∈ new, Fresh s frame

theorem FreshAll.later {s t : Machine} {new more : List Nat} (h : FreshAll s (more ++ new))
    (grown : Grown s t new) : FreshAll t more := by
  obtain ⟨distinct, -, apart⟩ := List.nodup_append.mp h.distinct
  refine ⟨distinct, fun frame member => ?_⟩
  obtain ⟨nonzero, bounded, unused⟩ := h.fresh frame (List.mem_append_left _ member)
  refine ⟨nonzero, bounded, ?_⟩
  rw [grown.isTable]
  rintro (used | again)
  · exact unused used
  · exact apart frame member frame again rfl

theorem FreshAll.earlier {s : Machine} {new more : List Nat} (h : FreshAll s (more ++ new)) :
    FreshAll s new :=
  ⟨(List.nodup_append.mp h.distinct).2.1,
    fun frame member => h.fresh frame (List.mem_append_right _ member)⟩

/-- The computation draws frames for tables and, when all of them are fresh,
    returns having created exactly those tables. -/
def Builds {α : Type} (x : Kernel α) (s : Machine) (Q : α → Machine → Prop) : Prop :=
  ∃ new, Drawn s (x.after s) new ∧
    (FreshAll s new → ∃ a t, x s = .ok a t ∧ Grown s t new ∧ Q a t)

namespace Builds

variable {α β : Type} {s : Machine}

theorem pure (tree : TableTree s) {Q : α → Machine → Prop} {a : α} (h : Q a s) :
    Builds (Pure.pure a : Kernel α) s Q :=
  ⟨[], .refl s, fun _ => ⟨a, s, rfl, .refl tree, h⟩⟩

theorem bind {x : Kernel α} {f : α → Kernel β} {P : α → Machine → Prop} {Q : β → Machine → Prop}
    (first : Builds x s P) (draws : ∀ a, Draws (f a))
    (second : ∀ a t, TableTree t → P a t → Builds (f a) t Q) : Builds (x >>= f) s Q := by
  obtain ⟨new, drawn, built⟩ := first
  by_cases fresh : FreshAll s new
  · obtain ⟨a, t, here, grown, held⟩ := built fresh
    obtain ⟨more, later, rest⟩ := second a t grown.tree held
    simp only [Kernel.after, here] at drawn
    refine ⟨more ++ new, ?_, fun all => ?_⟩
    · rw [after_bind, here]
      exact drawn.trans later
    · obtain ⟨b, u, there, grows, final⟩ := rest (all.later grown)
      exact ⟨b, u, by simp only [Bind.bind, EStateM.bind, here, there], grown.trans grows, final⟩
  · obtain ⟨more, later⟩ := Draws.onward drawn draws
    exact ⟨more ++ new, later, fun all => absurd all.earlier fresh⟩

/-- A missing table costs a frame, whatever becomes of it. -/
theorem draws_absent {entry table i parent : Nat} {path : List Nat} (tree : TableTree s)
    (shows : Shows entry table path i) (here : s.tableAt path = some parent)
    (absent : isPresent (s.slot path i) = false) :
    ∃ more, Drawn s ((provideTable entry table true).after s)
      (more ++ [(allocateFrame s.physicalMemory).1]) := by
  have value := load_ok ((shows.parent s tree.loop).trans here)
  rw [shows.word, ← Machine.slot_of_table here] at value
  have bit := (and_present_eq_zero _).mpr absent
  obtain ⟨link, taken, taking, paid⟩ : ∃ link taken, allocatePageTable s = .ok link taken ∧
      Drawn s taken [(allocateFrame s.physicalMemory).1] := ⟨_, _, rfl, rfl, .frame (.nothing _)⟩
  obtain ⟨more, drawn⟩ := (Draws.store entry link).bind
    (fun _ => (Draws.clearPage table).bind fun _ => Draws.pure true) taken
  refine ⟨more, ?_⟩
  rw [Paging.provideTable, after_bind, value]
  simp only [bit, if_true]
  rw [after_bind, taking]
  exact paid.trans drawn

/-- One level of the walk. -/
theorem provideTable {entry table i parent : Nat} {path : List Nat} (tree : TableTree s)
    (shows : Shows entry table path i) (extended : TablePath (path ++ [i]))
    (here : s.tableAt path = some parent) :
    Builds (provideTable entry table true) s fun made t =>
      made = true ∧ ∃ below, t.tableAt (path ++ [i]) = some below := by
  cases present : isPresent (s.slot path i) with
  | true =>
      refine ⟨[], ?_, fun _ => ⟨true, s, provideTable_present tree.loop shows present true,
        .refl tree, rfl, ?_⟩⟩
      · rw [Kernel.after, provideTable_present tree.loop shows present true]
        exact .refl s
      · exact ⟨_, by rw [Machine.tableAt_snoc]; exact child_some.mpr ⟨present, rfl⟩⟩
  | false =>
      have allowed := TablePath.shorter path i extended
      have top : path = [] → i ≠ 511 := by
        rintro rfl rfl
        exact extended.outside rfl
      by_cases fresh : Fresh s (allocateFrame s.physicalMemory).1
      · have made := provideTable_create tree shows allowed top here present fresh.bounded
        refine ⟨[(allocateFrame s.physicalMemory).1], ?_, fun _ => ⟨true, _, made,
          planted_grown tree allowed extended here present fresh.vacant, rfl, _,
          tableAt_planted_new tree allowed extended here present fresh.vacant⟩⟩
        rw [Kernel.after, made]
        exact ⟨rfl, .frame (.nothing _)⟩
      · obtain ⟨more, drawn⟩ := draws_absent tree shows here present
        exact ⟨_, drawn, fun all => absurd (all.fresh _ (by simp)) fresh⟩

end Builds

/-! ## Pages -/

/-- The virtual page of an address, a number below `2 ^ 36`. -/
def page (address : Nat) : Nat := address / 4096 % 2 ^ 36

/-- The slots that lead to the table with the entry of a page. -/
def leafPath (n : Nat) : List Nat := [n / 2 ^ 27, n / 2 ^ 18 % 512, n / 2 ^ 9 % 512]

/-- The entry the walk of a page ends in, zero where a table is missing. -/
def Machine.leaf (s : Machine) (n : Nat) : Nat := s.slot (leafPath n) (n % 512)

/-- The page is not in the recursive window. -/
def Outside (n : Nat) : Prop := n / 2 ^ 27 < 511

instance (n : Nat) : Decidable (Outside n) := inferInstanceAs (Decidable (_ < _))

theorem Outside.bounded {n : Nat} (outside : Outside n) : n < 2 ^ 36 := by
  unfold Outside at outside
  omega

theorem page_lt (address : Nat) : page address < 2 ^ 36 := Nat.mod_lt _ (by decide)

theorem slot_lt (n : Nat) : n % 512 < 512 := Nat.mod_lt n (by decide)

theorem walkPath_eq (address : Nat) :
    walkPath address = leafPath (page address) ++ [page address % 512] := by
  simp only [walkPath, leafPath, page, List.cons_append, List.nil_append, List.cons.injEq, and_true]
  omega

/-- Translation is the walk to the leaf entry. -/
theorem translate_eq (s : Machine) (address : Nat) :
    s.translate address = child (s.leaf (page address)) := by
  rw [Machine.translate, walkPath_eq, Machine.tableAt_snoc, Machine.leaf]

theorem leafPath_allowed {n : Nat} (outside : Outside n) : TablePath (leafPath n) := by
  unfold Outside at outside
  refine ⟨by simp [leafPath], ?_, ?_⟩
  · simp only [leafPath, List.forall_mem_cons, slot_lt, List.not_mem_nil, false_implies,
      implies_true, and_true]
    omega
  · simp only [leafPath, List.head?_cons, ne_eq, Option.some.injEq]
    omega

theorem leafPath_inj {n k : Nat} (path : leafPath n = leafPath k) (slot : n % 512 = k % 512) :
    n = k := by
  simp only [leafPath, List.cons.injEq, and_true] at path
  omega

/-! ## The way to a leaf entry -/

section Walk

variable {s : Machine} {address n : Nat}

/-- The address of the entry of a page in the window. -/
def entryAddress (n : Nat) : Nat :=
  pml1Entry (n / 2 ^ 27) (n / 2 ^ 18 % 512) (n / 2 ^ 9 % 512) (n % 512)

theorem translate_entryAddress (loop : child (s.memory s.cr3 511) = some s.cr3)
    (bounded : n < 2 ^ 36) :
    s.translate (entryAddress n) = s.tableAt (leafPath n) :=
  translate_window loop (by omega) (slot_lt _) (slot_lt _) (slot_lt _)

theorem entryAddress_word (n : Nat) : entryAddress n % 4096 / 8 = n % 512 := window_word (slot_lt n)

theorem pageIndices_page (address : Nat) :
    pageIndices address = (page address / 2 ^ 27, page address / 2 ^ 18 % 512,
      page address / 2 ^ 9 % 512, page address % 512) := by
  rw [pageIndices_eq]
  simp only [page, Prod.mk.injEq]
  omega

/-- The part of a path below the recursive slots it starts with. -/
def strip (path : List Nat) : List Nat := path.dropWhile (· == 511)

theorem tableAt_strip (loop : child (s.memory s.cr3 511) = some s.cr3) (path : List Nat) :
    s.tableAt (strip path) = s.tableAt path := by
  induction path with
  | nil => rfl
  | cons i path ih =>
      by_cases top : i = 511
      · subst top
        exact ih.trans (descend_loop loop path).symm
      · rw [strip, List.dropWhile_cons_of_neg (by simpa using top)]

theorem strip_allowed {path : List Nat} (short : path.length ≤ 3) (slots : ∀ i ∈ path, i < 512) :
    TablePath (strip path) := by
  refine ⟨(List.dropWhile_suffix _).length_le.trans short,
    fun i member => slots i ((List.dropWhile_suffix _).subset member), fun head => ?_⟩
  have below := List.head?_dropWhile_not (· == 511) path
  rw [strip] at head
  simp [head] at below

theorem strip_snoc_allowed {path : List Nat} {i : Nat} (short : path.length < 3)
    (slots : ∀ j ∈ path ++ [i], j < 512) (other : strip path = [] → i ≠ 511) :
    TablePath (strip path ++ [i]) := by
  have allowed :=
    strip_allowed (Nat.le_of_lt short) fun j member => slots j (List.mem_append_left _ member)
  refine ⟨?_, ?_, ?_⟩
  · have := (List.dropWhile_suffix (· == 511)).length_le.trans_lt short
    simpa [strip] using this
  · intro j member
    rcases List.mem_append.mp member with below | last
    · exact allowed.slots j below
    · exact slots j (List.mem_append_right _ last)
  · cases stripped : strip path with
    | nil => simpa using other stripped
    | cons j rest => simpa [stripped] using allowed.outside

theorem Shows.strip {entry table i : Nat} {path : List Nat} (shows : Shows entry table path i) :
    Shows entry table (strip path) i where
  word := shows.word
  parent s loop := (shows.parent s loop).trans (tableAt_strip loop path).symm
  below s loop := by
    rw [shows.below s loop, Machine.tableAt_snoc, Machine.tableAt_snoc, Machine.slot, Machine.slot,
      tableAt_strip loop]

/-- One level of the walk of any page, in the window or not. -/
theorem Builds.level {entry table i parent : Nat} {path : List Nat} (tree : TableTree s)
    (shows : Shows entry table path i) (short : path.length < 3)
    (slots : ∀ j ∈ path ++ [i], j < 512) (here : s.tableAt path = some parent) :
    Builds (Paging.provideTable entry table true) s fun made t =>
      made = true ∧ ∃ below, t.tableAt (path ++ [i]) = some below := by
  rw [← tableAt_strip tree.loop] at here
  by_cases looped : strip path = [] ∧ i = 511
  · obtain ⟨top, rfl⟩ := looped
    have slot : s.slot (strip path) 511 = s.memory s.cr3 511 := by
      rw [top]
      rfl
    have present : isPresent (s.slot (strip path) 511) = true := by
      rw [slot]
      exact (child_some.mp tree.loop).1
    have passed := provideTable_present tree.loop shows.strip present true
    refine ⟨[], ?_, fun _ => ⟨true, s, passed, .refl tree, rfl, s.cr3, ?_⟩⟩
    · rw [Kernel.after, passed]
      exact .refl s
    · rw [← shows.below s tree.loop, shows.strip.below s tree.loop, Machine.tableAt_snoc, slot]
      exact tree.loop
  · have extended := strip_snoc_allowed short slots fun top slot => looped ⟨top, slot⟩
    obtain ⟨new, drawn, built⟩ := Builds.provideTable tree shows.strip extended here
    refine ⟨new, drawn, fun fresh => ?_⟩
    obtain ⟨made, t, returned, grown, yes, below, found⟩ := built fresh
    refine ⟨made, t, returned, grown, yes, below, ?_⟩
    rw [← shows.below t grown.tree.loop, shows.strip.below t grown.tree.loop, found]

theorem getPageTableEntry_builds (tree : TableTree s) (address : Nat) :
    Builds (getPageTableEntry address true) s fun entry t =>
      entry = some (entryAddress (page address)) ∧ ∃ table, t.tableAt (leafPath (page address)) =
          some table := by
  have top : page address / 2 ^ 27 < 512 := by
    have := page_lt address
    omega
  simp only [getPageTableEntry, pageIndices_page]
  refine (Builds.level tree (shows_pml4 top) (by simp) (by simpa using top) rfl).bind
    (fun _ => .ite ((Draws.provideTable _ _ true).bind fun _ =>
      .ite ((Draws.provideTable _ _ true).bind fun _ => .ite (.pure _) (.pure none)) (.pure none))
        (.pure none))
    fun made t tree' found => ?_
  obtain ⟨rfl, one, found⟩ := found
  simp only [if_true]
  refine (Builds.level tree' (shows_pml3 top (slot_lt _)) (by simp)
    (by simpa [slot_lt] using top) found).bind
    (fun _ => .ite ((Draws.provideTable _ _ true).bind fun _ =>
      .ite (.pure _) (.pure none)) (.pure none))
    fun made t tree' found => ?_
  obtain ⟨rfl, two, found⟩ := found
  simp only [if_true]
  refine (Builds.level tree' (shows_pml2 top (slot_lt _) (slot_lt _)) (by simp)
    (by simpa [slot_lt] using top)
    found).bind
    (fun _ => .ite (.pure _) (.pure none)) fun made t tree' found => ?_
  obtain ⟨rfl, three, found⟩ := found
  simp only [if_true]
  exact Builds.pure tree' ⟨rfl, three, found⟩

theorem provideTable_looks {entry table i parent : Nat} {path : List Nat}
    (loop : child (s.memory s.cr3 511) = some s.cr3) (shows : Shows entry table path i)
    (here : s.tableAt path = some parent) :
    provideTable entry table false s = .ok (s.tableAt (path ++ [i])).isSome s := by
  rw [Machine.tableAt_snoc]
  cases present : isPresent (s.slot path i) with
  | true => rw [provideTable_present loop shows present, child_some.mpr ⟨present, rfl⟩,
      Option.isSome_some]
  | false => rw [provideTable_stop loop shows here present, child_none.mpr present,
      Option.isSome_none]

/-- Below a missing table there is none. -/
theorem tableAt_below {path : List Nat} (missing : s.tableAt path = none) (i : Nat) :
    s.tableAt (path ++ [i]) = none := by
  rw [Machine.tableAt_snoc, Machine.slot_of_none missing, child_zero]

/-- Looking for an entry without creating tables changes nothing. -/
theorem getPageTableEntry_finds (loop : child (s.memory s.cr3 511) = some s.cr3) (address : Nat) :
    getPageTableEntry address false s =
      .ok
        (if (s.tableAt (leafPath (page address))).isSome then some (entryAddress (page address))
        else none) s := by
  have top : page address / 2 ^ 27 < 512 := by
    have := page_lt address
    omega
  simp only [getPageTableEntry, pageIndices_page]
  rw [bind_ok (provideTable_looks loop (shows_pml4 top) rfl)]
  cases first : s.tableAt ([] ++ [page address / 2 ^ 27]) with
  | none =>
      have missing : s.tableAt (leafPath (page address)) = none :=
        tableAt_below (tableAt_below first _) _
      simp only [missing, Option.isSome_none, Bool.false_eq_true, if_false]
      rfl
  | some upper =>
      simp only [Option.isSome_some, if_true]
      rw [bind_ok (provideTable_looks loop (shows_pml3 top (slot_lt _)) first)]
      cases second : s.tableAt ([page address / 2 ^ 27] ++ [page address / 2 ^ 18 % 512]) with
      | none =>
          have missing : s.tableAt (leafPath (page address)) = none := tableAt_below second _
          simp only [missing, Option.isSome_none, Bool.false_eq_true, if_false]
          rfl
      | some middle =>
          simp only [Option.isSome_some, if_true]
          have three :
              provideTable _ _ false s = .ok (s.tableAt (leafPath (page address))).isSome s :=
            provideTable_looks loop (shows_pml2 top (slot_lt _) (slot_lt _)) second
          rw [bind_ok three]
          cases s.tableAt (leafPath (page address)) <;> rfl

end Walk

/-! ## Writing a leaf entry -/

section Write

variable {s : Machine} {n table : Nat}

/-- Only tables above the last level lie on the way to a table. -/
theorem tableAt_write_leaf (tree : TableTree s) (outside : Outside n)
    (here : s.tableAt (leafPath n) = some table) (i value : Nat) {path : List Nat}
    (allowed : TablePath path) :
    (s.write table i value).tableAt path = s.tableAt path := by
  refine descend_congr (P := TablePath) TablePath.shorter (fun p j node longer found => ?_) allowed
  have different : node ≠ table := by
    rintro rfl
    have same :=
      tree.unique p (leafPath n) node (TablePath.shorter p j longer)
        (leafPath_allowed outside) found here
    have := longer.short
    simp [same, leafPath] at this
  simp only [Machine.write, Function.update_of_ne different]

theorem write_leaf_tree (tree : TableTree s) (outside : Outside n)
    (here : s.tableAt (leafPath n) = some table) (i value : Nat) :
    TableTree (s.write table i value) := by
  have allowed := leafPath_allowed outside
  refine ⟨loop_write tree allowed (fun root => by simp [leafPath] at root) here value, ?_⟩
  intro path other found hp ho
  rw [tableAt_write_leaf tree outside here i value hp,
    tableAt_write_leaf tree outside here i value ho]
  exact tree.unique path other found hp ho

theorem write_leaf_slot (tree : TableTree s) (outside : Outside n)
    (here : s.tableAt (leafPath n) = some table) (i value : Nat) {path : List Nat}
    (allowed : TablePath path) (j : Nat) : (s.write table i value).slot path j = if path =
      leafPath n ∧ j = i then value else s.slot path j := by
  have same := tableAt_write_leaf tree outside here i value allowed
  cases found : s.tableAt path with
  | none =>
      have elsewhere : ¬ (path = leafPath n ∧ j = i) := by
        rintro ⟨rfl, -⟩
        rw [here] at found
        exact Option.some_ne_none _ found
      rw [if_neg elsewhere, Machine.slot_of_none (same.trans found), Machine.slot_of_none found]
  | some other =>
      rw [Machine.slot_of_table (same.trans found), Machine.slot_of_table found]
      by_cases there : other = table
      · subst there
        have path_eq :=
          tree.unique path (leafPath n) other allowed (leafPath_allowed outside) found here
        simp only [path_eq, true_and, Machine.write, Function.update_self, Function.update_apply]
      · have elsewhere : ¬ (path = leafPath n ∧ j = i) := by
          rintro ⟨rfl, -⟩
          exact there (Option.some.inj (found.symm.trans here))
        rw [if_neg elsewhere]
        simp only [Machine.write, Function.update_of_ne there]

end Write

/-! ## One page edited -/

/-- The second machine has the entry `value` at page `n` and the tables in `new`.
    Nothing else has changed, except that a new table shows up in the window. -/
structure Edited (s t : Machine) (n value : Nat) (new : List Nat) : Prop where
  tree : TableTree t
  cr3 : t.cr3 = s.cr3
  virtualMemory : t.virtualMemory = s.virtualMemory
  isTable : ∀ frame, t.IsTable frame ↔ s.IsTable frame ∨ frame ∈ new
  leaf : ∀ k, Outside k → t.leaf k = if k = n then value else s.leaf k
  window : ∀ k < 2 ^ 36, ¬ Outside k → t.leaf k = s.leaf k ∨
    isPresent (s.leaf k) = false ∧ ∃ frame ∈ new, frame < 2 ^ 52 ∧ t.leaf k = tableEntry frame
  memory : ∀ frame, frame ∉ new → ¬ s.IsTable frame → t.memory frame = s.memory frame

section Edit

variable {s t : Machine} {n table value : Nat} {new : List Nat}

theorem slot_window (tree : TableTree s) (path : List Nat) (i : Nat) :
    s.slot (511 :: path) i = s.slot path i := by
  simp only [Machine.slot, tree.window]

/-- A page of the window shows a slot above the last level. -/
theorem leaf_window {k : Nat} (bounded : k < 2 ^ 36) (inside : ¬ Outside k) :
    ∃ path, TablePath path ∧ path.length < 3 ∧ ∀ s, TableTree s →
    s.leaf k = s.slot path (k % 512) := by
  have top : k / 2 ^ 27 = 511 := by
    unfold Outside at inside
    omega
  have peel : ∀ s, TableTree s →
      s.leaf k = s.slot [k / 2 ^ 18 % 512, k / 2 ^ 9 % 512] (k % 512) := by
    intro s tree
    rw [Machine.leaf, leafPath, top, slot_window tree]
  by_cases second : k / 2 ^ 18 % 512 = 511
  · by_cases third : k / 2 ^ 9 % 512 = 511
    · refine ⟨[], .nil, by simp, fun s tree => ?_⟩
      rw [peel s tree, second, third, slot_window tree, slot_window tree]
    · refine ⟨[k / 2 ^ 9 % 512], ⟨by simp, by simp [slot_lt], by simpa using third⟩, by simp,
        fun s tree => ?_⟩
      rw [peel s tree, second, slot_window tree]
  · exact ⟨_, ⟨by simp, by simp [slot_lt], by simpa using second⟩, by simp, peel⟩

theorem Grown.edited (grown : Grown s t new) (tree : TableTree s) (outside : Outside n)
    (here : t.tableAt (leafPath n) = some table) (value : Nat) :
    Edited s (t.write table (n % 512) value) n value new where
  tree := write_leaf_tree grown.tree outside here _ value
  cr3 := grown.cr3
  virtualMemory := grown.virtualMemory
  isTable frame := by
    rw [← grown.isTable]
    refine exists_congr fun path => and_congr_right fun allowed => ?_
    rw [tableAt_write_leaf grown.tree outside here _ value allowed]
  leaf k valid := by
    have allowed := leafPath_allowed valid
    rw [Machine.leaf, write_leaf_slot grown.tree outside here _ value allowed]
    by_cases same : k = n
    · rw [if_pos ⟨congrArg leafPath same, congrArg (· % 512) same⟩, if_pos same]
    · rw [if_neg fun found => same (leafPath_inj found.1 found.2), if_neg same,
        grown.leaves _ _ allowed rfl, Machine.leaf]
  window k bounded inside := by
    obtain ⟨path, allowed, shallow, shown⟩ := leaf_window bounded inside
    have kept := write_leaf_tree grown.tree outside here (n % 512) value
    have elsewhere : ¬ (path = leafPath n ∧ k % 512 = n % 512) := by
      rintro ⟨rfl, -⟩
      simp [leafPath] at shallow
    rw [shown _ kept, shown s tree, write_leaf_slot grown.tree outside here _ value allowed,
      if_neg elsewhere]
    exact grown.uppers path _ allowed shallow
  memory frame outside unused := by
    have different : frame ≠ table := by
      rintro rfl
      exact ((grown.isTable frame).mp ⟨_, leafPath_allowed ‹Outside n›, here⟩).elim unused outside
    rw [← grown.memory frame outside unused]
    simp only [Machine.write, Function.update_of_ne different]

/-- With its frames for tables, `mapPage` writes one word of the table that ends up
    on the way to the page. -/
theorem mapPage_writes (tree : TableTree s) (address target flags : Nat)
    (allocated cacheable : Bool) :
    ∃ new, Drawn s ((mapPage address target flags allocated cacheable).after s) new ∧
      (FreshAll s new → ∃ t table, getPageTableEntry address true s =
        .ok (some (entryAddress (page address))) t ∧
        Grown s t new ∧ t.tableAt (leafPath (page address)) = some table ∧
        mapPage address target flags allocated cacheable s =
          .ok () (t.write table (page address % 512)
            (leafEntry target flags allocated cacheable))) := by
  obtain ⟨new, drawn, built⟩ := getPageTableEntry_builds tree address
  by_cases fresh : FreshAll s new
  · obtain ⟨_, t, found, grown, rfl, table, here⟩ := built fresh
    have storing := store_ok ((translate_entryAddress grown.tree.loop (page_lt address)).trans here)
      (leafEntry target flags allocated cacheable)
    rw [entryAddress_word] at storing
    have whole : mapPage address target flags allocated cacheable s = _ :=
      (bind_ok found _).trans storing
    simp only [Kernel.after, found] at drawn
    refine ⟨new, ?_, fun _ => ⟨t, table, found, grown, here, whole⟩⟩
    rw [Kernel.after, whole]
    exact ⟨drawn.log, drawn.takes⟩
  · obtain ⟨more, later⟩ := Draws.onward drawn fun entry => Draws.storeEntry entry _
    exact ⟨more ++ new, later, fun all => absurd all.earlier fresh⟩

/-- The specification of `mapPage`. -/
theorem mapPage_spec {address : Nat} (tree : TableTree s) (outside : Outside (page address))
    (target flags : Nat) (allocated cacheable : Bool) :
    ∃ new, Drawn s ((mapPage address target flags allocated cacheable).after s) new ∧
      (FreshAll s new → ∃ t, mapPage address target flags allocated cacheable s = .ok () t ∧
        Edited s t (page address) (leafEntry target flags allocated cacheable) new) := by
  obtain ⟨new, drawn, writes⟩ := mapPage_writes tree address target flags allocated cacheable
  refine ⟨new, drawn, fun fresh => ?_⟩
  obtain ⟨t, table, -, grown, here, whole⟩ := writes fresh
  exact ⟨_, whole, grown.edited tree outside here _⟩

theorem Grown.pool (tree : TableTree s) (pm : BlockMap) :
    Grown s { s with physicalMemory := pm } [] :=
  ⟨⟨tree.loop, tree.unique⟩, rfl, rfl, fun _ _ _ here => here, fun _ _ _ here => .inl here, by simp,
    fun _ _ _ _ => rfl, fun _ _ _ _ => .inl rfl, fun _ _ _ => rfl⟩

theorem Edited.refl (tree : TableTree s) (same : s.leaf n = value) : Edited s s n value [] where
  tree := tree
  cr3 := rfl
  virtualMemory := rfl
  isTable := by simp
  leaf k _ := by
    split_ifs with there
    · rw [there, same]
    · rfl
  window _ _ _ := .inl rfl
  memory _ _ _ := rfl

theorem unmapPage_absent {address : Nat} (loop : child (s.memory s.cr3 511) = some s.cr3)
    (here : s.tableAt (leafPath (page address)) = none) : unmapPage address s = .ok () s := by
  have finding := getPageTableEntry_finds loop address
  simp only [here, Option.isSome_none, Bool.false_eq_true, if_false] at finding
  rw [unmapPage, bind_ok finding]
  rfl

/-- With its table in place, the entry is read, its frame returned and the entry
    cleared. -/
theorem unmapPage_found {address : Nat} (loop : child (s.memory s.cr3 511) = some s.cr3)
    (here : s.tableAt (leafPath (page address)) = some table) (pm : BlockMap)
    (pool : pm = if isAllocated (s.leaf (page address)) then
      returnFrame s.physicalMemory (entryFrame (s.leaf (page address))) else s.physicalMemory) :
    unmapPage address s = store (entryAddress (page address)) 0
      { s with physicalMemory := pm } := by
  have finding := getPageTableEntry_finds loop address
  simp only [here, Option.isSome_some, if_true] at finding
  have loading := load_ok ((translate_entryAddress loop (page_lt address)).trans here)
  rw [entryAddress_word, ← Machine.slot_of_table here, ← Machine.leaf] at loading
  rw [unmapPage, bind_ok finding]
  simp only
  rw [bind_ok loading]
  cases owned : isAllocated (s.leaf (page address)) with
  | false =>
      simp only [owned, Bool.false_eq_true, if_false] at pool ⊢
      rw [pool]
  | true =>
      simp only [owned, if_true] at pool ⊢
      rw [pool]
      rfl

/-- The specification of `unmapPage`. -/
theorem unmapPage_spec {address : Nat} (tree : TableTree s) (outside : Outside (page address)) :
    ∃ t, unmapPage address s = .ok () t ∧ Edited s t (page address) 0 [] ∧ t.tableFrames =
      s.tableFrames ∧
      t.physicalMemory = if isAllocated (s.leaf (page address)) then
        returnFrame s.physicalMemory (entryFrame (s.leaf (page address)))
          else s.physicalMemory := by
  cases here : s.tableAt (leafPath (page address)) with
  | none =>
      have empty : s.leaf (page address) = 0 := Machine.slot_of_none here _
      exact ⟨s, unmapPage_absent tree.loop here, .refl tree empty, rfl,
        by simp [empty, isAllocated]⟩
  | some table =>
      obtain ⟨pm, pool⟩ : ∃ pm, pm = if isAllocated (s.leaf (page address)) then
        returnFrame s.physicalMemory (entryFrame (s.leaf (page address))) else s.physicalMemory :=
          ⟨_, rfl⟩
      have grown := Grown.pool tree pm
      have storing :=
        store_ok ((translate_entryAddress grown.tree.loop outside.bounded).trans here) 0
      rw [entryAddress_word] at storing
      refine ⟨_, (unmapPage_found tree.loop here pm pool).trans storing,
        grown.edited tree outside here 0, rfl, pool⟩

end Edit

end Mykonos.Paging
