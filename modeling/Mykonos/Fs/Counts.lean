import Mykonos.Fs.Paths
import Mykonos.Lib.Run

/-! # How many handles are open on a node

Over a tree whose directories keep their children, the count of a node is the number of the
handles that are open on it, along every run of opens and closes.
-/

namespace Mykonos.Fs

open Lib Util

/-- The handles that have been opened on the node, and not been closed. -/
def openOn (handles : List FileHandle) (place : Nat × Nat) : Nat :=
  handles.countP fun handle => handle.open ∧ handle.node = some place

/-- The calls that open and close handles. -/
def OpensOrCloses : Op → Prop
  | .openPath _ _ | .openChild _ _ _ | .close _ => True
  | .childName _ _ | .findChild _ _ | .mount _ _ => False

instance : (op : Op) → Decidable (OpensOrCloses op)
  | .openPath _ _ | .openChild _ _ _ | .close _ => inferInstanceAs (Decidable True)
  | .childName _ _ | .findChild _ _ | .mount _ _ => inferInstanceAs (Decidable False)

def CountedStep (memory : Nat → UInt8) (s : Vfs) (op : Op) (s' : Vfs) : Prop :=
  OpensOrCloses op ∧ s.step memory op = some s'

/-- Closing the handle would take the count of its node below zero. -/
def Underflows (handle : FileHandle) (store : Store FileNode) : Prop :=
  ∃ place node, handle.open = true ∧ handle.node = some place ∧ store.read place = some node ∧
    node.openCount = 0

/-- What the runs keep. -/
structure Exact (memory : Nat → UInt8) (s : Vfs) : Prop where
  tree : FixedTree memory s.store
  counts : ∀ place node, s.store.read place = some node →
    node.openCount = openOn s.handles place % 2 ^ 64
  live : ∀ handle ∈ s.handles, ∀ place, handle.node = some place →
    ∃ node, s.store.read place = some node
  isOpen : ∀ handle ∈ s.handles, ∀ place, handle.node = some place → handle.open = true

/-- The counts of the nodes are right, with what follows from it. Fewer than 2^64 handles are
    around as long as memory lasts. -/
structure OpenCounts (memory : Nat → UInt8) (s : Vfs) : Prop where
  counts : ∀ place node, s.store.read place = some node →
    node.openCount = openOn s.handles place % 2 ^ 64
  exactly : s.handles.length + 2 < 2 ^ 64 → ∀ place node, s.store.read place = some node →
    node.openCount = openOn s.handles place
  pathFails : ∀ path writable handle store', FileHandle.ofPath memory path writable s.store =
    some (handle, store') → handle.open = false → store' = s.store
  childFails : ∀ handle ∈ s.handles, ∀ index writable handle' store' result,
    handle.openChild memory index writable s.store = some (handle', store', result) →
    result.open = false →
      store' = s.store
  noUnderflow : s.handles.length + 2 < 2 ^ 64 → ∀ handle ∈ s.handles, ¬ Underflows handle s.store
  noUnderflowOnPath : s.handles.length + 2 < 2 ^ 64 → ∀ path,
    ∀ sub ∈ FileHandle.pathTrace memory path s.store, sub.1 = .close → ¬ Underflows sub.2.1 sub.2.2
  mounts : s.handles.length + 2 < 2 ^ 64 →
    ∀ handle ∈ s.handles, ∀ place node fsProvider, handle.writable = true →
    handle.node = some place → s.store.read place = some node → node.type = .directory →
    node.children.size = 0 →
      handle.mount fsProvider s.store =
        if openOn s.handles place = 1 then
          some (handle, s.store.modify place fun _ => FileHandle.mountedNode fsProvider node)
        else some ({ handle with error := .busy }, s.store)

section Counting

variable {memory : Nat → UInt8} {s s' : Vfs} {place : Nat × Nat}
  {handle handle' : FileHandle} {i : Nat}

theorem openOn_append (handles : List FileHandle) (handle : FileHandle) (place : Nat × Nat) :
    openOn (handles ++ [handle]) place =
      openOn handles place + if handle.open ∧ handle.node = some place then 1 else 0 := by
  rw [openOn, List.countP_append, List.countP_singleton]
  simp only [decide_eq_true_eq]
  rfl

theorem openOn_set {handles : List FileHandle} (here : handles[i]? = some handle)
    (handle' : FileHandle) (place : Nat × Nat) :
    openOn (handles.set i handle') place +
      (if handle.open ∧ handle.node = some place then 1 else 0) =
      openOn handles place + if handle'.open ∧ handle'.node = some place then 1 else 0 := by
  obtain ⟨below, rfl⟩ := List.getElem?_eq_some_iff.mp here
  have counted : (if handles[i].open ∧ handles[i].node = some place then 1 else 0) ≤
      openOn handles place := by
    split
    · rename_i found
      exact List.countP_pos_iff.mpr ⟨_, List.getElem_mem below, decide_eq_true found⟩
    · exact Nat.zero_le _
  rw [openOn, List.countP_set below]
  simp only [decide_eq_true_eq]
  rw [openOn] at counted ⊢
  omega

/-- A call on a handle that keeps its node changes no number. -/
theorem openOn_settle {handles : List FileHandle} (here : handles[i]? = some handle)
    (isOpen : handle'.open = handle.open) (node : handle'.node = handle.node) (place : Nat × Nat) :
    openOn (handles.set i handle') place = openOn handles place := by
  have parts := openOn_set here handle' place
  rw [isOpen, node] at parts
  omega

/-- A handle without a node comes in. -/
theorem Exact.append_shut (inv : Exact memory s) (shut : handle.node = none) :
    Exact memory ⟨s.store, s.handles ++ [handle]⟩ := by
  refine ⟨inv.tree, fun place node live => ?_, fun other member place on => ?_,
    fun other member place on => ?_⟩
  · rw [openOn_append, if_neg (by rw [shut]; rintro ⟨_, ⟨⟩⟩)]
    exact inv.counts place node live
  · rcases List.mem_append.mp member with old | new
    · exact inv.live other old place on
    · rw [List.mem_singleton.mp new, shut] at on
      cases on
  · rcases List.mem_append.mp member with old | new
    · exact inv.isOpen other old place on
    · rw [List.mem_singleton.mp new, shut] at on
      cases on

/-- A handle is opened. -/
theorem Exact.append_open (inv : Exact memory s) {value : FileNode}
    (there : s.store.read place = some value) (writable : Bool) (error : FileError) :
    Exact memory ⟨opened place s.store, s.handles ++ [⟨some place, writable, true, error⟩]⟩ := by
  refine ⟨inv.tree.opened place, fun other node live => ?_, fun other member at' on => ?_,
    fun other member at' on => ?_⟩
  · obtain ⟨before, old, rfl⟩ := read_counted live
    dsimp only
    rw [openOn_append, inv.counts other before old]
    by_cases here : other = place
    · subst here
      rw [if_pos rfl, if_pos ⟨rfl, rfl⟩, Nat.mod_add_mod]
    · rw [if_neg here, if_neg fun both => here (Option.some.inj both.2).symm, Nat.add_zero]
  · rcases List.mem_append.mp member with old | new
    · obtain ⟨node, live⟩ := inv.live other old at' on
      exact opened_live live place
    · rw [List.mem_singleton.mp new] at on
      cases on
      exact opened_live there place
  · rcases List.mem_append.mp member with old | new
    · exact inv.isOpen other old at' on
    · rw [List.mem_singleton.mp new]

/-- A call is made on a handle that keeps its node. -/
theorem Exact.settle (inv : Exact memory s) (here : s.handles[i]? = some handle)
    (isOpen : handle'.open = handle.open) (node : handle'.node = handle.node) :
    Exact memory (s.settle i handle' s.store) := by
  have known := List.mem_of_getElem? here
  refine ⟨inv.tree, fun place value live => ?_, fun other member place on => ?_,
    fun other member place on => ?_⟩
  · rw [Vfs.settle, openOn_settle here isOpen node]
    exact inv.counts place value live
  · rcases List.mem_or_eq_of_mem_set member with old | rfl
    · exact inv.live other old place on
    · exact inv.live handle known place (node ▸ on)
  · rcases List.mem_or_eq_of_mem_set member with old | rfl
    · exact inv.isOpen other old place on
    · exact isOpen.trans (inv.isOpen handle known place (node ▸ on))

/-- A handle is closed. -/
theorem Exact.close (inv : Exact memory s) (here : s.handles[i]? = some handle)
    (on : handle.node = some place) (shut : handle'.node = none) :
    Exact memory (s.settle i handle' (released place s.store)) := by
  have known := List.mem_of_getElem? here
  have isOpen := inv.isOpen handle known place on
  refine ⟨inv.tree.counted (fun _ => Nat.mod_lt _ (by decide)) place, fun other node live => ?_,
    fun other member at' held => ?_, fun other member at' held => ?_⟩
  · obtain ⟨before, old, rfl⟩ := read_counted live
    have gone : ¬ (handle'.open = true ∧ handle'.node = some other) := by
      rw [shut]
      exact fun both => nomatch both.2
    have parts := openOn_set here handle' other
    rw [if_neg gone, Nat.add_zero] at parts
    dsimp only
    rw [inv.counts other before old, Vfs.settle]
    by_cases same : other = place
    · subst same
      rw [if_pos ⟨isOpen, on⟩] at parts
      rw [if_pos rfl]
      dsimp only
      omega
    · rw [if_neg fun both => same (Option.some.inj (both.2.symm.trans on)), Nat.add_zero] at parts
      rw [if_neg same, parts]
  · rcases List.mem_or_eq_of_mem_set member with old | rfl
    · obtain ⟨node, live⟩ := inv.live other old at' held
      exact counted_live live place
    · rw [shut] at held
      cases held
  · rcases List.mem_or_eq_of_mem_set member with old | rfl
    · exact inv.isOpen other old at' held
    · rw [shut] at held
      cases held

/-- What `openChild` does: it opens a child, or returns an empty handle. -/
theorem Exact.openChild_cases (inv : Exact memory s) (known : handle ∈ s.handles) {index : Nat}
    {writable : Bool} {store' : Store FileNode} {result : FileHandle}
    (taken : handle.openChild memory index writable s.store = some (handle', store', result)) :
    handle'.open = handle.open ∧ handle'.node = handle.node ∧
      ((store' = s.store ∧ result = {}) ∨
        ∃ child value, s.store.read child = some value ∧ store' = opened child s.store ∧
          result = ⟨some child, writable, true, .okay⟩) := by
  obtain ⟨on, mode, isOpen, error⟩ := handle
  cases isOpen with
  | false =>
      simp only [FileHandle.openChild, FileHandle.inspect, Bool.false_eq_true, if_false,
        Option.bind_eq_bind, Option.bind_some, Option.bind_none] at taken
      cases taken
      exact ⟨rfl, rfl, .inl ⟨rfl, rfl⟩⟩
  | true =>
      cases on with
      | none => simp [FileHandle.openChild, FileHandle.inspect] at taken
      | some place =>
          obtain ⟨node, live⟩ := inv.live _ known place rfl
          rw [FileHandle.openChild, inspect_fixed inv.tree live] at taken
          by_cases type : node.type = .directory
          · simp only [if_pos type, Option.bind_eq_bind, Option.bind_some] at taken
            cases position : FileHandle.childAt index node with
            | none =>
                rw [position] at taken
                cases taken
                exact ⟨rfl, rfl, .inl ⟨rfl, rfl⟩⟩
            | some child =>
                have below := (Option.ite_none_right_eq_some.mp position).1
                rw [← (inv.tree.sound place node live type).contents_length] at below
                obtain ⟨child', value, same, there, _⟩ := childAt_contents inv.tree live type below
                obtain rfl := Option.some.inj (position.symm.trans same)
                simp only [position, ofNode_eq there, Option.bind_some] at taken
                cases taken
                exact ⟨rfl, rfl, .inr ⟨child, value, there, rfl, rfl⟩⟩
          · simp only [if_neg type, Option.bind_eq_bind, Option.bind_some,
              Option.bind_none] at taken
            cases taken
            exact ⟨rfl, rfl, .inl ⟨rfl, rfl⟩⟩

/-- What the constructor from a path does: it opens a node, or leaves all as it was. -/
theorem Exact.ofPath_cases (inv : Exact memory s) {path : String} {writable : Bool}
    {store' : Store FileNode}
    (taken : FileHandle.ofPath memory path writable s.store = some (handle, store')) :
    (handle = ⟨none, writable, false, .notFound⟩ ∧ store' = s.store) ∨
      ∃ place value, s.store.read place = some value ∧
        handle = ⟨some place, writable, true, .okay⟩ ∧ store' = opened place s.store := by
  obtain ⟨node, live⟩ := inv.tree.root
  rw [(ofPath_resolves memory s.store inv.tree path writable).1] at taken
  cases led : resolve memory s.store root (components (path.bytes memory)) with
  | none =>
      rw [led] at taken
      cases taken
      exact .inl ⟨rfl, rfl⟩
  | some place =>
      obtain ⟨value, there⟩ := resolve_live inv.tree live led
      rw [led] at taken
      cases taken
      exact .inr ⟨place, value, there, rfl, rfl⟩

theorem Exact.step (inv : Exact memory s) {op : Op} (taken : CountedStep memory s op s') :
    Exact memory s' := by
  obtain ⟨counted, taken⟩ := taken
  cases op with
  | openPath path writable =>
      obtain ⟨⟨handle, store'⟩, made, same⟩ := Option.bind_eq_some_iff.mp taken
      cases same
      rcases inv.ofPath_cases made with ⟨rfl, rfl⟩ | ⟨place, value, there, rfl, rfl⟩
      · exact inv.append_shut rfl
      · exact inv.append_open there writable .okay
  | openChild i index writable =>
      obtain ⟨handle, here, further⟩ := Option.bind_eq_some_iff.mp taken
      obtain ⟨⟨handle', store', result⟩, made, same⟩ := Option.bind_eq_some_iff.mp further
      cases same
      obtain ⟨isOpen, node, effect⟩ := inv.openChild_cases (List.mem_of_getElem? here) made
      have settled := inv.settle here isOpen node
      rcases effect with ⟨rfl, rfl⟩ | ⟨child, value, there, rfl, rfl⟩
      · exact settled.append_shut rfl
      · exact settled.append_open there writable .okay
  | close i =>
      obtain ⟨handle, here, further⟩ := Option.bind_eq_some_iff.mp taken
      obtain ⟨⟨handle', store'⟩, closed, same⟩ := Option.bind_eq_some_iff.mp further
      cases same
      rcases FileHandle.close_cases closed with ⟨_, rfl, rfl⟩ | ⟨place, node, _, on, _, rfl, rfl⟩
      · exact inv.settle here rfl rfl
      · exact inv.close here on rfl
  | childName i index => cases counted
  | findChild i name => cases counted
  | mount i fsProvider => cases counted

theorem not_underflows {store : Store FileNode} {writable isOpen : Bool} {error : FileError}
    (positive : ∀ node, store.read place = some node → node.openCount ≠ 0) :
    ¬ Underflows ⟨some place, writable, isOpen, error⟩ store := by
  rintro ⟨other, node, _, on, live, zero⟩
  cases on
  exact positive node live zero

/-- The handle that was just opened is counted, also while another one is opened. -/
theorem opened_ne_zero {store : Store FileNode}
    (bound : ∀ place node, store.read place = some node → node.openCount + 2 < 2 ^ 64)
    (place : Nat × Nat) :
    (∀ node, (opened place store).read place = some node → node.openCount ≠ 0) ∧
      ∀ child node, (opened child (opened place store)).read place = some node →
      node.openCount ≠ 0 := by
  have first : ∀ node, (opened place store).read place = some node →
      node.openCount ≠ 0 ∧ node.openCount + 1 < 2 ^ 64 := by
    intro node live
    obtain ⟨before, old, rfl⟩ := read_counted live
    have small := bound place before old
    rw [if_pos rfl]
    dsimp only
    omega
  refine ⟨fun node live => (first node live).1, fun child node live => ?_⟩
  obtain ⟨before, old, rfl⟩ := read_counted live
  have small := first before old
  dsimp only
  split
  · omega
  · exact small.1

/-- No call that the loop makes takes a count below zero. -/
theorem walkTrace_counts {store : Store FileNode} (tree : FixedTree memory store)
    (bound : ∀ place node, store.read place = some node → node.openCount + 2 < 2 ^ 64) {fuel : Nat}
    {path : String} {node : FileNode} (live : store.read place = some node) :
    ∀ sub ∈ FileHandle.walkTrace memory fuel path ⟨some place, false, true,
      .okay⟩ (opened place store), sub.1 = .close → ¬ Underflows sub.2.1 sub.2.2 := by
  induction fuel generalizing path place node with
  | zero => exact fun _ => nofun
  | succ fuel ih =>
      obtain ⟨alone, besides⟩ := opened_ne_zero bound place
      obtain ⟨node', liveNow⟩ := opened_live live place
      rw [FileHandle.walkTrace]
      split
      · exact fun _ => nofun
      · split
        · exact fun _ => nofun
        · rcases lookup_cases (tree.opened place) liveNow (FileHandle.currentComponent memory path)
              false .okay with
            ⟨_, error, found⟩ | ⟨i, child, value, _, there, small, found, made⟩
          · simp only [found, if_true, List.mem_cons, List.not_mem_nil, or_false]
            rintro sub (rfl | rfl) closes
            · cases closes
            · exact not_underflows alone
          · obtain ⟨_, liveLater⟩ := opened_live liveNow child
            obtain ⟨_, before, _⟩ := read_counted there
            simp only [found, if_neg small, made, close_eq liveLater,
              released_opened_opened tree.count, List.mem_cons]
            rintro sub (rfl | rfl | rfl | later) closes
            · cases closes
            · cases closes
            · exact not_underflows (besides child)
            · exact ih before sub later closes

theorem pathTrace_counts {store : Store FileNode} (tree : FixedTree memory store)
    (bound : ∀ place node, store.read place = some node → node.openCount + 2 < 2 ^ 64)
    (path : String) :
    ∀ sub ∈ FileHandle.pathTrace memory path store, sub.1 = .close →
    ¬ Underflows sub.2.1 sub.2.2 := by
  obtain ⟨node, live⟩ := tree.root
  intro sub member
  simp only [FileHandle.pathTrace, ofNode_eq live,
    walk_fixed tree (Nat.le_refl path.length) live] at member
  rcases List.mem_append.mp member with onTheWay | last
  · exact walkTrace_counts tree bound live sub onTheWay
  · cases led : resolve memory store root (components (path.bytes memory)) with
    | none =>
        rw [led] at last
        cases last
    | some place =>
        rw [led] at last
        rw [List.mem_singleton.mp last]
        exact fun _ => not_underflows (opened_ne_zero bound place).1

theorem Exact.openCounts (inv : Exact memory s) : OpenCounts memory s := by
  have most : ∀ place, openOn s.handles place ≤ s.handles.length := fun _ => List.countP_le_length
  have same : s.handles.length + 2 < 2 ^ 64 → ∀ place node, s.store.read place = some node →
      node.openCount = openOn s.handles place := by
    intro few place node live
    have := most place
    rw [inv.counts place node live, Nat.mod_eq_of_lt (by omega)]
  have least : ∀ handle ∈ s.handles, ∀ place, handle.node = some place →
      0 < openOn s.handles place :=
    fun handle known place on =>
      List.countP_pos_iff.mpr ⟨handle, known, decide_eq_true ⟨inv.isOpen handle known place on, on⟩⟩
  refine ⟨inv.counts, same, ?_, ?_, ?_, ?_, ?_⟩
  · intro path writable handle store' made shut
    rcases inv.ofPath_cases made with ⟨_, rfl⟩ | ⟨place, value, _, rfl, _⟩
    · rfl
    · cases shut
  · intro handle known index writable handle' store' result made shut
    rcases (inv.openChild_cases known made).2.2 with ⟨rfl, _⟩ | ⟨child, value, _, _, rfl⟩
    · rfl
    · cases shut
  · rintro few handle known ⟨place, node, _, on, live, zero⟩
    have := least handle known place on
    rw [same few place node live] at zero
    omega
  · intro few path
    refine pathTrace_counts inv.tree (fun place node live => ?_) path
    have := most place
    rw [same few place node live]
    omega
  · intro few handle known place node fsProvider writable on live type empty
    have isOpen := inv.isOpen handle known place on
    simp only [FileHandle.mount, isOpen, writable, on, if_true, Option.bind_eq_bind,
      Option.bind_some, live, if_pos type, empty, true_and, same few place node live]

/-- Along every run of opens and closes over a tree whose directories keep their children, and
    that no handle is open on at first. -/
theorem openCounts_after_run (memory : Nat → UInt8) (store : Store FileNode)
    (tree : FixedTree memory store)
    (unopened : ∀ place node, store.read place = some node → node.openCount = 0)
    (ops : List Op) (s : Vfs) (run : Run (CountedStep memory) ⟨store, []⟩ ops s) :
    OpenCounts memory s := by
  have initial : Exact memory ⟨store, []⟩ :=
    ⟨tree, unopened, fun _ => nofun, fun _ => nofun⟩
  exact (run.invariant initial fun _ _ _ inv taken => inv.step taken).openCounts

end Counting

/-- Two handles are open on the file, one of them is closed, and a path leads nowhere. -/
def routeOpened : Vfs :=
  (([.openPath ⟨0, 6⟩ true, .openPath ⟨1, 4⟩ false, .close 0, .openPath ⟨4, 1⟩ false] :
    List Op).foldlM
    (fun s op => if OpensOrCloses op then s.step routeText op else none) ⟨routeStore, []⟩).get
    (by decide +kernel)

theorem openCounts_after_run_route :
    OpenCounts routeText routeOpened ∧ openOn routeOpened.handles (2, 0) = 1 ∧
    routeOpened.handles.length = 3 := by
  refine ⟨openCounts_after_run routeText routeStore routeStore_fixed ?_ _ routeOpened
    (Run.of_foldlM_guarded (Option.eq_some_of_isSome _)), by decide +kernel, by decide +kernel⟩
  rintro ⟨_ | _ | _ | block, _ | index⟩ node live
  all_goals cases live
  all_goals rfl

end Mykonos.Fs
