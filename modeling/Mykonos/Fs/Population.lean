import Mykonos.Fs.Listing
import Mykonos.Fs.Vfs
import Mykonos.Lib.Run

/-! # How often a directory is populated

Nothing sets the flag that a directory is populated, so every look into it appends its
children once more. Along runs that look into no directory with children, the children
that a directory once has stay what they are, and no node moves.
-/

namespace Mykonos.Fs

open Lib Util

section Calls

variable (memory : Nat → UInt8)

/-- The children that the provider has for the node. -/
def listingOf (node : FileNode) : List FileNode :=
  match node.fsProvider, node.node with
  | some entries, some d => (entries[d]?).elim [] (listing memory entries)
  | _, _ => []

/-- The directory that an operation on a handle looks into. -/
def Vfs.lookedInto (s : Vfs) (i : Nat) : Option ((Nat × Nat) × FileNode) := do
  let handle ← s.handles[i]?
  let directory ← (if handle.open then handle.node else none : Option (Nat × Nat))
  let node ← s.store.read directory
  if node.type = .directory then some (directory, node) else none

/-- The directory that a call looks into first. -/
def Vfs.inspected (s : Vfs) : Op → Option ((Nat × Nat) × FileNode)
  | .openPath path _ => do
      let node ← s.store.read root
      if (FileHandle.currentComponent memory path).length ≠ 0 ∧ node.type = .directory then
        some (root, node)
      else none
  | .openChild i _ _ | .childName i _ | .findChild i _ => s.lookedInto i
  | .close _ | .mount _ _ => none

/-- The first component of the path is no child of the node. -/
def Absent (node : FileNode) (path : String) : Prop :=
  ∀ child ∈ listingOf memory node,
    child.name.equals memory (FileHandle.currentComponent memory path) = false

/-- Where the first component of a path is found, the directory is looked into a second time. -/
def Misses (node : FileNode) : Op → Prop
  | .openPath path _ => Absent memory node path
  | _ => True

/-- The call looks into no directory that has children already, and looks into none twice. -/
def Careful (s : Vfs) (op : Op) : Prop :=
  ∀ found ∈ s.inspected memory op, found.2.children.size = 0 ∧ Misses memory found.2 op

instance (node : FileNode) (path : String) : Decidable (Absent memory node path) :=
  inferInstanceAs (Decidable (∀ child ∈ listingOf memory node, _))

instance (node : FileNode) : (op : Op) → Decidable (Misses memory node op)
  | .openPath path _ => inferInstanceAs (Decidable (Absent memory node path))
  | .openChild _ _ _ | .childName _ _ | .findChild _ _ | .close _ | .mount _ _ =>
    inferInstanceAs (Decidable True)

instance (s : Vfs) (op : Op) : Decidable (Careful memory s op) :=
  inferInstanceAs (Decidable (∀ found ∈ s.inspected memory op, _))

def CarefulStep (s : Vfs) (op : Op) (s' : Vfs) : Prop :=
  Careful memory s op ∧ s.step memory op = some s'

end Calls

/-- Nodes never have the flag, and those without children have no block for them. -/
def Tidy (node : FileNode) : Prop :=
  node.populated = false ∧ (node.children.size = 0 → node.children = {})

/-- Every node stays where it is, with the children that it has. -/
structure Gentle (memory : Nat → UInt8) (store store' : Store FileNode) : Prop where
  tidy : store'.All Tidy
  keeps : ∀ place node, store.read place = some node → ∃ openCount children,
    store'.read place = some { node with openCount := openCount, children := children } ∧
      (children = node.children ∨ node.children.size = 0 ∧ listingOf memory node ≠ [])

/-- The directory has the children of one population. -/
def Settled (memory : Nat → UInt8) (directory : Nat × Nat) (store : Store FileNode) : Prop :=
  ∃ node, store.read directory = some node ∧ node.children.Sound store ∧
    node.children.contents store = listingOf memory node

section Gentleness

variable {memory : Nat → UInt8} {store store' store'' : Store FileNode}
  {directory place : Nat × Nat} {node : FileNode}

theorem Gentle.refl (tidy : store.All Tidy) : Gentle memory store store :=
  ⟨tidy, fun _ node live => ⟨node.openCount, node.children, live, .inl rfl⟩⟩

theorem Gentle.trans (first : Gentle memory store store') (second : Gentle memory store' store'') :
    Gentle memory store store'' := by
  refine ⟨second.tidy, fun place node live => ?_⟩
  obtain ⟨_, children, live', change⟩ := first.keeps place node live
  obtain ⟨openCount, children', live'', change'⟩ := second.keeps place _ live'
  refine ⟨openCount, children', live'', ?_⟩
  rcases change' with rfl | ⟨empty, filled⟩
  · exact change
  · rcases change with rfl | old
    · exact .inr ⟨empty, filled⟩
    · exact .inr old

theorem Gentle.live (gentle : Gentle memory store store') (live : (store.read place).isSome) :
    (store'.read place).isSome := by
  obtain ⟨node, here⟩ := Option.isSome_iff_exists.mp live
  obtain ⟨_, _, there, _⟩ := gentle.keeps place node here
  rw [there]
  rfl

/-- Counting handles is gentle. -/
theorem gentle_count (memory : Nat → UInt8) (tidy : store.All Tidy) (place : Nat × Nat)
    (f : FileNode → Nat) :
    Gentle memory store (store.modify place fun node => { node with openCount := f node }) := by
  have counted : ∀ node, Tidy node → Tidy { node with openCount := f node } := fun _ old => old
  refine ⟨tidy.modify counted place, fun other node live => ?_⟩
  rw [store.read_modify]
  split
  · rename_i same
    rw [← same, live]
    exact ⟨f node, node.children, rfl, .inl rfl⟩
  · exact ⟨node.openCount, node.children, live, .inl rfl⟩

theorem tidy_makeChild (entries : List InitramfsEntry) (entry : InitramfsEntry) (i : Nat)
    (baseName : String) :
    Tidy (makeChild entries entry i baseName) :=
  ⟨rfl, fun _ => rfl⟩

theorem tidy_appendChild (tidy : store.All Tidy) {child : FileNode} (new : Tidy child) :
    (appendChild directory store child).All Tidy := by
  rw [appendChild]
  cases store.read directory with
  | none => exact tidy
  | some node =>
      obtain ⟨⟨children, store'⟩, push⟩ : ∃ result, node.children.pushBack child store = result :=
        ⟨_, rfl⟩
      have pushed : (node.children.pushBack child store).2.All Tidy :=
        Vector.pushBack_all tidy ⟨rfl, fun _ => rfl⟩ new
      have filled : children.size ≠ 0 := by
        rw [show children = (node.children.pushBack child store).1 by rw [push]]
        exact Nat.succ_ne_zero _
      have grown : ∀ node, Tidy node → Tidy { node with children := children } := fun _ old =>
        ⟨old.1, fun empty => absurd empty filled⟩
      rw [push] at pushed
      simp only [push]
      exact pushed.modify grown directory

theorem tidy_foldl_appendChild {added : List FileNode} (tidy : store.All Tidy)
    (new : ∀ child ∈ added, Tidy child) :
    (added.foldl (appendChild directory) store).All Tidy := by
  induction added generalizing store with
  | nil => exact tidy
  | cons child rest ih =>
      exact ih (tidy_appendChild tidy (new child List.mem_cons_self)) fun other member =>
        new other (List.mem_cons_of_mem _ member)

/-- What the population of a directory without children does. -/
theorem load_settles (tidy : store.All Tidy) (live : store.read directory = some node)
    (empty : node.children.size = 0)
    (loaded : FileHandle.load memory directory store = some store') :
    Settled memory directory store' ∧ Gentle memory store store' := by
  obtain ⟨flag, fresh⟩ := tidy.read live
  have fresh := fresh empty
  simp only [FileHandle.load, live, Option.bind_eq_bind, Option.bind_some, flag, Bool.false_eq_true,
    if_false] at loaded
  obtain ⟨entries, provider, populated⟩ := Option.bind_eq_some_iff.mp loaded
  obtain ⟨d, directoryEntry, of, member⟩ := populateDirectory_inv live populated
  have children : listingOf memory node = listing memory entries directoryEntry := by
    rw [listingOf, provider, of]
    simp only [member, Option.elim_some]
  have sound : node.children.Sound store := fresh ▸ Vector.sound_empty store
  have own : node.children.data = none := by rw [fresh]
  have apart : node.children.data ≠ some directory.1 := own ▸ nofun
  obtain ⟨store₁, filled, result, appended⟩ :=
    populateDirectory_appended memory live of member sound apart
  obtain rfl := Option.some.inj (populated.symm.trans result)
  have there := appended.read live
  refine ⟨⟨_, there, appended.sound, ?_⟩, ⟨?_, fun place other old => ?_⟩⟩
  · rw [appended.contents, fresh, ← children]
    rfl
  · rw [populateDirectory_eq live of member] at populated
    obtain rfl := Option.some.inj populated
    refine tidy_foldl_appendChild tidy fun child listed => ?_
    obtain ⟨⟨entry, i⟩, -, made⟩ := List.mem_filterMap.mp listed
    obtain ⟨baseName, -, rfl⟩ := Option.map_eq_some_iff.mp made
    exact tidy_makeChild entries entry i baseName
  · by_cases here : place = directory
    · subst here
      obtain rfl := Option.some.inj (live.symm.trans old)
      refine ⟨node.openCount, filled, there, ?_⟩
      by_cases none : listingOf memory node = []
      · rw [populateDirectory_eq live of member, ← children, none] at populated
        obtain rfl := Option.some.inj populated
        exact .inl (congrArg FileNode.children (Option.some.inj (there.symm.trans live)))
      · exact .inr ⟨empty, none⟩
    · exact ⟨other.openCount, other.children, appended.read_of_ne own here old, .inl rfl⟩

theorem load_listing (tidy : store.All Tidy) (live : store.read directory = some node)
    (empty : node.children.size = 0)
    (loaded : FileHandle.load memory directory store = some store') :
    ∃ node', store'.read directory = some node' ∧ node'.children.Sound store' ∧
      node'.children.contents store' = listingOf memory node := by
  obtain ⟨⟨node', there, sound, contents⟩, gentle⟩ := load_settles tidy live empty loaded
  obtain ⟨_, _, kept, _⟩ := gentle.keeps directory node live
  obtain rfl := Option.some.inj (there.symm.trans kept)
  exact ⟨_, there, sound, contents⟩

end Gentleness

/-- The handle is open and refers to a directory. -/
def Looks (handle : FileHandle) (store : Store FileNode) (directory : Nat × Nat)
    (node : FileNode) : Prop :=
  handle.open = true ∧ handle.node = some directory ∧ store.read directory = some node ∧
    node.type = .directory

/-- What an operation on a handle comes to, when it looks into no directory with children: the
    directory that it looks into is populated on the way. -/
structure Looked (memory : Nat → UInt8) (handle : FileHandle) (store : Store FileNode)
    (handle' : FileHandle) (store' : Store FileNode) : Prop where
  gentle : Gentle memory store store'
  node : handle'.node = handle.node
  settled : ∀ directory node, Looks handle store directory node →
    ∃ store₁, Settled memory directory store₁ ∧ Gentle memory store₁ store'

section Operations

variable {memory : Nat → UInt8} {handle handle' : FileHandle} {store store' : Store FileNode}

/-- What `inspect` does. -/
theorem inspect_cases {found : Option FileNode}
    (taken : handle.inspect memory store = some (handle', store', found)) :
    (store' = store ∧ found = none ∧ handle'.node = handle.node ∧
        ∀ directory node, ¬ Looks handle store directory node) ∨
      ∃ directory node, Looks handle store directory node ∧
        FileHandle.load memory directory store = some store' ∧ found = store'.read directory ∧
        handle' = handle := by
  rw [FileHandle.inspect] at taken
  split at taken
  · rename_i isOpen
    obtain ⟨directory, on, further⟩ := Option.bind_eq_some_iff.mp taken
    obtain ⟨node, live, result⟩ := Option.bind_eq_some_iff.mp further
    split at result
    · rename_i type
      obtain ⟨store₁, loaded, same⟩ := Option.bind_eq_some_iff.mp result
      cases same
      exact .inr ⟨directory, node, ⟨isOpen, on, live, type⟩, loaded, rfl, rfl⟩
    · rename_i type
      cases result
      refine .inl ⟨rfl, rfl, rfl, fun other node' looks => type ?_⟩
      obtain rfl := Option.some.inj (on.symm.trans looks.2.1)
      obtain rfl := Option.some.inj (live.symm.trans looks.2.2.1)
      exact looks.2.2.2
  · rename_i closed
    cases taken
    exact .inl ⟨rfl, rfl, rfl, fun _ _ looks => closed looks.1⟩

theorem looks_unique {directory directory' : Nat × Nat} {node node' : FileNode}
    (first : Looks handle store directory node) (second : Looks handle store directory' node') :
    directory = directory' ∧ node = node' := by
  obtain rfl := Option.some.inj (first.2.1.symm.trans second.2.1)
  exact ⟨rfl, Option.some.inj (first.2.2.1.symm.trans second.2.2.1)⟩

theorem inspect_looked {found : Option FileNode}
    (taken : handle.inspect memory store = some (handle', store', found))
    (tidy : store.All Tidy)
    (careful : ∀ directory node, Looks handle store directory node → node.children.size = 0) :
    Looked memory handle store handle' store' := by
  rcases inspect_cases taken with ⟨rfl, -, same, blind⟩ | ⟨directory, node, looks, loaded, -, rfl⟩
  · exact ⟨Gentle.refl tidy, same, fun directory node looks => absurd looks (blind directory node)⟩
  · obtain ⟨settled, gentle⟩ := load_settles tidy looks.2.2.1 (careful directory node looks) loaded
    refine ⟨gentle, rfl, fun other node' looks' => ?_⟩
    obtain ⟨rfl, -⟩ := looks_unique looks looks'
    exact ⟨store', settled, Gentle.refl gentle.tidy⟩

theorem Looked.after {store'' : Store FileNode} (looked : Looked memory handle store handle' store')
    (gentle : Gentle memory store' store'') : Looked memory handle store handle' store'' := by
  refine ⟨looked.gentle.trans gentle, looked.node, fun directory node looks => ?_⟩
  obtain ⟨store₁, settled, further⟩ := looked.settled directory node looks
  exact ⟨store₁, settled, further.trans gentle⟩

theorem ofNode_gentle (memory : Nat → UInt8) {place : Nat × Nat} {writable : Bool}
    (made : FileHandle.ofNode place writable store = some (handle, store'))
    (tidy : store.All Tidy) :
    Gentle memory store store' ∧ handle.node = some place ∧ (store'.read place).isSome := by
  obtain ⟨node, live, same⟩ := Option.map_eq_some_iff.mp made
  obtain ⟨rfl, rfl⟩ := Prod.mk.inj same
  have gentle := gentle_count memory tidy place fun node => (node.openCount + 1) % 2 ^ 64
  exact ⟨gentle, rfl, gentle.live (live ▸ rfl)⟩

theorem close_gentle (memory : Nat → UInt8) (closed : handle.close store = some (handle', store'))
    (tidy : store.All Tidy) :
    Gentle memory store store' ∧ ∀ place, handle'.node = some place → handle.node = some place := by
  rcases FileHandle.close_cases closed with ⟨_, rfl, rfl⟩ | ⟨place, node, _, _, _, rfl, rfl⟩
  · exact ⟨Gentle.refl tidy, fun _ on => on⟩
  · exact ⟨gentle_count memory tidy place _, nofun⟩

theorem childName_looked {index : Nat} {name : String}
    (taken : handle.childName memory index store = some (handle', store', name))
    (tidy : store.All Tidy)
    (careful : ∀ directory node, Looks handle store directory node → node.children.size = 0) :
    Looked memory handle store handle' store' := by
  obtain ⟨found, inspected⟩ := FileHandle.childName_inspects taken
  exact inspect_looked inspected tidy careful

theorem findChild_looked {name : String} {index : Nat}
    (taken : handle.findChild memory name store = some (handle', store', index))
    (tidy : store.All Tidy)
    (careful : ∀ directory node, Looks handle store directory node → node.children.size = 0) :
    Looked memory handle store handle' store' := by
  obtain ⟨⟨handle₁, store₁, found⟩, inspected, further⟩ := Option.bind_eq_some_iff.mp taken
  cases further
  exact inspect_looked inspected tidy careful

theorem openChild_looked {index : Nat} {writable : Bool} {result : FileHandle}
    (taken : handle.openChild memory index writable store = some (handle', store', result))
    (tidy : store.All Tidy)
    (careful : ∀ directory node, Looks handle store directory node → node.children.size = 0) :
    Looked memory handle store handle' store' ∧ ∀ place, result.node = some place →
    (store'.read place).isSome := by
  obtain ⟨store₁, found, inspected, effect⟩ := FileHandle.openChild_inspects taken
  have looked := inspect_looked inspected tidy careful
  rcases effect with ⟨rfl, rfl⟩ | ⟨child, made⟩
  · exact ⟨looked, nofun⟩
  · obtain ⟨gentle, on, live⟩ := ofNode_gentle memory made looked.gentle.tidy
    refine ⟨looked.after gentle, fun place referred => ?_⟩
    obtain rfl := Option.some.inj (on.symm.trans referred)
    exact live

/-- The name of a child is the one that the provider has for it. -/
theorem childName_name {index : Nat} {name : String} {directory : Nat × Nat} {node : FileNode}
    (taken : handle.childName memory index store = some (handle', store', name))
    (tidy : store.All Tidy) (looks : Looks handle store directory node)
    (empty : node.children.size = 0) :
    name = (listingOf memory node)[index]?.elim {} FileNode.name := by
  obtain ⟨⟨handle₁, store₁, found⟩, inspected, further⟩ := Option.bind_eq_some_iff.mp taken
  rcases inspect_cases inspected with ⟨-, -, -, blind⟩ | ⟨_, _, looks', loaded, rfl, -⟩
  · exact absurd looks (blind directory node)
  · obtain ⟨rfl, rfl⟩ := looks_unique looks looks'
    obtain ⟨node', there, sound, contents⟩ := load_listing tidy looks.2.2.1 empty loaded
    have element := sound.getElem?_contents index
    rw [contents] at element
    rw [element]
    simp only [there, Option.bind_some] at further
    split at further
    · rename_i child here
      obtain ⟨entry, live, same⟩ := Option.bind_eq_some_iff.mp further
      cases same
      rw [FileHandle.childAt] at here
      rw [here, Option.bind_some, live]
      rfl
    · rename_i outside
      cases further
      rw [FileHandle.childAt] at outside
      rw [outside]
      rfl

/-- A name that no child has is not found. -/
theorem findChild_misses {name : String} {index : Nat}
    (taken : handle.findChild memory name store = some (handle', store', index))
    (tidy : store.All Tidy)
    (careful : ∀ directory node, Looks handle store directory node → node.children.size = 0)
    (misses : ∀ directory node, Looks handle store directory node →
      ∀ child ∈ listingOf memory node, child.name.equals memory name = false) :
        index = sizeMax := by
  obtain ⟨⟨handle₁, store₁, found⟩, inspected, further⟩ := Option.bind_eq_some_iff.mp taken
  cases further
  rcases inspect_cases inspected with ⟨-, rfl, -⟩ | ⟨directory, node, looks, loaded, rfl, -⟩
  · rfl
  · obtain ⟨node', there, _, contents⟩ :=
      load_listing tidy looks.2.2.1 (careful directory node looks) loaded
    have absent :
        (listingOf memory node).findIdx? (fun entry => entry.name.equals memory name) = none :=
      List.findIdx?_eq_none_iff.mpr (misses directory node looks)
    rw [there, Option.bind_some, contents, absent, Option.getD_none]

theorem currentComponent_empty {path : String} (empty : path.length = 0) :
    (FileHandle.currentComponent memory path).length = 0 := by
  rw [FileHandle.currentComponent, empty, FileHandle.skipSlashes, String.findBefore,
    String.subString, empty, Nat.zero_sub, if_neg (by omega)]
  rfl

/-- The walk of a path ends in the first directory, if it does not find its component there. -/
theorem walk_gentle {fuel : Nat} {path : String} {ended : Option FileHandle}
    (taken : FileHandle.walk memory fuel path handle store = some (ended, store'))
    (enough : path.length ≤ fuel) (tidy : store.All Tidy)
    (careful : ∀ directory node, Looks handle store directory node →
      (FileHandle.currentComponent memory path).length ≠ 0 →
      node.children.size = 0 ∧ Absent memory node path) :
    ((FileHandle.currentComponent memory path).length = 0 ∧ ended = some handle ∧ store' = store) ∨
      (FileHandle.currentComponent memory path).length ≠ 0 ∧ ended = none ∧
        ∃ handle', Looked memory handle store handle' store' := by
  cases fuel with
  | zero =>
      cases taken
      exact .inl ⟨currentComponent_empty (Nat.le_zero.mp enough), rfl, rfl⟩
  | succ fuel =>
      rw [FileHandle.walk] at taken
      split at taken
      · rename_i empty
        cases taken
        exact .inl ⟨currentComponent_empty empty, rfl, rfl⟩
      · split at taken
        · rename_i last
          cases taken
          exact .inl ⟨last, rfl, rfl⟩
        · rename_i more
          obtain ⟨⟨handle₁, store₁, nextIndex⟩, found, further⟩ := Option.bind_eq_some_iff.mp taken
          have sizes := fun directory node looks => (careful directory node looks more).1
          have misses := fun directory node looks => (careful directory node looks more).2
          have looked := findChild_looked found tidy sizes
          have missing := findChild_misses found tidy sizes misses
          dsimp only at further
          rw [if_pos missing] at further
          obtain ⟨⟨handle₂, store₂⟩, closed, same⟩ := Option.bind_eq_some_iff.mp further
          cases same
          exact .inr ⟨more, rfl, handle₁,
            looked.after (close_gentle memory closed looked.gentle.tidy).1⟩

/-- The handle to the root that a path is looked up from. -/
theorem ofNode_looks {place directory : Nat × Nat} {node node' : FileNode} {writable : Bool}
    (made : FileHandle.ofNode place writable store = some (handle, store'))
    (live : store.read place = some node) :
    Looks handle store' directory node' ↔
      directory = place ∧ node' = { node with openCount := (node.openCount + 1) % 2 ^ 64 } ∧
        node.type = .directory := by
  obtain ⟨_, _, same⟩ := Option.map_eq_some_iff.mp made
  obtain ⟨rfl, rfl⟩ := Prod.mk.inj same
  have there :
      (store.modify place fun node =>
          { node with openCount := (node.openCount + 1) % 2 ^ 64 }).read place =
        some { node with openCount := (node.openCount + 1) % 2 ^ 64 } := by
    rw [store.read_modify, if_pos rfl, live]
    rfl
  constructor
  · rintro ⟨-, on, read, type⟩
    obtain rfl := Option.some.inj on
    obtain rfl := Option.some.inj (there.symm.trans read)
    exact ⟨rfl, rfl, type⟩
  · rintro ⟨rfl, rfl, type⟩
    exact ⟨rfl, rfl, there, type⟩

theorem ofPath_gentle {path : String} {writable : Bool}
    (taken : FileHandle.ofPath memory path writable store = some (handle, store'))
    (tidy : store.All Tidy)
    (careful : ∀ node, store.read root = some node → node.type = .directory →
      (FileHandle.currentComponent memory path).length ≠ 0 →
      node.children.size = 0 ∧ Absent memory node path) :
    Gentle memory store store' ∧ (∀ place, handle.node = some place → (store'.read place).isSome) ∧
      ∀ node, store.read root = some node → node.type = .directory →
        (FileHandle.currentComponent memory path).length ≠ 0 →
        ∃ store₁, Settled memory root store₁ ∧ Gentle memory store₁ store' := by
  obtain ⟨⟨current, store₁⟩, made, further⟩ := Option.bind_eq_some_iff.mp taken
  obtain ⟨⟨ended, store₂⟩, walked, last⟩ := Option.bind_eq_some_iff.mp further
  obtain ⟨gentle₁, on, live₁⟩ := ofNode_gentle memory made tidy
  obtain ⟨node, live, -⟩ := Option.map_eq_some_iff.mp made
  have careful₁ : ∀ directory node', Looks current store₁ directory node' →
      (FileHandle.currentComponent memory path).length ≠ 0 →
        node'.children.size = 0 ∧ Absent memory node' path := by
    intro directory node' looking more
    obtain ⟨rfl, rfl, type⟩ := (ofNode_looks made live).mp looking
    exact careful node live type more
  rcases walk_gentle walked (Nat.le_refl _) gentle₁.tidy careful₁ with
    ⟨none, rfl, rfl⟩ | ⟨more, rfl, handle₁, looked⟩
  · obtain ⟨place, referred, rest⟩ := Option.bind_eq_some_iff.mp last
    obtain ⟨⟨_, store₃⟩, closed, opened⟩ := Option.bind_eq_some_iff.mp rest
    have gentle₂ := (close_gentle memory closed gentle₁.tidy).1
    obtain ⟨gentle₃, here, there⟩ := ofNode_gentle memory opened gentle₂.tidy
    refine ⟨gentle₁.trans (gentle₂.trans gentle₃), fun other on => ?_,
      fun _ _ _ more => absurd none more⟩
    obtain rfl := Option.some.inj (here.symm.trans on)
    exact there
  · cases last
    refine ⟨gentle₁.trans looked.gentle, nofun, fun node' live' type _ => ?_⟩
    obtain rfl := Option.some.inj (live.symm.trans live')
    exact looked.settled root _ ((ofNode_looks made live).mpr ⟨rfl, rfl, type⟩)

end Operations

def Op.isMount : Op → Bool
  | .mount _ _ => true
  | _ => false

/-- What holds in every state of a careful run: the nodes are tidy, and no handle dangles. -/
structure Sane (s : Vfs) : Prop where
  tidy : s.store.All Tidy
  live : ∀ handle ∈ s.handles, ∀ place, handle.node = some place → (s.store.read place).isSome

section Steps

variable {memory : Nat → UInt8} {s s' t : Vfs} {op : Op}

theorem sane_initial : Sane Vfs.initial := by
  refine ⟨fun data node member => ?_, nofun⟩
  change node ∈ (if data = 0 then [{ type := .directory }] else []) at member
  split at member
  · obtain rfl := List.mem_singleton.mp member
    exact ⟨rfl, fun _ => rfl⟩
  · cases member

theorem lookedInto_iff {i : Nat} {handle : FileHandle} (at_i : s.handles[i]? = some handle)
    {directory : Nat × Nat} {node : FileNode} :
    s.lookedInto i = some (directory, node) ↔ Looks handle s.store directory node := by
  simp only [Vfs.lookedInto, at_i, Option.bind_eq_bind, Option.bind_some, Option.bind_eq_some_iff,
    Option.ite_none_right_eq_some, Option.some.injEq, Prod.mk.injEq, Looks]
  constructor
  · rintro ⟨_, ⟨isOpen, on⟩, _, live, type, rfl, rfl⟩
    exact ⟨isOpen, on, live, type⟩
  · rintro ⟨isOpen, on, live, type⟩
    exact ⟨directory, ⟨isOpen, on⟩, node, live, type, rfl, rfl⟩

/-- The handles after a call on one of them. -/
theorem Sane.live_set (sane : Sane s) {i : Nat} {handle handle' : FileHandle}
    {store' : Store FileNode} (at_i : s.handles[i]? = some handle)
    (alive : ∀ place, (s.store.read place).isSome → (store'.read place).isSome)
    (same : ∀ place, handle'.node = some place → handle.node = some place) :
    ∀ other ∈ s.handles.set i handle', ∀ place, other.node = some place →
    (store'.read place).isSome := by
  intro other member place on
  rcases List.mem_or_eq_of_mem_set member with old | rfl
  · exact alive place (sane.live other old place on)
  · exact alive place (sane.live handle (List.mem_of_getElem? at_i) place (same place on))

theorem Looked.settle {i : Nat} {handle handle' : FileHandle} {store' : Store FileNode}
    (looked : Looked memory handle s.store handle' store') (sane : Sane s)
    (at_i : s.handles[i]? = some handle) :
    Gentle memory s.store store' ∧ Sane (s.settle i handle' store') ∧
      ∀ directory node, s.lookedInto i = some (directory, node) →
        ∃ store₁, Settled memory directory store₁ ∧ Gentle memory store₁ store' := by
  refine ⟨looked.gentle, ⟨looked.gentle.tidy, ?_⟩, fun directory node found => ?_⟩
  · exact sane.live_set at_i (fun _ => looked.gentle.live) fun _ on => looked.node ▸ on
  · exact looked.settled directory node ((lookedInto_iff at_i).mp found)

/-- A careful call on a handle looks into a directory without children. -/
theorem Careful.sizes (careful : Careful memory s op) {i : Nat} {handle : FileHandle}
    (at_i : s.handles[i]? = some handle) (on : s.inspected memory op = s.lookedInto i) :
    ∀ directory node, Looks handle s.store directory node → node.children.size = 0 := by
  intro directory node looks
  have found := (lookedInto_iff at_i).mpr looks
  rw [← on] at found
  exact (careful _ found).1

theorem tidy_mountedNode {fsProvider : List InitramfsEntry} {node : FileNode} (tidy : Tidy node) :
    Tidy (FileHandle.mountedNode fsProvider node) := by
  have children : (FileHandle.mountedNode fsProvider node).children = node.children := by
    rw [FileHandle.mountedNode]
    split
    · rfl
    · rfl
  exact ⟨rfl, children ▸ tidy.2⟩

theorem mount_tidy {handle handle' : FileHandle} {fsProvider : List InitramfsEntry}
    {store store' : Store FileNode}
    (mounted : handle.mount fsProvider store = some (handle', store')) (tidy : store.All Tidy) :
    store'.All Tidy ∧ handle'.node = handle.node ∧
      ∀ place, (store.read place).isSome → (store'.read place).isSome := by
  rw [FileHandle.mount] at mounted
  split at mounted
  · split at mounted
    · obtain ⟨place, on, further⟩ := Option.bind_eq_some_iff.mp mounted
      obtain ⟨node, live, result⟩ := Option.bind_eq_some_iff.mp further
      split at result
      · split at result
        · cases result
          refine ⟨tidy.modify (fun _ _ => tidy_mountedNode (tidy.read live)) place, rfl,
            fun other alive => ?_⟩
          rw [store.read_modify]
          split
          · rw [live]
            rfl
          · exact alive
        · cases result
          exact ⟨tidy, rfl, fun _ alive => alive⟩
      · cases result
        exact ⟨tidy, rfl, fun _ alive => alive⟩
    · cases mounted
      exact ⟨tidy, rfl, fun _ alive => alive⟩
  · cases mounted
    exact ⟨tidy, rfl, fun _ alive => alive⟩

/-- What a careful call other than `mount` does. -/
theorem CarefulStep.gentle (sane : Sane s) (step : CarefulStep memory s op s')
    (calls : op.isMount = false) :
    Gentle memory s.store s'.store ∧ Sane s' ∧ ∀ directory node, s.inspected memory op =
      some (directory, node) → ∃ store₁, Settled memory directory store₁ ∧
      Gentle memory store₁ s'.store := by
  obtain ⟨careful, taken⟩ := step
  cases op with
  | openPath path writable =>
      obtain ⟨⟨handle, store'⟩, opened, same⟩ := Option.bind_eq_some_iff.mp taken
      cases same
      have found : ∀ node, s.store.read root = some node → node.type = .directory →
          (FileHandle.currentComponent memory path).length ≠ 0 →
          s.inspected memory (.openPath path writable) = some (root, node) := by
        intro node live type more
        simp only [Vfs.inspected, live, Option.bind_eq_bind, Option.bind_some,
          if_pos (And.intro more type)]
      obtain ⟨gentle, live, settled⟩ := ofPath_gentle opened sane.tidy fun node live type more =>
        careful _ (found node live type more)
      refine ⟨gentle, ⟨gentle.tidy, fun other member place on => ?_⟩,
        fun directory node looked => ?_⟩
      · rcases List.mem_append.mp member with old | new
        · exact gentle.live (sane.live other old place on)
        · obtain rfl := List.mem_singleton.mp new
          exact live place on
      · obtain ⟨node', live', result⟩ := Option.bind_eq_some_iff.mp looked
        obtain ⟨⟨more, type⟩, same⟩ := Option.ite_none_right_eq_some.mp result
        cases same
        exact settled _ live' type more
  | openChild i index writable =>
      obtain ⟨handle, at_i, further⟩ := Option.bind_eq_some_iff.mp taken
      obtain ⟨⟨handle', store', result⟩, called, same⟩ := Option.bind_eq_some_iff.mp further
      cases same
      obtain ⟨looked, live⟩ := openChild_looked called sane.tidy (careful.sizes at_i rfl)
      obtain ⟨gentle, sane', settled⟩ := looked.settle sane at_i
      refine ⟨gentle, ⟨sane'.tidy, fun other member place on => ?_⟩, settled⟩
      rcases List.mem_append.mp member with old | new
      · exact sane'.live other old place on
      · obtain rfl := List.mem_singleton.mp new
        exact live place on
  | childName i index =>
      obtain ⟨handle, at_i, further⟩ := Option.bind_eq_some_iff.mp taken
      obtain ⟨⟨handle', store', name⟩, called, same⟩ := Option.bind_eq_some_iff.mp further
      cases same
      exact (childName_looked called sane.tidy (careful.sizes at_i rfl)).settle sane at_i
  | findChild i name =>
      obtain ⟨handle, at_i, further⟩ := Option.bind_eq_some_iff.mp taken
      obtain ⟨⟨handle', store', index⟩, called, same⟩ := Option.bind_eq_some_iff.mp further
      cases same
      exact (findChild_looked called sane.tidy (careful.sizes at_i rfl)).settle sane at_i
  | close i =>
      obtain ⟨handle, at_i, further⟩ := Option.bind_eq_some_iff.mp taken
      obtain ⟨⟨handle', store'⟩, closed, same⟩ := Option.bind_eq_some_iff.mp further
      cases same
      obtain ⟨gentle, same⟩ := close_gentle memory closed sane.tidy
      exact ⟨gentle, ⟨gentle.tidy, sane.live_set at_i (fun _ => gentle.live) same⟩, nofun⟩
  | mount i fsProvider => cases calls

theorem CarefulStep.sane (sane : Sane s) (step : CarefulStep memory s op s') : Sane s' := by
  cases calls : op.isMount with
  | false => exact (step.gentle sane calls).2.1
  | true =>
      cases op with
      | mount i fsProvider =>
          obtain ⟨handle, at_i, further⟩ := Option.bind_eq_some_iff.mp step.2
          obtain ⟨⟨handle', store'⟩, mounted, same⟩ := Option.bind_eq_some_iff.mp further
          cases same
          obtain ⟨tidy, same, alive⟩ := mount_tidy mounted sane.tidy
          exact ⟨tidy, sane.live_set at_i alive fun _ on => same ▸ on⟩
      | _ => cases calls

end Steps

section Stability

variable {memory : Nat → UInt8} {store store' : Store FileNode} {directory : Nat × Nat}

/-- The children of a vector keep their names, their types and their entries. -/
theorem Gentle.contents_view (gentle : Gentle memory store store') {v : Util.Vector}
    (sound : v.Sound store) :
    (v.contents store').map (FileNode.view memory) =
      (v.contents store).map (FileNode.view memory) := by
  rw [Vector.contents, Vector.contents]
  cases held : v.data with
  | none => rfl
  | some data =>
      obtain ⟨handed, length⟩ := sound.allocated data held
      refine List.ext_getElem? fun i => ?_
      rw [Option.elim_some, Option.elim_some, List.getElem?_map, List.getElem?_map,
        List.getElem?_take, List.getElem?_take]
      split
      · rename_i below
        have inside : i < (store.blocks data).length :=
          length ▸ Nat.lt_of_lt_of_le below sound.size_le
        have live : store.read (data, i) = some (store.blocks data)[i] :=
          store.read_eq_some.mpr ⟨handed, List.getElem?_eq_getElem inside⟩
        obtain ⟨_, _, there, _⟩ := gentle.keeps _ _ live
        rw [(store'.read_eq_some.mp there).2, List.getElem?_eq_getElem inside]
        rfl
      · rfl

/-- A directory that is populated stays as it is. -/
theorem Settled.stable (settled : Settled memory directory store)
    (gentle : Gentle memory store store') :
    ∃ node node', store.read directory = some node ∧ store'.read directory = some node' ∧
      node'.children = node.children ∧ listingOf memory node' = listingOf memory node ∧
      (childrenOf store' directory).map (FileNode.view memory) =
        (listingOf memory node).map (FileNode.view memory) := by
  obtain ⟨node, live, sound, contents⟩ := settled
  obtain ⟨openCount, children, there, change⟩ := gentle.keeps directory node live
  have same : children = node.children := by
    rcases change with same | ⟨empty, filled⟩
    · exact same
    · have none := sound.contents_length
      rw [empty, contents] at none
      exact absurd (List.eq_nil_of_length_eq_zero none) filled
  refine ⟨node, _, live, there, same, rfl, ?_⟩
  rw [childrenOf, there, Option.elim_some]
  change (children.contents store').map _ = _
  rw [same, gentle.contents_view sound, contents]

end Stability

theorem inspected_read {memory : Nat → UInt8} {s : Vfs} {op : Op} {directory : Nat × Nat}
    {node : FileNode} (inspected : s.inspected memory op = some (directory, node)) :
    s.store.read directory = some node := by
  have on_handle : ∀ i, s.lookedInto i = some (directory, node) →
      s.store.read directory = some node := by
    intro i looked
    obtain ⟨handle, at_i, _⟩ := Option.bind_eq_some_iff.mp looked
    exact ((lookedInto_iff at_i).mp looked).2.2.1
  cases op with
  | openPath path writable =>
      obtain ⟨found, live, result⟩ := Option.bind_eq_some_iff.mp inspected
      obtain ⟨-, same⟩ := Option.ite_none_right_eq_some.mp result
      cases same
      exact live
  | openChild i index writable => exact on_handle i inspected
  | childName i index => exact on_handle i inspected
  | findChild i name => exact on_handle i inspected
  | close i => cases inspected
  | mount i fsProvider => cases inspected

theorem gentle_run {memory : Nat → UInt8} {s t : Vfs} {ops : List Op}
    (run : Run (CarefulStep memory) s ops t) (calls : ∀ op ∈ ops, op.isMount = false)
    (sane : Sane s) : Gentle memory s.store t.store := by
  have all : Gentle memory s.store t.store ∧ Sane t := by
    refine (run.guarded calls).invariant (P := fun u => Gentle memory s.store u.store ∧ Sane u)
      ⟨Gentle.refl sane.tidy, sane⟩ ?_
    rintro u op u' ⟨gentle, sane⟩ ⟨call, step⟩
    obtain ⟨further, sane', _⟩ := step.gentle sane call
    exact ⟨gentle.trans further, sane'⟩
  exact all.1

/-- From one state to a later one the directory has the children that its provider has for the
    node, each of them once, in one place, and the nodes that handles refer to stay as well. -/
structure Steady (memory : Nat → UInt8) (directory : Nat × Nat) (found : FileNode)
    (s t : Vfs) : Prop where
  first : (childrenOf s.store directory).map (FileNode.view memory) =
    (listingOf memory found).map (FileNode.view memory)
  later : (childrenOf t.store directory).map (FileNode.view memory) =
    (listingOf memory found).map (FileNode.view memory)
  position : ∃ node node', s.store.read directory = some node ∧
    t.store.read directory = some node' ∧
    node'.children = node.children
  handles : ∀ handle ∈ s.handles, ∀ place, handle.node = some place →
    ∃ file openCount children, s.store.read place = some file ∧
      t.store.read place = some { file with openCount := openCount, children := children }

/-- In a careful run a directory is steady from the first call on that looks into it, and what
    `childName` gives for it are the names that its provider has. -/
theorem children_settled (memory : Nat → UInt8) (ops : List Op) (s : Vfs)
    (before : Run (CarefulStep memory) Vfs.initial ops s) (op : Op) (s' : Vfs)
    (step : CarefulStep memory s op s') (directory : Nat × Nat) (found : FileNode)
    (inspected : s.inspected memory op = some (directory, found)) (ops' : List Op) (t : Vfs)
    (after : Run (CarefulStep memory) s' ops' t) (calls : ∀ other ∈ ops', other.isMount = false) :
    Steady memory directory found s' t ∧
      ∀ i index, op = .childName i index → ∃ handle handle' name, s.handles[i]? = some handle ∧
        handle.childName memory index s.store = some (handle', s'.store, name) ∧
        name = (listingOf memory found)[index]?.elim {} FileNode.name := by
  have sane := before.invariant sane_initial fun _ _ _ sane step => CarefulStep.sane sane step
  have call : op.isMount = false := by
    cases op with
    | mount _ _ => cases inspected
    | _ => rfl
  obtain ⟨gentle, sane', settled⟩ := step.gentle sane call
  obtain ⟨store₁, settled₁, gentle₁⟩ := settled directory found inspected
  have gentle' := gentle_run after calls sane'
  obtain ⟨node₁, node, live₁, live, same, listing, view⟩ := settled₁.stable gentle₁
  obtain ⟨node₂, node', live₂, live', same', _, view'⟩ := settled₁.stable (gentle₁.trans gentle')
  obtain rfl := Option.some.inj (live₁.symm.trans live₂)
  have children : listingOf memory node₁ = listingOf memory found := by
    obtain ⟨_, _, kept, _⟩ := gentle.keeps directory found (inspected_read inspected)
    obtain rfl := Option.some.inj (live.symm.trans kept)
    exact listing.symm
  rw [children] at view view'
  refine ⟨⟨view, view', ⟨node, node', live, live', same'.trans same.symm⟩,
    fun handle member place on => ?_⟩, ?_⟩
  · obtain ⟨file, here⟩ := Option.isSome_iff_exists.mp (sane'.live handle member place on)
    obtain ⟨openCount, children, there, _⟩ := gentle'.keeps place file here
    exact ⟨file, openCount, children, here, there⟩
  · rintro i index rfl
    obtain ⟨handle, at_i, further⟩ := Option.bind_eq_some_iff.mp step.2
    obtain ⟨⟨handle', store', name⟩, called, same⟩ := Option.bind_eq_some_iff.mp further
    cases same
    have looks := (lookedInto_iff at_i).mp inspected
    exact ⟨handle, handle', name, at_i, called,
      childName_name called sane.tidy looks (step.1 _ inspected).1⟩

/-- Careful calls as they can be computed. -/
def carefulCalls (memory : Nat → UInt8) (s : Vfs) (ops : List Op) : Option Vfs :=
  ops.foldlM (fun s op => if Careful memory s op then s.step memory op else none) s

/-- The root is opened, by the slash in the text, and the entries are mounted on it. -/
def sampleMounted : Vfs :=
  (carefulCalls sampleText Vfs.initial [.openPath ⟨6, 1⟩ true, .mount 0 sampleEntries]).get
    (by decide +kernel)

def sampleRoot : FileNode :=
  { type := .directory, openCount := 1, node := some 0, fsProvider := some sampleEntries }

def sampleNamed : Vfs :=
  (sampleMounted.step sampleText (.childName 0 0)).get (by decide +kernel)

def sampleClosed : Vfs :=
  (carefulCalls sampleText sampleNamed [.openPath ⟨6, 1⟩ false, .close 0]).get (by decide +kernel)

theorem children_settled_sample : Steady sampleText root sampleRoot sampleNamed sampleClosed :=
  (children_settled sampleText _ sampleMounted (Run.of_foldlM_guarded (Option.eq_some_of_isSome _))
    (.childName 0 0) sampleNamed ⟨by decide +kernel, Option.eq_some_of_isSome _⟩ root sampleRoot
    (by decide +kernel)
    _ sampleClosed (Run.of_foldlM_guarded (Option.eq_some_of_isSome _)) (by decide)).1

def sampleFound : Vfs :=
  (sampleMounted.step sampleText (.findChild 0 ⟨7, 3⟩)).get (by decide +kernel)

def sampleOpened : Vfs :=
  (sampleFound.step sampleText (.openChild 0 0 false)).get (by decide +kernel)

/-- The calls at the start of the kernel: a child is looked up, then opened by its index, and is
    listed twice. -/
theorem children_doubled :
    Run (fun s op t => s.step sampleText op = some t) Vfs.initial
        [.openPath ⟨6, 1⟩ true, .mount 0 sampleEntries] sampleMounted ∧
      sampleMounted.step sampleText (.findChild 0 ⟨7, 3⟩) = some sampleFound ∧
      sampleMounted.inspected sampleText (.findChild 0 ⟨7, 3⟩) = some (root, sampleRoot) ∧
      sampleFound.step sampleText (.openChild 0 0 false) = some sampleOpened ∧
      ¬ Steady sampleText root sampleRoot sampleFound sampleOpened := by
  refine ⟨?_, Option.eq_some_of_isSome _, by decide +kernel, Option.eq_some_of_isSome _,
    fun steady => ?_⟩
  · exact (Run.of_foldlM_guarded (Option.eq_some_of_isSome _)).mono fun _ _ _ taken => taken.2
  · have once : (childrenOf sampleFound.store root).length = 1 := by decide +kernel
    have twice : (childrenOf sampleOpened.store root).length = 2 := by decide +kernel
    have lengths := congrArg List.length (steady.first.trans steady.later.symm)
    rw [List.length_map, List.length_map, once, twice] at lengths
    cases lengths

end Mykonos.Fs
