import Mykonos.Fs.Initramfs
import Mykonos.Util.Copying

/-! # File nodes

The nodes of the virtual file system, which live in the vectors of children of their
directories, and the operations of `InitramfsFsProvider` on them.
-/

namespace Mykonos.Fs

open Lib Util

/-- `FileNode`. Its `node` points to an entry, by the index of it, and its provider is given
    by the entries. -/
structure FileNode where
  name : String := {}
  type : FileType := .none
  openCount : Nat := 0
  children : Util.Vector := {}
  node : Option Nat := none
  fsProvider : Option (List InitramfsEntry) := none
  populated : Bool := false
  deriving Repr, DecidableEq

instance : Inhabited FileNode := ⟨{}⟩

section Populating

variable (memory : Nat → UInt8)

/-- A leading slash is removed. -/
def removeSlash (baseName : String) : String :=
  if baseName.get memory 0 = slash then baseName.subStringFrom 1 else baseName

/-- The name of the child that an entry makes in a directory, if it makes one. -/
def childBaseName (directoryName name : String) : Option String :=
  if name.startsWith memory directoryName then
    let baseName := removeSlash memory (name.subStringFrom directoryName.length)
    if baseName.length > 0 ∧ (baseName.findNext memory slash).isNull then some baseName else none
  else none

def makeChild (entries : List InitramfsEntry) (entry : InitramfsEntry) (i : Nat)
    (baseName : String) : FileNode :=
  { name := baseName
    node := some i
    type := entry.type
    fsProvider := some entries
    populated := false
    openCount := 0 }

/-- `directory.children.push_back`. -/
def appendChild (directory : Nat × Nat) (store : Store FileNode) (child : FileNode) :
    Store FileNode :=
  match store.read directory with
  | none => store
  | some node =>
      let (children, store) := node.children.pushBack child store
      store.modify directory fun node => { node with children := children }

/-- The body of the loop over the entries. -/
def populateEntry (entries : List InitramfsEntry) (directoryEntry : InitramfsEntry)
    (directory : Nat × Nat) (store : Store FileNode) : InitramfsEntry × Nat → Store FileNode
  | (entry, i) =>
      match childBaseName memory directoryEntry.name entry.name with
      | some baseName => appendChild directory store (makeChild entries entry i baseName)
      | none => store

/-- It fails where a null pointer is followed. -/
def populateDirectory (entries : List InitramfsEntry) (directory : Nat × Nat)
    (store : Store FileNode) :
    Option (Store FileNode) := do
  let node ← store.read directory
  let directoryEntry ← entries[← node.node]?
  some (entries.zipIdx.foldl (populateEntry memory entries directoryEntry directory) store)

/-- It fails where a null pointer is followed. The result has the memory after it. -/
def read (entries : List InitramfsEntry) (node : FileNode) (offset length buffer : Nat) :
    Option ((Nat → UInt8) × Nat) := do
  let entry ← entries[← node.node]?
  if offset < entry.size then
    let length := min (entry.size - offset) length
    some (memcpy memory buffer (entry.data + offset) length, length)
  else some (memory, 0)

/-- The one of `FsProvider`, which `InitramfsFsProvider` does not override. -/
def write (_entries : List InitramfsEntry) (_node : FileNode) (_offset _length _buffer : Nat) :
    Nat :=
  0

/-- The first entry is taken for the root directory. -/
def initRoot (entries : List InitramfsEntry) (root : FileNode) : FileNode :=
  { root with node := if 0 < entries.length then some 0 else none }

def freeNode (node : FileNode) : FileNode :=
  { node with node := none }

/-- The children that `populateDirectory` appends. -/
def listing (entries : List InitramfsEntry) (directoryEntry : InitramfsEntry) : List FileNode :=
  entries.zipIdx.filterMap fun (entry, i) =>
    (childBaseName memory directoryEntry.name entry.name).map (makeChild entries entry i)

end Populating

/-- What pushing children to a directory does to the nodes: the children are appended, and
    but for the directory itself only the block of its children changes. -/
structure Appended (directory : Nat × Nat) (node : FileNode) (store : Store FileNode)
    (added : List FileNode) (children : Util.Vector) (store' : Store FileNode) : Prop where
  written : store'.blocks directory.1 =
    (store.blocks directory.1).set directory.2 { node with children := children }
  sound : children.Sound store'
  contents : children.contents store' = node.children.contents store ++ added
  next_le : store.next ≤ store'.next
  kept : ∀ other < store.next, other ≠ directory.1 → node.children.data ≠ some other →
    store'.blocks other = store.blocks other
  owned : children.data = node.children.data ∨ ∃ data, children.data = some data ∧ store.next ≤ data

section Appending

variable {directory : Nat × Nat} {node : FileNode} {store store' : Store FileNode}
  {added : List FileNode} {children : Util.Vector}

theorem Appended.read (appended : Appended directory node store added children store')
    (live : store.read directory = some node) :
    store'.read directory = some { node with children := children } := by
  rw [Store.read_eq_some] at live ⊢
  refine ⟨Nat.lt_of_lt_of_le live.1 appended.next_le, ?_⟩
  rw [appended.written, List.getElem?_set_self (List.getElem?_eq_some_iff.mp live.2).1]

/-- A directory without children gets a block of its own for them. -/
theorem Appended.read_of_ne (appended : Appended directory node store added children store')
    (fresh : node.children.data = none) {place : Nat × Nat} {other : FileNode}
    (differ : place ≠ directory) (live : store.read place = some other) :
    store'.read place = some other := by
  rw [Store.read_eq_some] at live ⊢
  refine ⟨Nat.lt_of_lt_of_le live.1 appended.next_le, ?_⟩
  by_cases block : place.1 = directory.1
  · have index : directory.2 ≠ place.2 := fun equal => differ (Prod.ext block equal.symm)
    rw [block, appended.written, List.getElem?_set_ne index, ← block]
    exact live.2
  · rw [appended.kept place.1 live.1 block (fresh ▸ nofun)]
    exact live.2

theorem Appended.apart (appended : Appended directory node store added children store')
    (live : store.read directory = some node) (apart : node.children.data ≠ some directory.1) :
    children.data ≠ some directory.1 := by
  rcases appended.owned with same | ⟨data, held, fresh⟩
  · rwa [same]
  · have := (Store.read_eq_some store).mp live
    rw [held, ne_eq, Option.some.injEq]
    omega

theorem Appended.refl (live : store.read directory = some node)
    (sound : node.children.Sound store) :
    Appended directory node store [] node.children store := by
  refine ⟨?_, sound, (List.append_nil _).symm, Nat.le_refl _, fun _ _ _ _ => rfl, .inl rfl⟩
  obtain ⟨below, value⟩ := List.getElem?_eq_some_iff.mp ((Store.read_eq_some store).mp live).2
  conv_lhs => rw [← List.set_getElem_self below, value]

theorem Appended.trans {later : List FileNode} {children' : Util.Vector} {store'' : Store FileNode}
    (first : Appended directory node store added children store')
    (second :
      Appended directory { node with children := children } store' later children' store'') :
    Appended directory node store (added ++ later) children' store'' := by
  refine ⟨?_, second.sound, ?_, Nat.le_trans first.next_le second.next_le,
    fun other below away foreign => ?_, ?_⟩
  · rw [second.written, first.written, List.set_set]
  · rw [second.contents, ← List.append_assoc, ← first.contents]
  · rw [second.kept other (Nat.lt_of_lt_of_le below first.next_le) away,
      first.kept other below away foreign]
    rcases first.owned with same | ⟨data, held, fresh⟩
    · exact same ▸ foreign
    · simp only [held, ne_eq, Option.some.injEq]
      omega
  · rcases second.owned with same | ⟨data, held, fresh⟩
    · rw [same]
      exact first.owned
    · exact .inr ⟨data, held, Nat.le_trans first.next_le fresh⟩

theorem appendChild_appended (live : store.read directory = some node)
    (sound : node.children.Sound store) (apart : node.children.data ≠ some directory.1)
    (child : FileNode) :
    ∃ children, Appended directory node store [child] children
      (appendChild directory store child) := by
  obtain ⟨⟨children, store₁⟩, push⟩ : ∃ result, node.children.pushBack child store = result :=
    ⟨_, rfl⟩
  obtain ⟨sound₁, contents, touches⟩ := sound.pushBack child push
  obtain ⟨handed, here⟩ := (Store.read_eq_some store).mp live
  have same := touches.kept directory.1 handed apart
  have away : children.data ≠ some directory.1 := by
    rcases touches.owned with equal | ⟨data, held, fresh⟩
    · rwa [equal]
    · rw [held, ne_eq, Option.some.injEq]
      omega
  have result : appendChild directory store child =
      store₁.put directory.1 ((store.blocks directory.1).set directory.2
        { node with children := children }) := by
    simp only [appendChild, live, push, Store.modify, same, List.modify_eq_set, here,
      Option.getD_some]
  rw [result]
  refine ⟨children, store₁.put_self .., sound₁.put _ away, ?_, touches.next_le, ?_, touches.owned⟩
  · rw [Vector.contents_put _ away, contents]
  · intro other below differ foreign
    rw [Store.put_of_ne _ _ differ, touches.kept other below foreign]

theorem foldl_appendChild (live : store.read directory = some node)
    (sound : node.children.Sound store) (apart : node.children.data ≠ some directory.1)
    (added : List FileNode) :
    ∃ children, Appended directory node store added children
      (added.foldl (appendChild directory) store) := by
  induction added generalizing node store with
  | nil => exact ⟨node.children, Appended.refl live sound⟩
  | cons child rest ih =>
      obtain ⟨children, first⟩ := appendChild_appended live sound apart child
      obtain ⟨children', further⟩ := ih (first.read live) first.sound (first.apart live apart)
      exact ⟨children', first.trans further⟩

theorem populateDirectory_eq {memory : Nat → UInt8} {entries : List InitramfsEntry} {d : Nat}
    {directoryEntry : InitramfsEntry} (live : store.read directory = some node)
    (of : node.node = some d) (entry : entries[d]? = some directoryEntry) :
    populateDirectory memory entries directory store =
      some ((listing memory entries directoryEntry).foldl (appendChild directory) store) := by
  simp only [populateDirectory, live, of, entry, Option.bind_eq_bind, Option.bind_some, listing,
    List.foldl_filterMap]
  congr 2
  funext store ⟨entry, i⟩
  rw [populateEntry]
  cases childBaseName memory directoryEntry.name entry.name with
  | none => rfl
  | some baseName => rfl

theorem populateDirectory_inv {memory : Nat → UInt8} {entries : List InitramfsEntry}
    (live : store.read directory = some node)
    (populated : populateDirectory memory entries directory store = some store') :
    ∃ d directoryEntry, node.node = some d ∧ entries[d]? = some directoryEntry := by
  simp only [populateDirectory, live, Option.bind_eq_bind, Option.bind_some] at populated
  obtain ⟨d, of, entry⟩ := Option.bind_eq_some_iff.mp populated
  obtain ⟨directoryEntry, member, _⟩ := Option.bind_eq_some_iff.mp entry
  exact ⟨d, directoryEntry, of, member⟩

/-- What `populateDirectory` does. -/
theorem populateDirectory_appended (memory : Nat → UInt8) {entries : List InitramfsEntry} {d : Nat}
    {directoryEntry : InitramfsEntry} (live : store.read directory = some node)
    (of : node.node = some d) (entry : entries[d]? = some directoryEntry)
    (sound : node.children.Sound store) (apart : node.children.data ≠ some directory.1) :
    ∃ store' children, populateDirectory memory entries directory store = some store' ∧
      Appended directory node store (listing memory entries directoryEntry) children store' := by
  obtain ⟨children, appended⟩ :=
    foldl_appendChild live sound apart (listing memory entries directoryEntry)
  exact ⟨_, children, populateDirectory_eq live of entry, appended⟩

end Appending

end Mykonos.Fs
