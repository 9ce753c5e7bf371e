import Mykonos.Fs.Provider

/-! # The virtual file system

`FileHandle` and its operations over the tree of file nodes. An operation that follows a
null pointer, or one to a block that is gone, has no result.
-/

namespace Mykonos.Fs

open Lib Util

inductive FileError where
  | okay
  | closed
  | notFound
  | readOnly
  | notFile
  | notDirectory
  | busy
  deriving Repr, DecidableEq

/-- The calls that the constructor from a path makes. -/
inductive SubCall where
  | findChild
  | openChild
  | close
  deriving Repr, DecidableEq

structure FileHandle where
  node : Option (Nat × Nat) := none
  writable : Bool := false
  «open» : Bool := false
  error : FileError := .closed
  deriving Repr, DecidableEq

/-- `SIZE_MAX`. -/
abbrev sizeMax : Nat := 2 ^ 64 - 1

/-- Where the static root node is. -/
abbrev root : Nat × Nat := (0, 0)

namespace FileHandle

/-- The constructor from a node, which counts the handle. -/
def ofNode (node : Nat × Nat) (writable : Bool) (store : Store FileNode) :
    Option (FileHandle × Store FileNode) :=
  (store.read node).map fun _ =>
    (⟨some node, writable, true, .okay⟩,
      store.modify node fun node => { node with openCount := (node.openCount + 1) % 2 ^ 64 })

def getType (handle : FileHandle) (store : Store FileNode) : Option FileType :=
  if handle.open then do
    let node ← store.read (← handle.node)
    some node.type
  else some .none

def isOpen (handle : FileHandle) : Bool :=
  handle.open

/-- The handle still counts as open afterwards. -/
def close (handle : FileHandle) (store : Store FileNode) : Option (FileHandle × Store FileNode) :=
  if handle.open then do
    let node ← handle.node
    let _ ← store.read node
    some ({ handle with node := none, error := .closed },
      store.modify node fun node =>
        { node with openCount := (node.openCount + 2 ^ 64 - 1) % 2 ^ 64 })
  else some (handle, store)

section Lookup

variable (memory : Nat → UInt8)

/-- A directory is populated unless it has the flag for it. -/
def load (directory : Nat × Nat) (store : Store FileNode) : Option (Store FileNode) := do
  let node ← store.read directory
  if node.populated then some store
  else populateDirectory memory (← node.fsProvider) directory store

/-- What `childName`, `openChild` and `findChild` begin with: the node of the handle, when it
    is open and a directory, after it is loaded. -/
def inspect (handle : FileHandle) (store : Store FileNode) :
    Option (FileHandle × Store FileNode × Option FileNode) :=
  if handle.open then do
    let directory ← handle.node
    let node ← store.read directory
    if node.type = .directory then
      let store ← load memory directory store
      some (handle, store, store.read directory)
    else some ({ handle with error := .notDirectory }, store, none)
  else some (handle, store, none)

/-- `node->children[index]`. -/
def childAt (index : Nat) (directory : FileNode) : Option (Nat × Nat) :=
  if index < directory.children.size then directory.children.data.map fun data => (data, index)
  else none

def childName (handle : FileHandle) (index : Nat) (store : Store FileNode) :
    Option (FileHandle × Store FileNode × String) := do
  let (handle, store, directory) ← handle.inspect memory store
  match directory.bind (childAt index) with
  | some child => some (handle, store, (← store.read child).name)
  | none => some (handle, store, {})

def openChild (handle : FileHandle) (index : Nat) (writable : Bool) (store : Store FileNode) :
    Option (FileHandle × Store FileNode × FileHandle) := do
  let (handle, store, directory) ← handle.inspect memory store
  match directory.bind (childAt index) with
  | some child =>
      let (result, store) ← ofNode child writable store
      some (handle, store, result)
  | none => some (handle, store, {})

def findChild (handle : FileHandle) (name : String) (store : Store FileNode) :
    Option (FileHandle × Store FileNode × Nat) := do
  let (handle, store, directory) ← handle.inspect memory store
  let found := directory.bind fun node =>
    (node.children.contents store).findIdx? fun entry => entry.name.equals memory name
  some (handle, store, found.getD sizeMax)

/-- The result has the memory after the call. -/
def read (handle : FileHandle) (offset length buffer : Nat) (store : Store FileNode) :
    Option (FileHandle × (Nat → UInt8) × Nat) :=
  if handle.open then do
    let node ← store.read (← handle.node)
    if node.type = .file then
      let (memory, result) ← Fs.read memory (← node.fsProvider) node offset length buffer
      some (handle, memory, result)
    else some ({ handle with error := .notFile }, memory, 0)
  else some (handle, memory, 0)

/-- The slashes in front are skipped; each round makes the path shorter. -/
def skipSlashes : Nat → String → String
  | 0, path => path
  | fuel + 1, path =>
      if path.get memory 0 = slash then skipSlashes fuel (path.subStringFrom 1) else path

/-- The component that a path begins with. -/
def currentComponent (path : String) : String :=
  (skipSlashes memory path.length path).findBefore memory slash

/-- The loop over the components, which ends at the handle of the last one or at a component
    that is not found. Each round makes the path shorter. -/
def walk : Nat → String → FileHandle → Store FileNode → Option (Option FileHandle × Store FileNode)
  | 0, _, current, store => some (some current, store)
  | fuel + 1, path, current, store =>
      if path.length = 0 then some (some current, store)
      else if (currentComponent memory path).length = 0 then some (some current, store)
      else do
        let (current, store, nextIndex) ← current.findChild memory
          (currentComponent memory path) store
        if nextIndex = sizeMax then
          let (_, store) ← current.close store
          some (none, store)
        else
          let (current, store, next) ← current.openChild memory nextIndex false store
          let (_, store) ← current.close store
          walk fuel ((skipSlashes memory path.length path).findNext memory slash) next store

/-- The constructor from a path. -/
def ofPath (path : String) (writable : Bool) (store : Store FileNode) :
    Option (FileHandle × Store FileNode) := do
  let (current, store) ← ofNode root false store
  match ← walk memory path.length path current store with
  | (none, store) => some (⟨none, writable, false, .notFound⟩, store)
  | (some current, store) =>
      let node ← current.node
      let (_, store) ← current.close store
      ofNode node writable store

/-- The calls that the loop makes, with the handles and the nodes that it makes them on. -/
def walkTrace : Nat → String → FileHandle → Store FileNode →
    List (SubCall × FileHandle × Store FileNode)
  | 0, _, _, _ => []
  | fuel + 1, path, current, store =>
      if path.length = 0 then []
      else if (currentComponent memory path).length = 0 then []
      else
        (.findChild, current, store) ::
          match current.findChild memory (currentComponent memory path) store with
          | none => []
          | some (current, store, nextIndex) =>
              if nextIndex = sizeMax then [(.close, current, store)]
              else
                (.openChild, current, store) ::
                  match current.openChild memory nextIndex false store with
                  | none => []
                  | some (current, store, next) =>
                      (.close, current, store) ::
                        match current.close store with
                        | none => []
                        | some (_, store) =>
                            walkTrace fuel
                              ((skipSlashes memory path.length path).findNext memory slash) next
                              store

/-- The calls that the constructor from a path makes. -/
def pathTrace (path : String) (store : Store FileNode) :
    List (SubCall × FileHandle × Store FileNode) :=
  match ofNode root false store with
  | none => []
  | some (current, store) =>
      walkTrace memory path.length path current store ++
        match walk memory path.length path current store with
        | some (some current, store) => [(.close, current, store)]
        | _ => []

end Lookup

def write (handle : FileHandle) (offset length buffer : Nat) (store : Store FileNode) :
    Option (FileHandle × Nat) :=
  if handle.open ∧ handle.writable then do
    let node ← store.read (← handle.node)
    if node.type = .file then some (handle, Fs.write (← node.fsProvider) node offset length buffer)
    else some ({ handle with error := .notFile }, 0)
  else if ¬ handle.writable then some ({ handle with error := .readOnly }, 0)
  else some (handle, 0)

/-- What the node of a directory becomes when a provider, given by its entries, is mounted. -/
def mountedNode (fsProvider : List InitramfsEntry) (node : FileNode) : FileNode :=
  let freed := if node.fsProvider.isSome then freeNode node else node
  initRoot fsProvider { freed with fsProvider := some fsProvider, populated := false }

def mount (handle : FileHandle) (fsProvider : List InitramfsEntry) (store : Store FileNode) :
    Option (FileHandle × Store FileNode) :=
  if handle.open then
    if handle.writable then do
      let place ← handle.node
      let node ← store.read place
      if node.type = .directory then
        if node.children.size = 0 ∧ node.openCount = 1 then
          some (handle, store.modify place fun _ => mountedNode fsProvider node)
        else some ({ handle with error := .busy }, store)
      else some ({ handle with error := .notDirectory }, store)
    else some ({ handle with error := .readOnly }, store)
  else some (handle, store)

end FileHandle

/-- The file nodes, and the handles that have been made so far. -/
structure Vfs where
  store : Store FileNode
  handles : List FileHandle

/-- Only the root, which nothing is mounted on. -/
def Vfs.initial : Vfs :=
  ⟨⟨fun block => if block = 0 then [{ type := .directory }] else [], 1⟩, []⟩

/-- A call, with the number of the handle that it is made on. -/
inductive Op where
  | openPath (path : String) (writable : Bool)
  | openChild (handle index : Nat) (writable : Bool)
  | childName (handle index : Nat)
  | findChild (handle : Nat) (name : String)
  | close (handle : Nat)
  | mount (handle : Nat) (fsProvider : List InitramfsEntry)
  deriving Repr, DecidableEq

namespace Vfs

/-- The handle as the call has left it. -/
def settle (s : Vfs) (index : Nat) (handle : FileHandle) (store : Store FileNode) : Vfs :=
  ⟨store, s.handles.set index handle⟩

def step (memory : Nat → UInt8) (s : Vfs) : Op → Option Vfs
  | .openPath path writable => do
      let (handle, store) ← FileHandle.ofPath memory path writable s.store
      some ⟨store, s.handles ++ [handle]⟩
  | .openChild i index writable => do
      let (handle, store, result) ← (← s.handles[i]?).openChild memory index writable s.store
      some ⟨store, s.handles.set i handle ++ [result]⟩
  | .childName i index => do
      let (handle, store, _) ← (← s.handles[i]?).childName memory index s.store
      some (s.settle i handle store)
  | .findChild i name => do
      let (handle, store, _) ← (← s.handles[i]?).findChild memory name s.store
      some (s.settle i handle store)
  | .close i => do
      let (handle, store) ← (← s.handles[i]?).close s.store
      some (s.settle i handle store)
  | .mount i fsProvider => do
      let (handle, store) ← (← s.handles[i]?).mount fsProvider s.store
      some (s.settle i handle store)

end Vfs

namespace FileHandle

variable {memory : Nat → UInt8} {handle handle' result : FileHandle} {store store' : Store FileNode}

/-- What `close` does. -/
theorem close_cases (closed : handle.close store = some (handle', store')) :
    (handle.open = false ∧ handle' = handle ∧ store' = store) ∨
      ∃ place node, handle.open = true ∧ handle.node = some place ∧ store.read place = some node ∧
        handle' = { handle with node := none, error := .closed } ∧
        store' = store.modify place fun node =>
          { node with openCount := (node.openCount + 2 ^ 64 - 1) % 2 ^ 64 } := by
  cases isOpen : handle.open with
  | false =>
      rw [close, isOpen] at closed
      cases closed
      exact .inl ⟨rfl, rfl, rfl⟩
  | true =>
      rw [close, if_pos isOpen] at closed
      obtain ⟨place, on, further⟩ := Option.bind_eq_some_iff.mp closed
      obtain ⟨node, live, same⟩ := Option.bind_eq_some_iff.mp further
      cases same
      exact .inr ⟨place, node, rfl, on, live, by rw [isOpen], rfl⟩

/-- `childName` does no more than look. -/
theorem childName_inspects {index : Nat} {name : String}
    (taken : handle.childName memory index store = some (handle', store', name)) :
    ∃ found, handle.inspect memory store = some (handle', store', found) := by
  obtain ⟨⟨handle₁, store₁, found⟩, inspected, further⟩ := Option.bind_eq_some_iff.mp taken
  dsimp only at further
  split at further
  · obtain ⟨_, _, same⟩ := Option.bind_eq_some_iff.mp further
    cases same
    exact ⟨found, inspected⟩
  · cases further
    exact ⟨found, inspected⟩

/-- `openChild` looks, and then may open the child. -/
theorem openChild_inspects {index : Nat} {writable : Bool}
    (taken : handle.openChild memory index writable store = some (handle', store', result)) :
    ∃ store₁ found, handle.inspect memory store = some (handle', store₁, found) ∧
      ((store' = store₁ ∧ result = {}) ∨ ∃ child, ofNode child writable store₁ =
        some (result, store')) := by
  obtain ⟨⟨handle₁, store₁, found⟩, inspected, further⟩ := Option.bind_eq_some_iff.mp taken
  dsimp only at further
  split at further
  · rename_i child _
    obtain ⟨_, made, same⟩ := Option.bind_eq_some_iff.mp further
    cases same
    exact ⟨store₁, found, inspected, .inr ⟨child, made⟩⟩
  · cases further
    exact ⟨_, found, inspected, .inl ⟨rfl, rfl⟩⟩

end FileHandle

end Mykonos.Fs
