import Mykonos.Fs.Paths
import Mykonos.Fs.Population

/-! # Nodes without a provider

Every lookup calls the provider of a directory, and the root has none before something is
mounted on it. It is the only such node: a call goes through a null provider if and only if
it looks into the root before that.
-/

namespace Mykonos.Fs

open Lib Util

/-- The memory that file contents are read into, and the file system. -/
structure Storage where
  memory : Nat → UInt8
  vfs : Vfs

inductive VfsCall where
  | op (op : Op)
  | read (handle offset length buffer : Nat)
  | write (handle offset length buffer : Nat)
  deriving Repr, DecidableEq

def Storage.step (s : Storage) : VfsCall → Option Storage
  | .op op => do
      let vfs ← s.vfs.step s.memory op
      some { s with vfs }
  | .read i offset length buffer => do
      let (handle, memory, _) ← (← s.vfs.handles[i]?).read s.memory offset length buffer s.vfs.store
      some ⟨memory, s.vfs.settle i handle s.vfs.store⟩
  | .write i offset length buffer => do
      let (handle, _) ← (← s.vfs.handles[i]?).write offset length buffer s.vfs.store
      some { s with vfs := s.vfs.settle i handle s.vfs.store }

/-- A lookup through the handle calls the provider of a directory that has none. -/
def LookupNull (handle : FileHandle) (store : Store FileNode) : Prop :=
  ∃ directory node, Looks handle store directory node ∧ node.populated = false ∧
    node.fsProvider = none

/-- An access through the handle calls the provider of a file that has none. -/
def AccessNull (handle : FileHandle) (store : Store FileNode) : Prop :=
  ∃ place node, handle.open = true ∧ handle.node = some place ∧ store.read place = some node ∧
    node.type = .file ∧
    node.fsProvider = none

/-- The call goes through a null provider. `mount` tests the provider before it calls it. -/
def NullCall (s : Storage) : VfsCall → Prop
  | .op (.openPath path _) =>
      ∃ sub ∈ FileHandle.pathTrace s.memory path s.vfs.store, sub.1 ≠ .close ∧
        LookupNull sub.2.1 sub.2.2
  | .op (.openChild i _ _) | .op (.childName i _) | .op (.findChild i _) =>
      ∃ handle, s.vfs.handles[i]? = some handle ∧ LookupNull handle s.vfs.store
  | .op (.close _) | .op (.mount _ _) => False
  | .read i _ _ _ => ∃ handle, s.vfs.handles[i]? = some handle ∧ AccessNull handle s.vfs.store
  | .write i _ _ _ =>
      ∃ handle, s.vfs.handles[i]? = some handle ∧ handle.writable = true ∧
        AccessNull handle s.vfs.store

/-- What is mounted on the root. -/
def rootProvider (store : Store FileNode) : Option (List InitramfsEntry) :=
  (store.read root).bind FileNode.fsProvider

/-- The root is a directory by itself in its block, and every other node that is a file or a
    directory has a provider. -/
structure Furnished (store : Store FileNode) : Prop where
  root : ∃ node, store.blocks 0 = [node] ∧ node.type = .directory ∧ node.populated = false
  away : ∀ data ≠ 0, ∀ node ∈ store.blocks data, node.type = .none ∨ node.fsProvider.isSome
  apart : store.All fun node => node.children.data ≠ some 0
  next_pos : 0 < store.next

section Furnishing

variable {memory : Nat → UInt8} {store store' : Store FileNode} {directory place : Nat × Nat}
  {node child : FileNode}

theorem Furnished.read_root (furnished : Furnished store) :
    ∃ node, store.blocks 0 = [node] ∧ store.read Fs.root = some node ∧ node.type = .directory ∧
      node.populated = false ∧ rootProvider store = node.fsProvider := by
  obtain ⟨node, block, type, flag⟩ := furnished.root
  have live : store.read Fs.root = some node := by
    rw [Store.read_eq_some, block]
    exact ⟨furnished.next_pos, rfl⟩
  exact ⟨node, block, live, type, flag, by rw [rootProvider, live]; rfl⟩

/-- A node that is no provider's is the root. -/
theorem Furnished.eq_root (furnished : Furnished store) (live : store.read place = some node)
    (type : node.type ≠ .none) (bare : node.fsProvider = none) : place = Fs.root := by
  obtain ⟨root, block, _, _⟩ := furnished.root
  obtain ⟨_, here⟩ := (Store.read_eq_some store).mp live
  by_cases first : place.1 = 0
  · rw [first, block] at here
    have index := (List.getElem?_eq_some_iff.mp here).1
    exact Prod.ext first (Nat.lt_one_iff.mp index)
  · rcases furnished.away place.1 first node (List.mem_of_getElem? here) with none | some
    · exact absurd none type
    · rw [bare] at some
      cases some

/-- A change of nodes that keeps their type and children, and takes no provider away. -/
theorem Furnished.modify (furnished : Furnished store) {f : FileNode → FileNode} (place : Nat × Nat)
    (type : ∀ node, (f node).type = node.type) (children : ∀ node, (f node).children.data ≠ some 0 ∨
      (f node).children = node.children)
    (flag : ∀ node, node.populated = false → (f node).populated = false)
    (provider : ∀ node, node.fsProvider.isSome → (f node).fsProvider.isSome) :
    Furnished (store.modify place f) := by
  have cells : ∀ data, ∀ node ∈ (store.modify place f).blocks data,
      ∃ before ∈ store.blocks data, node = before ∨ node = f before := by
    intro data node member
    obtain ⟨index, here⟩ := List.mem_iff_getElem?.mp member
    rw [store.getElem?_modify] at here
    split at here
    · obtain ⟨before, old, rfl⟩ := Option.map_eq_some_iff.mp here
      exact ⟨before, List.mem_of_getElem? old, .inr rfl⟩
    · exact ⟨node, List.mem_of_getElem? here, .inl rfl⟩
  obtain ⟨root, block, isDirectory, bare⟩ := furnished.root
  refine ⟨?_, fun data away node member => ?_, fun data node member => ?_, furnished.next_pos⟩
  · have length : ((store.modify place f).blocks 0).length = 1 := by
      rw [Store.modify]
      by_cases first : 0 = place.1
      · rw [← first, Store.put_self, List.length_modify, block]
        rfl
      · rw [store.put_of_ne _ first, block]
        rfl
    obtain ⟨node, single⟩ := List.length_eq_one_iff.mp length
    obtain ⟨before, old, same⟩ := cells 0 node (single ▸ List.mem_singleton_self node)
    rw [block] at old
    obtain rfl := List.mem_singleton.mp old
    refine ⟨node, single, ?_⟩
    rcases same with rfl | rfl
    · exact ⟨isDirectory, bare⟩
    · exact ⟨(type before).trans isDirectory, flag before bare⟩
  · obtain ⟨before, old, same⟩ := cells data node member
    have kept := furnished.away data away before old
    rcases same with rfl | rfl
    · exact kept
    · rw [type]
      exact kept.imp_right (provider before)
  · obtain ⟨before, old, same⟩ := cells data node member
    have kept := furnished.apart data before old
    rcases same with rfl | rfl
    · exact kept
    · rcases children before with apart | same
      · exact apart
      · rw [same]
        exact kept

theorem rootProvider_modify {f : FileNode → FileNode}
    (provider : ∀ node, (f node).fsProvider = node.fsProvider) :
    rootProvider (store.modify place f) = rootProvider store := by
  rw [rootProvider, rootProvider, store.read_modify]
  split
  · rename_i here
    rw [← here]
    cases store.read Fs.root with
    | none => rfl
    | some node => exact provider node
  · rfl

/-- The nodes are furnished, and what is mounted on the root is known. -/
def Mounted (fsProvider : Option (List InitramfsEntry)) (store : Store FileNode) : Prop :=
  Furnished store ∧ rootProvider store = fsProvider

variable {fsProvider : Option (List InitramfsEntry)}

theorem Mounted.counted (mounted : Mounted fsProvider store) (place : Nat × Nat)
    (f : FileNode → Nat) :
    Mounted fsProvider (store.modify place fun node => { node with openCount := f node }) :=
  ⟨mounted.1.modify place (fun _ => rfl) (fun _ => .inr rfl) (fun _ flag => flag)
    fun _ some => some, (rootProvider_modify (by intro _; rfl)).trans mounted.2⟩

theorem Mounted.appendChild (mounted : Mounted fsProvider store) (given : child.fsProvider.isSome)
    (fresh : child.children = {}) : Mounted fsProvider (appendChild directory store child) := by
  obtain ⟨furnished, known⟩ := mounted
  rw [Fs.appendChild]
  cases live : store.read directory with
  | none => exact ⟨furnished, known⟩
  | some node =>
      have touches := node.children.pushBack_touches child store
      have apart := furnished.apart.read live
      have kept := touches.kept 0 furnished.next_pos apart
      have grown : (node.children.pushBack child store).1.data ≠ some 0 := by
        rcases touches.owned with same | ⟨data, held, above⟩
        · rwa [same]
        · have := furnished.next_pos
          rw [held, ne_eq, Option.some.injEq]
          omega
      have pushed : Furnished (node.children.pushBack child store).2 := by
        refine ⟨kept ▸ furnished.root, fun data away other member => ?_, ?_,
          Nat.lt_of_lt_of_le furnished.next_pos touches.next_le⟩
        · rcases Vector.mem_pushBack member with rfl | rfl | old | ⟨block, place, moved⟩
          · exact .inr given
          · exact .inl rfl
          · exact furnished.away data away other old
          · refine furnished.away block ?_ other moved
            rintro rfl
            rcases place with held | above
            · exact apart held
            · exact Nat.not_lt.mpr above furnished.next_pos
        · exact Vector.pushBack_all furnished.apart (by simp [default]) (by rw [fresh]; simp)
      have root : rootProvider (node.children.pushBack child store).2 = fsProvider := by
        obtain ⟨before, block, _, _, _, same⟩ := furnished.read_root
        obtain ⟨after, block', _, _, _, same'⟩ := pushed.read_root
        rw [kept, block] at block'
        cases block'
        rw [same', ← same, known]
      change Mounted fsProvider
          ((node.children.pushBack child store).2.modify directory fun other =>
        { other with children := (node.children.pushBack child store).1 })
      exact ⟨pushed.modify directory (fun _ => rfl) (fun _ => .inl grown) (fun _ flag => flag)
        fun _ some => some, (rootProvider_modify (by intro _; rfl)).trans root⟩

theorem Mounted.foldl_appendChild (mounted : Mounted fsProvider store) {added : List FileNode}
    (new : ∀ child ∈ added, child.fsProvider.isSome ∧ child.children = {}) :
    Mounted fsProvider (added.foldl (Fs.appendChild directory) store) := by
  induction added generalizing store with
  | nil => exact mounted
  | cons child rest ih =>
      obtain ⟨given, fresh⟩ := new child List.mem_cons_self
      exact ih (mounted.appendChild given fresh) fun other member =>
        new other (List.mem_cons_of_mem _ member)

theorem listing_furnished (entries : List InitramfsEntry) (directoryEntry : InitramfsEntry) :
    ∀ child ∈ listing memory entries directoryEntry, child.fsProvider.isSome ∧
    child.children = {} := by
  intro child listed
  obtain ⟨place, _, made⟩ := List.mem_filterMap.mp listed
  obtain ⟨baseName, _, rfl⟩ := Option.map_eq_some_iff.mp made
  exact ⟨rfl, rfl⟩

theorem Mounted.load (mounted : Mounted fsProvider store)
    (loaded : FileHandle.load memory directory store = some store') :
    Mounted fsProvider store' := by
  obtain ⟨node, live, further⟩ := Option.bind_eq_some_iff.mp loaded
  split at further
  · cases further
    exact mounted
  · obtain ⟨entries, _, populated⟩ := Option.bind_eq_some_iff.mp further
    obtain ⟨d, directoryEntry, of, member⟩ := populateDirectory_inv live populated
    rw [populateDirectory_eq live of member] at populated
    cases populated
    exact mounted.foldl_appendChild (listing_furnished entries directoryEntry)

end Furnishing

/-- What counting handles and populating directories keep. -/
structure KeptByCalls (memory : Nat → UInt8) (P : Store FileNode → Prop) : Prop where
  counted : ∀ store place (f : FileNode → Nat), P store →
    P (store.modify place fun node => { node with openCount := f node })
  loaded : ∀ store directory store', P store → FileHandle.load memory directory store =
    some store' → P store'

namespace KeptByCalls

variable {memory : Nat → UInt8} {P : Store FileNode → Prop} {store store' : Store FileNode}
  {handle handle' : FileHandle}

theorem ofNode (kept : KeptByCalls memory P) {place : Nat × Nat} {writable : Bool}
    (before : P store) (made : FileHandle.ofNode place writable store = some (handle, store')) :
    P store' := by
  obtain ⟨_, _, same⟩ := Option.map_eq_some_iff.mp made
  cases same
  exact kept.counted store place _ before

theorem close (kept : KeptByCalls memory P) (before : P store)
    (closed : handle.close store = some (handle', store')) : P store' := by
  rcases FileHandle.close_cases closed with ⟨_, rfl, rfl⟩ | ⟨place, _, _, _, _, rfl, rfl⟩
  · exact before
  · exact kept.counted store place _ before

theorem inspect (kept : KeptByCalls memory P) {found : Option FileNode} (before : P store)
    (taken : handle.inspect memory store = some (handle', store', found)) : P store' := by
  rcases inspect_cases taken with ⟨rfl, _⟩ | ⟨directory, _, _, loaded, _⟩
  · exact before
  · exact kept.loaded store directory store' before loaded

theorem childName (kept : KeptByCalls memory P) {index : Nat} {name : String} (before : P store)
    (taken : handle.childName memory index store = some (handle', store', name)) : P store' := by
  obtain ⟨found, inspected⟩ := FileHandle.childName_inspects taken
  exact kept.inspect before inspected

theorem findChild (kept : KeptByCalls memory P) {name : String} {index : Nat} (before : P store)
    (taken : handle.findChild memory name store = some (handle', store', index)) : P store' := by
  obtain ⟨_, inspected, further⟩ := Option.bind_eq_some_iff.mp taken
  cases further
  exact kept.inspect before inspected

theorem openChild (kept : KeptByCalls memory P) {index : Nat} {writable : Bool}
    {result : FileHandle} (before : P store)
    (taken : handle.openChild memory index writable store = some (handle', store', result)) :
    P store' := by
  obtain ⟨store₁, found, inspected, effect⟩ := FileHandle.openChild_inspects taken
  have after := kept.inspect before inspected
  rcases effect with ⟨rfl, _⟩ | ⟨child, made⟩
  · exact after
  · exact kept.ofNode after made

theorem walk (kept : KeptByCalls memory P) {fuel : Nat} {path : String} {ended : Option FileHandle}
    (before : P store)
    (taken : FileHandle.walk memory fuel path handle store = some (ended, store')) : P store' := by
  induction fuel generalizing path handle store with
  | zero =>
      cases taken
      exact before
  | succ fuel ih =>
      rw [FileHandle.walk] at taken
      split at taken
      · cases taken
        exact before
      · split at taken
        · cases taken
          exact before
        · obtain ⟨⟨handle₁, store₁, nextIndex⟩, found, further⟩ := Option.bind_eq_some_iff.mp taken
          have first := kept.findChild before found
          dsimp only at further
          split at further
          · obtain ⟨_, closed, same⟩ := Option.bind_eq_some_iff.mp further
            cases same
            exact kept.close first closed
          · obtain ⟨_, opened, more⟩ := Option.bind_eq_some_iff.mp further
            obtain ⟨_, closed, rest⟩ := Option.bind_eq_some_iff.mp more
            exact ih (kept.close (kept.openChild first opened) closed) rest

theorem ofPath (kept : KeptByCalls memory P) {path : String} {writable : Bool} (before : P store)
    (taken : FileHandle.ofPath memory path writable store = some (handle, store')) : P store' := by
  obtain ⟨_, made, further⟩ := Option.bind_eq_some_iff.mp taken
  obtain ⟨⟨ended, store₂⟩, walked, last⟩ := Option.bind_eq_some_iff.mp further
  have after := kept.walk (kept.ofNode before made) walked
  cases ended with
  | none =>
      cases last
      exact after
  | some current =>
      obtain ⟨_, _, rest⟩ := Option.bind_eq_some_iff.mp last
      obtain ⟨_, closed, opened⟩ := Option.bind_eq_some_iff.mp rest
      exact kept.ofNode (kept.close after closed) opened

/-- Every call on the way of a path is made on nodes that have the property. -/
theorem walkTrace (kept : KeptByCalls memory P) {fuel : Nat} {path : String} (before : P store) :
    ∀ sub ∈ FileHandle.walkTrace memory fuel path handle store, P sub.2.2 := by
  induction fuel generalizing path handle store with
  | zero => exact fun _ => nofun
  | succ fuel ih =>
      rw [FileHandle.walkTrace]
      split
      · exact fun _ => nofun
      · split
        · exact fun _ => nofun
        · rw [List.forall_mem_cons]
          refine ⟨before, ?_⟩
          cases found : handle.findChild memory (FileHandle.currentComponent memory path) store with
          | none => exact fun _ => nofun
          | some result =>
              have first := kept.findChild before found
              dsimp only
              split
              · rw [List.forall_mem_singleton]
                exact first
              · rw [List.forall_mem_cons]
                refine ⟨first, ?_⟩
                cases opened : result.1.openChild memory result.2.2 false result.2.1 with
                | none => exact fun _ => nofun
                | some result' =>
                    have second := kept.openChild first opened
                    dsimp only
                    rw [List.forall_mem_cons]
                    refine ⟨second, ?_⟩
                    cases closed : result'.1.close result'.2.1 with
                    | none => exact fun _ => nofun
                    | some last => exact ih (kept.close second closed)

theorem pathTrace (kept : KeptByCalls memory P) {path : String} (before : P store) :
    ∀ sub ∈ FileHandle.pathTrace memory path store, P sub.2.2 := by
  rw [FileHandle.pathTrace]
  cases made : FileHandle.ofNode root false store with
  | none => exact fun _ => nofun
  | some result =>
      have first := kept.ofNode before made
      dsimp only
      intro sub member
      rcases List.mem_append.mp member with onTheWay | last
      · exact kept.walkTrace first sub onTheWay
      · cases walked : FileHandle.walk memory path.length path result.1 result.2 with
        | none =>
            rw [walked] at last
            cases last
        | some ended =>
            obtain ⟨ended, store₂⟩ := ended
            rw [walked] at last
            cases ended with
            | none => cases last
            | some current =>
                rw [List.mem_singleton.mp last]
                exact kept.walk first walked

end KeptByCalls

theorem keptByCalls_mounted (memory : Nat → UInt8) (fsProvider : Option (List InitramfsEntry)) :
    KeptByCalls memory (Mounted fsProvider) :=
  ⟨fun _ place f mounted => mounted.counted place f,
    fun _ _ _ mounted loaded => mounted.load loaded⟩

section Calls

variable {s t : Storage} {store store' : Store FileNode} {handle handle' : FileHandle}

theorem Furnished.mount (furnished : Furnished store) {fsProvider : List InitramfsEntry}
    (mounted : handle.mount fsProvider store = some (handle', store')) : Furnished store' := by
  rw [FileHandle.mount] at mounted
  split at mounted
  · split at mounted
    · obtain ⟨place, _, further⟩ := Option.bind_eq_some_iff.mp mounted
      obtain ⟨node, live, result⟩ := Option.bind_eq_some_iff.mp further
      split at result
      · split at result
        · cases result
          have same : store.modify place (fun _ => FileHandle.mountedNode fsProvider node) =
              store.modify place (FileHandle.mountedNode fsProvider) := store.modify_congr live rfl
          have given : ∀ node, (FileHandle.mountedNode fsProvider node).type = node.type ∧
              (FileHandle.mountedNode fsProvider node).children = node.children := by
            intro node
            rw [FileHandle.mountedNode]
            split
            · exact ⟨rfl, rfl⟩
            · exact ⟨rfl, rfl⟩
          rw [same]
          exact furnished.modify place (fun node => (given node).1)
            (fun node => .inr (given node).2) (fun _ _ => rfl)
            fun _ _ => rfl
        · cases result
          exact furnished
      · cases result
        exact furnished
    · cases mounted
      exact furnished
  · cases mounted
    exact furnished

/-- Every call keeps the nodes furnished. -/
theorem Furnished.step (furnished : Furnished s.vfs.store) {call : VfsCall}
    (taken : s.step call = some t) :
    Furnished t.vfs.store := by
  have kept := keptByCalls_mounted s.memory (rootProvider s.vfs.store)
  have before : Mounted (rootProvider s.vfs.store) s.vfs.store := ⟨furnished, rfl⟩
  cases call with
  | op op =>
      obtain ⟨vfs, stepped, same⟩ := Option.bind_eq_some_iff.mp taken
      cases same
      cases op with
      | openPath path writable =>
          obtain ⟨_, made, same⟩ := Option.bind_eq_some_iff.mp stepped
          cases same
          exact (kept.ofPath before made).1
      | openChild i index writable =>
          obtain ⟨_, _, further⟩ := Option.bind_eq_some_iff.mp stepped
          obtain ⟨_, made, same⟩ := Option.bind_eq_some_iff.mp further
          cases same
          exact (kept.openChild before made).1
      | childName i index =>
          obtain ⟨_, _, further⟩ := Option.bind_eq_some_iff.mp stepped
          obtain ⟨_, made, same⟩ := Option.bind_eq_some_iff.mp further
          cases same
          exact (kept.childName before made).1
      | findChild i name =>
          obtain ⟨_, _, further⟩ := Option.bind_eq_some_iff.mp stepped
          obtain ⟨_, made, same⟩ := Option.bind_eq_some_iff.mp further
          cases same
          exact (kept.findChild before made).1
      | close i =>
          obtain ⟨_, _, further⟩ := Option.bind_eq_some_iff.mp stepped
          obtain ⟨_, made, same⟩ := Option.bind_eq_some_iff.mp further
          cases same
          exact (kept.close before made).1
      | mount i fsProvider =>
          obtain ⟨_, _, further⟩ := Option.bind_eq_some_iff.mp stepped
          obtain ⟨_, made, same⟩ := Option.bind_eq_some_iff.mp further
          cases same
          exact furnished.mount made
  | read i offset length buffer =>
      obtain ⟨_, _, further⟩ := Option.bind_eq_some_iff.mp taken
      obtain ⟨_, _, same⟩ := Option.bind_eq_some_iff.mp further
      cases same
      exact furnished
  | write i offset length buffer =>
      obtain ⟨_, _, further⟩ := Option.bind_eq_some_iff.mp taken
      obtain ⟨_, _, same⟩ := Option.bind_eq_some_iff.mp further
      cases same
      exact furnished

theorem furnished_initial : Furnished Vfs.initial.store := by
  refine ⟨⟨_, rfl, rfl, rfl⟩, fun data away node member => ?_,
    fun data node member => ?_, Nat.one_pos⟩
  · change node ∈ (if data = 0 then _ else []) at member
    rw [if_neg away] at member
    cases member
  · change node ∈ (if data = 0 then [{ type := .directory }] else []) at member
    split at member
    · rw [List.mem_singleton.mp member]
      nofun
    · cases member

theorem lookupNull_iff (furnished : Furnished store) :
    LookupNull handle store ↔ rootProvider store = none ∧ handle.open = true ∧ handle.node =
      some root := by
  obtain ⟨base, _, live, type, flag, provider⟩ := furnished.read_root
  constructor
  · rintro ⟨directory, node, ⟨isOpen, on, here, isDirectory⟩, _, bare⟩
    obtain rfl := furnished.eq_root here (by rw [isDirectory]; nofun) bare
    obtain rfl := Option.some.inj (live.symm.trans here)
    exact ⟨provider.trans bare, isOpen, on⟩
  · rintro ⟨bare, isOpen, on⟩
    exact ⟨root, base, ⟨isOpen, on, live, type⟩, flag, provider.symm.trans bare⟩

theorem not_accessNull (furnished : Furnished store) : ¬ AccessNull handle store := by
  rintro ⟨place, node, _, _, here, isFile, bare⟩
  obtain ⟨base, _, live, type, _⟩ := furnished.read_root
  obtain rfl := furnished.eq_root here (by rw [isFile]; nofun) bare
  obtain rfl := Option.some.inj (live.symm.trans here)
  rw [type] at isFile
  cases isFile

theorem walkTrace_nil {memory : Nat → UInt8} {fuel : Nat} {path : String}
    (last : (FileHandle.currentComponent memory path).length = 0) :
    FileHandle.walkTrace memory fuel path handle store = [] := by
  cases fuel with
  | zero => rfl
  | succ fuel => rw [FileHandle.walkTrace, if_pos last, ite_self]

theorem walkTrace_cons {memory : Nat → UInt8} {fuel : Nat} {path : String}
    (more : (FileHandle.currentComponent memory path).length ≠ 0) (filled : path.length ≠ 0)
    (enough : fuel ≠ 0) :
    (.findChild, handle, store) ∈ FileHandle.walkTrace memory fuel path handle store := by
  cases fuel with
  | zero => cases enough rfl
  | succ fuel =>
      rw [FileHandle.walkTrace, if_neg filled, if_neg more]
      exact List.mem_cons_self

/-- A path with a component goes through the root first. -/
theorem pathTrace_null_iff {memory : Nat → UInt8} {path : String} (furnished : Furnished store) :
    (∃ sub ∈ FileHandle.pathTrace memory path store, sub.1 ≠ .close ∧ LookupNull sub.2.1 sub.2.2) ↔
      rootProvider store = none ∧ components (path.bytes memory) ≠ [] := by
  obtain ⟨base, _, live, _⟩ := furnished.read_root
  have kept := keptByCalls_mounted memory (rootProvider store)
  have before : Mounted (rootProvider store) store := ⟨furnished, rfl⟩
  constructor
  · rintro ⟨sub, member, calls, null⟩
    obtain ⟨furnished', same⟩ := kept.pathTrace before sub member
    refine ⟨same ▸ ((lookupNull_iff furnished').mp null).1, fun none => ?_⟩
    rcases round_components memory path with ⟨last, _⟩ | ⟨_, first, _⟩
    · rw [FileHandle.pathTrace, ofNode_eq live] at member
      dsimp only at member
      rw [walkTrace_nil last, List.nil_append] at member
      split at member
      · rw [List.mem_singleton.mp member] at calls
        exact calls rfl
      · cases member
    · rw [first] at none
      cases none
  · rintro ⟨bare, filled⟩
    rcases round_components memory path with ⟨_, none⟩ | ⟨more, _, shorter⟩
    · exact absurd none filled
    · have opened := before.counted root fun node => (node.openCount + 1) % 2 ^ 64
      refine ⟨(.findChild, ⟨some root, false, true, .okay⟩, Fs.opened root store), ?_, nofun, ?_⟩
      · rw [FileHandle.pathTrace, ofNode_eq live]
        exact List.mem_append_left _ (walkTrace_cons more (by omega) (by omega))
      · exact (lookupNull_iff opened.1).mpr ⟨opened.2.trans bare, rfl, rfl⟩

end Calls

/-- What a call is to do: it goes through no null provider, and a path with a component is not
    found before something is mounted. -/
def Usable (s : Storage) (call : VfsCall) : Prop :=
  ¬ NullCall s call ∧ ∀ path writable, call = .op (.openPath path writable) →
    rootProvider s.vfs.store = none → components (path.bytes s.memory) ≠ [] →
      ∃ store', FileHandle.ofPath s.memory path writable s.vfs.store =
        some (⟨none, writable, false, .notFound⟩, store')

/-- The call looks into the root. -/
def LooksIntoRoot (s : Storage) : VfsCall → Prop
  | .op (.openPath path _) => components (path.bytes s.memory) ≠ []
  | .op (.openChild i _ _) | .op (.childName i _) | .op (.findChild i _) =>
      ∃ handle, s.vfs.handles[i]? = some handle ∧ handle.open = true ∧ handle.node = some root
  | .op (.close _) | .op (.mount _ _) | .read _ _ _ _ | .write _ _ _ _ => False

theorem nullCall_iff {s : Storage} (furnished : Furnished s.vfs.store) (call : VfsCall) :
    NullCall s call ↔ rootProvider s.vfs.store = none ∧ LooksIntoRoot s call := by
  have lookup :
      ∀ i : Nat, (∃ handle, s.vfs.handles[i]? = some handle ∧ LookupNull handle s.vfs.store) ↔
      rootProvider s.vfs.store = none ∧
        ∃ handle, s.vfs.handles[i]? = some handle ∧ handle.open = true ∧ handle.node =
          some root := by
    intro i
    simp only [lookupNull_iff furnished]
    constructor
    · rintro ⟨handle, here, bare, looks⟩
      exact ⟨bare, handle, here, looks⟩
    · rintro ⟨bare, handle, here, looks⟩
      exact ⟨handle, here, bare, looks⟩
  cases call with
  | op op =>
      cases op with
      | openPath path writable => exact pathTrace_null_iff furnished
      | openChild i index writable => exact lookup i
      | childName i index => exact lookup i
      | findChild i name => exact lookup i
      | close i => exact iff_of_false id fun both => both.2
      | mount i fsProvider => exact iff_of_false id fun both => both.2
  | read i offset length buffer =>
      exact iff_of_false (fun ⟨_, _, null⟩ => not_accessNull furnished null) fun both => both.2
  | write i offset length buffer =>
      exact iff_of_false (fun ⟨_, _, _, null⟩ => not_accessNull furnished null) fun both => both.2

/-- After every run from the initial state, a call does what it is to do if and only if
    something is mounted on the root or the call does not look into it. -/
theorem usable_iff (memory : Nat → UInt8) (calls : List VfsCall) (s : Storage)
    (run : Run (fun s call t => s.step call = some t) ⟨memory, Vfs.initial⟩ calls s)
    (call : VfsCall) :
    Usable s call ↔ rootProvider s.vfs.store ≠ none ∨ ¬ LooksIntoRoot s call := by
  have furnished : Furnished s.vfs.store :=
    run.invariant (P := fun s => Furnished s.vfs.store) furnished_initial fun _ _ _ before taken =>
      before.step taken
  rw [Usable, nullCall_iff furnished, not_and_or]
  refine ⟨And.left, fun condition => ⟨condition, ?_⟩⟩
  rintro path writable rfl bare filled
  rcases condition with mounted | blind
  · exact absurd bare mounted
  · exact absurd filled blind

/-- The root is opened, something is mounted on it, and a child is opened by its path. -/
def mountedFirst : Storage :=
  (([.op (.openPath ⟨6, 1⟩ true), .op (.mount 0 sampleEntries), .op (.openPath ⟨7, 3⟩ false)] :
    List VfsCall).foldlM Storage.step ⟨sampleText, Vfs.initial⟩).get (by decide +kernel)

theorem usable_iff_mounted :
    rootProvider mountedFirst.vfs.store = some sampleEntries ∧
    Usable mountedFirst (.op (.openPath ⟨7, 3⟩ false)) := by
  have provider : rootProvider mountedFirst.vfs.store = some sampleEntries := by decide +kernel
  refine ⟨provider,
    (usable_iff sampleText _ mountedFirst (Run.of_foldlM (Option.eq_some_of_isSome _)) _).mpr
      (.inl ?_)⟩
  rw [provider]
  nofun

/-- The path `bar` is opened before anything is mounted. -/
theorem unmounted_root_used :
    NullCall ⟨sampleText, Vfs.initial⟩ (.op (.openPath ⟨7, 3⟩ false)) ∧
      FileHandle.ofPath sampleText ⟨7, 3⟩ false Vfs.initial.store = none ∧
      ¬ Usable ⟨sampleText, Vfs.initial⟩ (.op (.openPath ⟨7, 3⟩ false)) := by
  have null : NullCall ⟨sampleText, Vfs.initial⟩ (.op (.openPath ⟨7, 3⟩ false)) :=
    (nullCall_iff furnished_initial _).mpr ⟨rfl, by simp only [LooksIntoRoot]; decide +kernel⟩
  exact ⟨null, rfl, fun usable => usable.1 null⟩

end Mykonos.Fs
