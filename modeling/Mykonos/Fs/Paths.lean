import Mykonos.Fs.Vfs

/-! # What a path leads to

The components of a path by splitting it at the slashes, and the node that they lead to.
Over a tree whose directories keep their children, the constructor of `FileHandle` from a
path opens this node, and leaves every other one as it was.
-/

namespace Mykonos.Fs

open Lib Util

/-- What stands between the slashes, but for what is empty. -/
def components (text : List UInt8) : List (List UInt8) :=
  (text.splitOn slash).filter (· ≠ [])

section Components

theorem components_slash (text : List UInt8) : components (slash :: text) = components text := by
  rw [components, ← List.nil_append (slash :: text), List.splitOn_append_cons_self]
  rfl

theorem components_dropWhile (text : List UInt8) :
    components (text.dropWhile (· = slash)) = components text := by
  induction text with
  | nil => rfl
  | cons byte rest ih =>
      by_cases first : byte = slash
      · rw [List.dropWhile_cons_of_pos (by simpa using first), ih, first, components_slash]
      · rw [List.dropWhile_cons_of_neg (by simpa using first)]

/-- The first component goes up to the next slash. -/
theorem components_takeWhile {byte : UInt8} (rest : List UInt8) (first : byte ≠ slash) :
    components (byte :: rest) =
      (byte :: rest.takeWhile (· ≠ slash)) :: components (rest.dropWhile (· ≠ slash)) := by
  have absent : slash ∉ byte :: rest.takeWhile (· ≠ slash) := by
    rw [List.mem_cons, not_or]
    exact ⟨Ne.symm first, fun member => by simpa using List.mem_takeWhile_imp member⟩
  have whole :
      byte :: rest = (byte :: rest.takeWhile (· ≠ slash)) ++ rest.dropWhile (· ≠ slash) := by
    rw [List.cons_append, List.takeWhile_append_dropWhile]
  cases left : rest.dropWhile (· ≠ slash) with
  | nil =>
      rw [left, List.append_nil] at whole
      rw [whole, components, List.splitOn_eq_singleton absent]
      rfl
  | cons last more =>
      have stop := List.head_dropWhile_not (· ≠ slash) (left ▸ List.cons_ne_nil last more)
      simp only [left, List.head_cons, decide_eq_false_iff_not, not_not] at stop
      subst stop
      rw [left] at whole
      rw [whole, components, List.splitOn_append_cons_self_of_not_mem absent,
        List.filter_cons_of_pos (by simp), components_slash]
      rfl

variable (memory : Nat → UInt8)

theorem skipSlashes_bytes {fuel : Nat} {path : String} (enough : path.length ≤ fuel) :
    (FileHandle.skipSlashes memory fuel path).bytes memory =
      (path.bytes memory).dropWhile (· = slash) := by
  induction fuel generalizing path with
  | zero =>
      have empty : path.bytes memory = [] := by rw [String.bytes, Nat.le_zero.mp enough]; rfl
      rw [FileHandle.skipSlashes, empty]
      rfl
  | succ fuel ih =>
      have length : (path.bytes memory).length = path.length := path.bytes_length
      rw [FileHandle.skipSlashes, String.get_eq]
      cases text : path.bytes memory with
      | nil => exact text
      | cons byte rest =>
          rw [text, List.length_cons] at length
          rw [List.getD_cons_zero]
          split
          · rename_i first
            have after : (path.subStringFrom 1).bytes memory = rest := by
              rw [path.bytes_subStringFrom (by omega), text]
              rfl
            have shorter : (path.subStringFrom 1).length = rest.length := by
              rw [← after, String.bytes_length]
            rw [ih (by omega), after, List.dropWhile_cons_of_pos (by simpa using first)]
          · rename_i first
            rw [text, List.dropWhile_cons_of_neg (by simpa using first)]

/-- What one round of the loop does to the path: either no component is left, or the first one
    is taken off. -/
theorem round_components (path : String) :
    ((FileHandle.currentComponent memory path).length = 0 ∧ components (path.bytes memory) = []) ∨
      ((FileHandle.currentComponent memory path).length ≠ 0 ∧
        components (path.bytes memory) = (FileHandle.currentComponent memory path).bytes memory ::
          components
            (((FileHandle.skipSlashes memory path.length path).findNext memory slash).bytes
              memory) ∧
        ((FileHandle.skipSlashes memory path.length path).findNext memory slash).length <
          path.length) := by
  have plain : slash < 128 := by decide
  have skipped := skipSlashes_bytes memory (Nat.le_refl path.length)
  have shorter : ((path.bytes memory).dropWhile (· = slash)).length ≤ path.length := by
    have suffix := (List.dropWhile_suffix (· = slash) (l := path.bytes memory)).length_le
    rwa [String.bytes_length] at suffix
  have current : (FileHandle.currentComponent memory path).bytes memory = _ :=
    (FileHandle.skipSlashes memory path.length path).bytes_findBefore plain
  have next :
      ((FileHandle.skipSlashes memory path.length path).findNext memory slash).bytes memory = _ :=
    String.bytes_findNext _ plain
  have length : ∀ s : String, s.length = (s.bytes memory).length := fun s => s.bytes_length.symm
  rw [← components_dropWhile (path.bytes memory), length (FileHandle.currentComponent memory path),
    length ((FileHandle.skipSlashes memory path.length path).findNext memory slash), current,
    next, skipped]
  cases left : (path.bytes memory).dropWhile (· = slash) with
  | nil => exact .inl ⟨rfl, rfl⟩
  | cons byte rest =>
      have first : byte ≠ slash := by
        have stop := List.head_dropWhile_not (· = slash) (left ▸ List.cons_ne_nil byte rest)
        simpa only [left, List.head_cons, decide_eq_false_iff_not] using stop
      rw [left, List.length_cons] at shorter
      have suffix := (List.dropWhile_suffix (· ≠ slash) (l := rest)).length_le
      exact .inr ⟨Nat.succ_ne_zero _, components_takeWhile rest first,
        by rw [List.tail_cons]; omega⟩

end Components

section Trees

variable (memory : Nat → UInt8)

/-- The first child of a directory with exactly this name. -/
def childNamed (store : Store FileNode) (directory : Nat × Nat) (name : List UInt8) :
    Option (Nat × Nat) := do
  let node ← store.read directory
  if node.type = .directory then
    let index ← (node.children.contents store).findIdx? fun child => child.name.bytes memory = name
    FileHandle.childAt index node
  else none

/-- Where the names lead to, one after the other. -/
def resolve (store : Store FileNode) (start : Nat × Nat) (names : List (List UInt8)) :
    Option (Nat × Nat) :=
  names.foldlM (childNamed memory store) start

/-- A look into the directory leaves its children: it is populated, or there is nothing to
    populate it with. -/
def Fixed (node : FileNode) : Prop :=
  node.populated = true ∨ ∃ entries d directoryEntry, node.fsProvider = some entries ∧
    node.node = some d ∧
    entries[d]? = some directoryEntry ∧ listing memory entries directoryEntry = []

/-- A tree of nodes in which every directory keeps its children. Sizes and counts are of 64
    bits. -/
structure FixedTree (store : Store FileNode) : Prop where
  root : ∃ node, store.read root = some node
  fixed : ∀ place node, store.read place = some node → node.type = .directory → Fixed memory node
  sound : ∀ place node, store.read place = some node → node.type = .directory →
    node.children.Sound store
  size : ∀ place node, store.read place = some node → node.children.size ≤ sizeMax
  count : store.All fun node => node.openCount < 2 ^ 64

end Trees

/-- One more handle is open on the node. -/
def opened (place : Nat × Nat) (store : Store FileNode) : Store FileNode :=
  store.modify place fun node => { node with openCount := (node.openCount + 1) % 2 ^ 64 }

/-- One handle less is open on the node. -/
def released (place : Nat × Nat) (store : Store FileNode) : Store FileNode :=
  store.modify place fun node => { node with openCount := (node.openCount + 2 ^ 64 - 1) % 2 ^ 64 }

section Counting

variable {memory : Nat → UInt8} {store : Store FileNode} {place other : Nat × Nat} {node : FileNode}

theorem ofNode_eq (live : store.read place = some node) (writable : Bool) :
    FileHandle.ofNode place writable store = some (⟨some place, writable, true, .okay⟩,
      opened place store) := by
  rw [FileHandle.ofNode, live]
  rfl

theorem close_eq (live : store.read place = some node) (writable : Bool) (error : FileError) :
    FileHandle.close ⟨some place, writable, true, error⟩ store =
      some (⟨none, writable, true, .closed⟩, released place store) := by
  simp only [FileHandle.close, if_true, Option.bind_eq_bind, Option.bind_some, live, released]

theorem released_opened (count : store.All fun node => node.openCount < 2 ^ 64)
    (place : Nat × Nat) :
    released place (opened place store) = store := by
  refine Store.modify_undo count (fun node bound => ?_) place
  rw [show ((node.openCount + 1) % 2 ^ 64 + 2 ^ 64 - 1) % 2 ^ 64 = node.openCount by omega]

/-- Closing the one handle after another was opened. -/
theorem released_opened_opened (count : store.All fun node => node.openCount < 2 ^ 64)
    (place other : Nat × Nat) :
    released place (opened other (opened place store)) = opened other store := by
  refine Store.modify_undo_after count (fun node bound => ?_) (fun node bound => ?_) place other
  · rw [show ((node.openCount + 1) % 2 ^ 64 + 2 ^ 64 - 1) % 2 ^ 64 = node.openCount by omega]
  · rw [show (((node.openCount + 1) % 2 ^ 64 + 1) % 2 ^ 64 + 2 ^ 64 - 1) % 2 ^ 64 =
        (node.openCount + 1) % 2 ^ 64 by
      omega]

/-- Counting handles changes nothing else of a node. -/
theorem read_counted {f : FileNode → Nat} {node' : FileNode}
    (live : (store.modify place fun node => { node with openCount := f node }).read other =
      some node') :
    ∃ node, store.read other = some node ∧
      node' = { node with openCount := if other = place then f node else node.openCount } := by
  rw [store.read_modify] at live
  split at live
  · rename_i here
    subst here
    obtain ⟨node, before, rfl⟩ := Option.map_eq_some_iff.mp live
    exact ⟨node, before, by rw [if_pos rfl]⟩
  · rename_i away
    exact ⟨node', live, by rw [if_neg away]⟩

theorem counted_live {f : FileNode → Nat} (live : store.read other = some node)
    (place : Nat × Nat) :
    ∃ node', (store.modify place fun node => { node with openCount := f node }).read other =
      some node' := by
  rw [store.read_modify]
  split
  · rename_i here
    rw [← here, live]
    exact ⟨_, rfl⟩
  · exact ⟨node, live⟩

theorem opened_live (live : store.read other = some node) (place : Nat × Nat) :
    ∃ node', (opened place store).read other = some node' :=
  counted_live live place

theorem FixedTree.counted (tree : FixedTree memory store) {f : FileNode → Nat}
    (bound : ∀ node, f node < 2 ^ 64) (place : Nat × Nat) :
    FixedTree memory (store.modify place fun node => { node with openCount := f node }) := by
  refine ⟨?_, fun other node' live type => ?_, fun other node' live type => ?_,
    fun other node' live => ?_, tree.count.modify (fun node _ => bound node) place⟩
  · obtain ⟨node, live⟩ := tree.root
    exact counted_live live place
  · obtain ⟨node, before, same⟩ := read_counted live
    rw [same] at type ⊢
    exact tree.fixed other node before type
  · obtain ⟨node, before, same⟩ := read_counted live
    rw [same] at type ⊢
    exact (tree.sound other node before type).modify place _
  · obtain ⟨node, before, same⟩ := read_counted live
    rw [same]
    exact tree.size other node before

theorem FixedTree.opened (tree : FixedTree memory store) (place : Nat × Nat) :
    FixedTree memory (opened place store) :=
  tree.counted (fun _ => Nat.mod_lt _ (by decide)) place

theorem findIdx?_counted {f : FileNode → Nat} {v : Util.Vector} (p : String → Bool) :
    (v.contents (store.modify place fun node => { node with openCount := f node })).findIdx?
        (fun child => p child.name) =
      (v.contents store).findIdx? fun child => p child.name := by
  have names :
      (v.contents (store.modify place fun node => { node with openCount := f node })).map
        FileNode.name = (v.contents store).map FileNode.name :=
    Vector.map_contents_modify (by intro _; rfl) place
  have through : ∀ l : List FileNode, l.findIdx? (fun child => p child.name) =
      (l.map FileNode.name).findIdx? p :=
    fun l => (List.findIdx?_map ..).symm
  rw [through, through, names]

theorem childNamed_opened (place : Nat × Nat) :
    childNamed memory (opened place store) = childNamed memory store := by
  funext directory name
  rw [childNamed, childNamed, opened, store.read_modify]
  split
  · rename_i here
    subst here
    cases store.read directory with
    | none => rfl
    | some node =>
        simp only [Option.map_some, Option.bind_eq_bind, Option.bind_some]
        rw [findIdx?_counted fun child => decide (child.bytes memory = name)]
        rfl
  · cases store.read directory with
    | none => rfl
    | some node =>
        simp only [Option.bind_eq_bind, Option.bind_some]
        rw [findIdx?_counted fun child => decide (child.bytes memory = name)]

end Counting

section Walking

variable {memory : Nat → UInt8} {store : Store FileNode} {place : Nat × Nat} {node : FileNode}

theorem load_fixed (live : store.read place = some node) (fixed : Fixed memory node) :
    FileHandle.load memory place store = some store := by
  simp only [FileHandle.load, live, Option.bind_eq_bind, Option.bind_some]
  rcases fixed with populated | ⟨entries, d, directoryEntry, provider, of, entry, none⟩
  · rw [if_pos populated]
  · split
    · rfl
    · rw [provider, Option.bind_some, populateDirectory_eq live of entry, none]
      rfl

/-- What a look through an open handle comes to. -/
theorem inspect_fixed (tree : FixedTree memory store) (live : store.read place = some node)
    (writable : Bool) (error : FileError) :
    FileHandle.inspect memory ⟨some place, writable, true, error⟩ store =
      if node.type = .directory then some (⟨some place, writable, true, error⟩, store, some node)
      else some (⟨some place, writable, true, .notDirectory⟩, store, none) := by
  simp only [FileHandle.inspect, if_true, live, Option.bind_eq_bind, Option.bind_some]
  split
  · rename_i type
    rw [load_fixed live (tree.fixed place node live type), Option.bind_some, live]
  · rfl

theorem equals_eq_decide (name : String) :
    (fun child : FileNode => child.name.equals memory name) =
      fun child => decide (child.name.bytes memory = name.bytes memory) := by
  funext child
  rw [Bool.eq_iff_iff, String.equals_iff, decide_eq_true_iff]

/-- The child with an index that a search has returned. -/
theorem childAt_contents (tree : FixedTree memory store) (live : store.read place = some node)
    (type : node.type = .directory) {i : Nat} (below : i < (node.children.contents store).length) :
    ∃ child value, FileHandle.childAt i node = some child ∧ store.read child = some value ∧
    i ≠ sizeMax := by
  have sound := tree.sound place node live type
  have size := tree.size place node live
  have cell := sound.getElem?_contents i
  rw [List.getElem?_eq_getElem below] at cell
  obtain ⟨child, position, value⟩ := Option.bind_eq_some_iff.mp cell.symm
  rw [sound.contents_length] at below
  exact ⟨child, _, position, value, by omega⟩

/-- A child that is found is there. -/
theorem childNamed_live (tree : FixedTree memory store) {name : List UInt8} {child : Nat × Nat}
    (found : childNamed memory store place name = some child) :
    ∃ value, store.read child = some value := by
  obtain ⟨node, live, further⟩ := Option.bind_eq_some_iff.mp found
  obtain ⟨type, index⟩ := Option.ite_none_right_eq_some.mp further
  obtain ⟨i, position, place⟩ := Option.bind_eq_some_iff.mp index
  have below := (List.findIdx?_eq_some_iff_findIdx_eq.mp position).1
  obtain ⟨child', value, same, there, _⟩ := childAt_contents tree live type below
  obtain rfl := Option.some.inj (same.symm.trans place)
  exact ⟨value, there⟩

/-- What `findChild` and `openChild` do, as the first child of the name is there or not. -/
theorem lookup_cases (tree : FixedTree memory store) (live : store.read place = some node)
    (name : String) (writable : Bool) (error : FileError) :
    (childNamed memory store place (name.bytes memory) = none ∧
        ∃ error', FileHandle.findChild memory ⟨some place, writable, true, error⟩ name store =
          some (⟨some place, writable, true, error'⟩, store, sizeMax)) ∨
      ∃ i child value, childNamed memory store place (name.bytes memory) = some child ∧
        store.read child = some value ∧ i ≠ sizeMax ∧
        FileHandle.findChild memory ⟨some place, writable, true, error⟩ name store =
          some (⟨some place, writable, true, error⟩, store, i) ∧
        FileHandle.openChild memory ⟨some place, writable, true, error⟩ i false store =
          some (⟨some place, writable, true, error⟩, opened child store,
            ⟨some child, false, true, .okay⟩) := by
  rw [FileHandle.findChild, inspect_fixed tree live, childNamed, live, equals_eq_decide]
  simp only [Option.bind_eq_bind, Option.bind_some]
  by_cases type : node.type = .directory
  · simp only [if_pos type, Option.bind_some]
    cases found : (node.children.contents store).findIdx? fun child => child.name.bytes memory =
        name.bytes memory with
    | none => exact .inl ⟨rfl, error, rfl⟩
    | some i =>
        have below := (List.findIdx?_eq_some_iff_findIdx_eq.mp found).1
        obtain ⟨child, value, position, there, small⟩ := childAt_contents tree live type below
        refine .inr ⟨i, child, value, position, there, small, rfl, ?_⟩
        rw [FileHandle.openChild, inspect_fixed tree live, if_pos type]
        simp only [Option.bind_eq_bind, Option.bind_some, position, ofNode_eq there]
  · simp only [if_neg type]
    exact .inl ⟨trivial, .notDirectory, rfl⟩

/-- What the loop over the components comes to. -/
theorem walk_fixed (tree : FixedTree memory store) {fuel : Nat} {path : String}
    (enough : path.length ≤ fuel) (live : store.read place = some node) :
    FileHandle.walk memory fuel path ⟨some place, false, true, .okay⟩ (opened place store) =
      match resolve memory store place (components (path.bytes memory)) with
      | some last => some (some ⟨some last, false, true, .okay⟩, opened last store)
      | none => some (none, store) := by
  induction fuel generalizing path place node with
  | zero =>
      have empty : path.bytes memory = [] := by rw [String.bytes, Nat.le_zero.mp enough]; rfl
      rw [empty]
      rfl
  | succ fuel ih =>
      rw [FileHandle.walk]
      split
      · rename_i zero
        have empty : path.bytes memory = [] := by rw [String.bytes, zero]; rfl
        rw [empty]
        rfl
      · rcases round_components memory path with ⟨zero, none⟩ | ⟨more, first, shorter⟩
        · rw [if_pos zero, none]
          rfl
        · obtain ⟨node', liveNow⟩ := opened_live live place
          rw [if_neg more, first, resolve, List.foldlM_cons]
          rcases lookup_cases (tree.opened place) liveNow (FileHandle.currentComponent memory path)
              false .okay with
            ⟨missing, error, found⟩ | ⟨i, child, value, named, there, small, found, made⟩
          · rw [childNamed_opened] at missing
            simp only [found, missing, Option.bind_eq_bind, Option.bind_some,
              Option.bind_none, if_true, close_eq liveNow, released_opened tree.count]
          · rw [childNamed_opened] at named
            obtain ⟨_, liveLater⟩ := opened_live liveNow child
            obtain ⟨_, before, _⟩ := read_counted there
            simp only [found, named, Option.bind_eq_bind, Option.bind_some, if_neg small, made,
              close_eq liveLater, released_opened_opened tree.count]
            exact ih (by omega) before

/-- What a path leads to is there. -/
theorem resolve_live (tree : FixedTree memory store) {names : List (List UInt8)} {last : Nat × Nat}
    (live : store.read place = some node) (led : resolve memory store place names = some last) :
    ∃ value, store.read last = some value := by
  induction names generalizing place node with
  | nil =>
      cases led
      exact ⟨node, live⟩
  | cons name rest ih =>
      rw [resolve, List.foldlM_cons] at led
      obtain ⟨child, named, further⟩ := Option.bind_eq_some_iff.mp led
      obtain ⟨value, there⟩ := childNamed_live tree named
      exact ih there further

/-- The constructor from a path opens the node that the components lead to, or finds nothing;
    paths with the same components lead to the same node, and the loop needs no more rounds than
    the path has characters. -/
theorem ofPath_resolves (memory : Nat → UInt8) (store : Store FileNode)
    (tree : FixedTree memory store) (path : String) (writable : Bool) :
    (FileHandle.ofPath memory path writable store =
      match resolve memory store root (components (path.bytes memory)) with
      | some place => some (⟨some place, writable, true, .okay⟩, opened place store)
      | none => some (⟨none, writable, false, .notFound⟩, store)) ∧
    (∀ other : String, components (other.bytes memory) = components (path.bytes memory) →
      FileHandle.ofPath memory other writable store =
        FileHandle.ofPath memory path writable store) ∧
    ∀ fuel, path.length ≤ fuel →
      FileHandle.walk memory fuel path ⟨some root, false, true, .okay⟩ (opened root store) =
        FileHandle.walk memory path.length path ⟨some root, false, true,
          .okay⟩ (opened root store) := by
  obtain ⟨node, live⟩ := tree.root
  have result : ∀ path : String, FileHandle.ofPath memory path writable store =
      match resolve memory store root (components (path.bytes memory)) with
      | some place => some (⟨some place, writable, true, .okay⟩, opened place store)
      | none => some (⟨none, writable, false, .notFound⟩, store) := by
    intro path
    simp only [FileHandle.ofPath, ofNode_eq live, Option.bind_eq_bind, Option.bind_some,
      walk_fixed tree (Nat.le_refl path.length) live]
    cases led : resolve memory store root (components (path.bytes memory)) with
    | none => rfl
    | some last =>
        obtain ⟨value, there⟩ := resolve_live tree live led
        obtain ⟨_, now⟩ := opened_live there last
        simp only [Option.bind_some, close_eq now, released_opened tree.count, ofNode_eq there]
  refine ⟨result path, fun other same => ?_, fun fuel enough => ?_⟩
  · rw [result other, result path, same]
  · rw [walk_fixed tree enough live, walk_fixed tree (Nat.le_refl _) live]

end Walking

/-- The text `//a/b/`. -/
def routeText (address : Nat) : UInt8 :=
  [47, 47, 97, 47, 98, 47].getD address 0

/-- The file `b` in the directory `a` of the root. -/
def routeStore : Store FileNode :=
  ⟨fun block =>
    [[{ type := .directory, children := ⟨1, 1, some 1⟩, populated := true }],
      [{ name := ⟨2, 1⟩, type := .directory, children := ⟨1, 1, some 2⟩, populated := true }],
      [{ name := ⟨4, 1⟩, type := .file }]].getD block [], 3⟩

theorem routeStore_fixed : FixedTree routeText routeStore := by
  have cells : ∀ place node, routeStore.read place = some node →
      node.openCount = 0 ∧ node.children.size ≤ 1 ∧
        (node.type = .directory → node.populated = true ∧ node.children.Sound routeStore) := by
    rintro ⟨_ | _ | _ | block, _ | index⟩ node live
    all_goals cases live
    · exact ⟨rfl, by decide, fun _ => ⟨rfl, by decide, nofun, by rintro _ ⟨⟩; decide⟩⟩
    · exact ⟨rfl, by decide, fun _ => ⟨rfl, by decide, nofun, by rintro _ ⟨⟩; decide⟩⟩
    · exact ⟨rfl, by decide, nofun⟩
  refine ⟨⟨_, rfl⟩, fun place node live type => .inl ((cells place node live).2.2 type).1,
    fun place node live type => ((cells place node live).2.2 type).2, fun place node live => ?_, ?_⟩
  · exact Nat.le_trans (cells place node live).2.1 (by decide)
  · rintro (_ | _ | _ | block) node member
    · cases List.mem_singleton.mp member
      decide
    · cases List.mem_singleton.mp member
      decide
    · cases List.mem_singleton.mp member
      decide
    · cases member

/-- Slashes in front, between and behind change nothing. -/
theorem ofPath_resolves_route :
    FileHandle.ofPath routeText ⟨0, 6⟩ true routeStore =
      some (⟨some (2, 0), true, true, .okay⟩, opened (2, 0) routeStore) := by
  have led : resolve routeText routeStore root (components ((⟨0, 6⟩ : String).bytes routeText)) =
      some (2, 0) := by
    decide +kernel
  have result := (ofPath_resolves routeText routeStore routeStore_fixed ⟨0, 6⟩ true).1
  rw [led] at result
  exact result

end Mykonos.Fs
