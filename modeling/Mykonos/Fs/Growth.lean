import Mykonos.Fs.Paths
import Mykonos.Fs.Listing

/-! # A tree that grows

Every look into a directory appends its children once more, and moves the ones that it has
when their vector grows. From the root on, a directory nevertheless always has its listing
so many times over, and no two directories share a vector.
-/

namespace Mykonos.Fs

open Lib Util

/-- What a node is. How many handles are open on it, and its children, may change. -/
def FileNode.label (node : FileNode) : FileNode := { node with openCount := 0, children := {} }

/-- Where the nodes of the tree are. -/
inductive Planted (store : Store FileNode) : Nat × Nat → Prop where
  | root : Planted store root
  | child {place : Nat × Nat} {node : FileNode} {data i : Nat} (parent : Planted store place)
      (live : store.read place = some node) (held : node.children.data = some data)
      (below : i < node.children.size) :
      Planted store (data, i)

/-- So many populations of a directory. -/
def copies (count : Nat) (listed : List FileNode) : List FileNode :=
  (List.replicate count listed).flatten

/-- A node at a place of the tree over the entries, of which `listed` are the children that the
    provider has for one of them. -/
structure Rooted (entries : List InitramfsEntry) (listed : InitramfsEntry → List FileNode)
    (store : Store FileNode) (place : Nat × Nat) (node : FileNode) : Prop where
  describes : ∃ d entry, node.node = some d ∧ entries[d]? = some entry ∧ node.type = entry.type ∧
    ∃ count, (node.children.contents store).map FileNode.label =
      copies count ((listed entry).map FileNode.label)
  provider : node.fsProvider = some entries
  unpopulated : node.populated = false
  sound : node.children.Sound store
  outside : node.children.data ≠ some place.1 ∧ node.children.data ≠ some 0

/-- The tree over the entries. -/
structure Grown (entries : List InitramfsEntry) (listed : InitramfsEntry → List FileNode)
    (store : Store FileNode) :
    Prop where
  top : ∃ node, store.read root = some node ∧ node.node = some 0
  node : ∀ place, Planted store place → ∃ node, store.read place = some node ∧
    Rooted entries listed store place node
  apart : ∀ place other a b data, Planted store place → Planted store other →
    store.read place = some a → store.read other = some b → a.children.data = some data →
    b.children.data = some data → place = other

theorem Grown.rooted {entries : List InitramfsEntry} {listed : InitramfsEntry → List FileNode}
    {store : Store FileNode} {place : Nat × Nat} {node : FileNode}
    (grown : Grown entries listed store) (planted : Planted store place)
    (live : store.read place = some node) : Rooted entries listed store place node := by
  obtain ⟨node', live', rooted⟩ := grown.node place planted
  obtain rfl := Option.some.inj (live.symm.trans live')
  exact rooted

section Counting

variable {entries : List InitramfsEntry} {listed : InitramfsEntry → List FileNode}
  {store : Store FileNode} {place other : Nat × Nat} {node : FileNode}

theorem Planted.of_counted {f : FileNode → Nat}
    (planted : Planted (store.modify other fun node => { node with openCount := f node }) place) :
    Planted store place := by
  induction planted with
  | root => exact .root
  | child _ live held below ih =>
      obtain ⟨node, before, same⟩ := read_counted live
      rw [same] at held below
      exact .child ih before held below

theorem Planted.counted (planted : Planted store place) (other : Nat × Nat) (f : FileNode → Nat) :
    Planted (store.modify other fun node => { node with openCount := f node }) place := by
  induction planted with
  | root => exact .root
  | child _ live held below ih =>
      obtain ⟨node', there⟩ := counted_live (f := f) live other
      obtain ⟨node, before, same⟩ := read_counted there
      obtain rfl := Option.some.inj (live.symm.trans before)
      exact .child ih there (by rw [same]; exact held) (by rw [same]; exact below)

/-- Counting handles changes nothing about the tree. -/
theorem Grown.counted (grown : Grown entries listed store) (other : Nat × Nat)
    (f : FileNode → Nat) :
    Grown entries listed (store.modify other fun node => { node with openCount := f node }) := by
  refine ⟨?_, fun place planted => ?_,
    fun place place' a b data first second live live' held held' => ?_⟩
  · obtain ⟨node, live, first⟩ := grown.top
    obtain ⟨node', there⟩ := counted_live (f := f) live other
    obtain ⟨_, again, same⟩ := read_counted there
    obtain rfl := Option.some.inj (live.symm.trans again)
    exact ⟨node', there, by rw [same]; exact first⟩
  · obtain ⟨node, before, rooted⟩ := grown.node place planted.of_counted
    obtain ⟨node', there⟩ := counted_live (f := f) before other
    obtain ⟨node'', again, same⟩ := read_counted there
    obtain rfl := Option.some.inj (before.symm.trans again)
    refine ⟨node', there, ?_⟩
    obtain ⟨d, entry, of, member, type, count, contents⟩ := rooted.describes
    rw [same]
    refine ⟨⟨d, entry, of, member, type, count, ?_⟩, rooted.provider, rooted.unpopulated,
      rooted.sound.modify other _, rooted.outside⟩
    rw [← contents]
    exact Vector.map_contents_modify (by intro _; rfl) other
  · obtain ⟨a', before, same⟩ := read_counted live
    obtain ⟨b', before', same'⟩ := read_counted live'
    rw [same] at held
    rw [same'] at held'
    exact grown.apart place place' a' b' data first.of_counted second.of_counted before
      before' held held'

end Counting

section Loading

variable {entries : List InitramfsEntry} {listed : InitramfsEntry → List FileNode}
  {store store' : Store FileNode} {directory place : Nat × Nat} {node value : FileNode}
  {added : List FileNode} {children : Util.Vector}

/-- What is not in the vector that grows stays in its place, with what it is. -/
theorem Appended.foreign (appended : Appended directory node store added children store')
    (live : store.read directory = some node) {v : Util.Vector} (sound : v.Sound store)
    (differ : ∀ data, v.data = some data → node.children.data ≠ some data) :
    v.Sound store' ∧ (v.contents store').map FileNode.label =
      (v.contents store).map FileNode.label := by
  cases held : v.data with
  | none =>
      refine ⟨⟨sound.size_le, sound.empty, fun data equal => by rw [held] at equal; cases equal⟩,
        ?_⟩
      rw [Vector.contents, Vector.contents, held]
      rfl
  | some data =>
      obtain ⟨below, length⟩ := sound.allocated data held
      have cells :
          (store'.blocks data).map FileNode.label = (store.blocks data).map FileNode.label := by
        by_cases same : data = directory.1
        · have here := (store.read_eq_some.mp live).2
          rw [same, appended.written]
          apply List.ext_getElem?
          intro j
          rw [List.getElem?_map, List.getElem?_map, List.getElem?_set]
          split
          · rename_i equal
            rw [← equal, here, if_pos (List.getElem?_eq_some_iff.mp here).1]
            rfl
          · rfl
        · rw [appended.kept data below same (differ data held)]
      have lengths := congrArg List.length cells
      rw [List.length_map, List.length_map, length] at lengths
      refine ⟨⟨sound.size_le, sound.empty, fun other equal => ?_⟩, ?_⟩
      · obtain rfl := Option.some.inj (held.symm.trans equal)
        exact ⟨Nat.lt_of_lt_of_le below appended.next_le, lengths⟩
      · rw [Vector.contents, Vector.contents, held, Option.elim_some, Option.elim_some,
          List.map_take, List.map_take, cells]

/-- The block of the children is the old one, or one that has not been handed out before. -/
theorem Appended.block (appended : Appended directory node store added children store') {data : Nat}
    (held : children.data = some data) : node.children.data = some data ∨ store.next ≤ data := by
  rcases appended.owned with same | ⟨_, fresh, above⟩
  · exact .inl (same.symm.trans held)
  · obtain rfl := Option.some.inj (held.symm.trans fresh)
    exact .inr above

theorem Appended.exists_data (appended : Appended directory node store added children store')
    {data : Nat} (held : node.children.data = some data) : ∃ block, children.data = some block := by
  rcases appended.owned with same | ⟨block, new, _⟩
  · exact ⟨data, same.trans held⟩
  · exact ⟨block, new⟩

/-- Where a node is after children have been appended to another one. -/
def movedTo (node : FileNode) (children : Util.Vector) (place : Nat × Nat) : Nat × Nat :=
  if node.children.data = some place.1 then (children.data.getD 0, place.2) else place

/-- In the vector of a directory there is nothing but its children. -/
theorem Grown.child_below (grown : Grown entries listed store) (planted : Planted store directory)
    (live : store.read directory = some node) (there : Planted store place)
    (inside : node.children.data = some place.1) : place.2 < node.children.size := by
  have rooted := grown.rooted planted live
  cases there with
  | root => exact absurd inside rooted.outside.2
  | child parent alive held below =>
      obtain rfl := grown.apart _ _ _ _ _ planted parent live alive inside held
      obtain rfl := Option.some.inj (live.symm.trans alive)
      exact below

theorem Grown.read_movedTo (grown : Grown entries listed store) (planted : Planted store directory)
    (live : store.read directory = some node)
    (appended : Appended directory node store added children store') (there : Planted store place)
    (alive : store.read place = some value) :
    store'.read (movedTo node children place) =
      some (if place = directory then { value with children := children } else value) := by
  have rooted := grown.rooted planted live
  by_cases inside : node.children.data = some place.1
  · have differ : place ≠ directory := fun equal => rooted.outside.1 (equal ▸ inside)
    have below := grown.child_below planted live there inside
    obtain ⟨data, held⟩ := appended.exists_data inside
    have size := appended.sound.contents_length
    have cell := appended.sound.getElem?_contents place.2
    rw [appended.contents, List.length_append, rooted.sound.contents_length] at size
    rw [appended.contents,
      List.getElem?_append_left (by rw [rooted.sound.contents_length]; exact below),
      rooted.sound.getElem?_contents, if_pos below, if_pos (by omega), inside, held] at cell
    rw [movedTo, if_pos inside, if_neg differ, held]
    exact cell.symm.trans alive
  · rw [movedTo, if_neg inside]
    by_cases here : place = directory
    · subst here
      obtain rfl := Option.some.inj (live.symm.trans alive)
      rw [if_pos rfl]
      exact appended.read live
    · rw [if_neg here]
      rw [Store.read_eq_some] at alive ⊢
      refine ⟨Nat.lt_of_lt_of_le alive.1 appended.next_le, ?_⟩
      by_cases block : place.1 = directory.1
      · have index : directory.2 ≠ place.2 := fun equal => here (Prod.ext block equal.symm)
        rw [block, appended.written, List.getElem?_set_ne index, ← block]
        exact alive.2
      · rw [appended.kept place.1 alive.1 block inside]
        exact alive.2

/-- The places of the tree after children have been appended: the old ones, moved, and the
    ones of the new children. -/
theorem Grown.planted_cases (grown : Grown entries listed store) (planted : Planted store directory)
    (live : store.read directory = some node)
    (appended : Appended directory node store added children store')
    (blank : ∀ child ∈ added, child.children = {}) (there : Planted store' place) :
    (∃ before, Planted store before ∧ place = movedTo node children before) ∨
      ∃ child ∈ added, store'.read place = some child := by
  have rooted := grown.rooted planted live
  induction there with
  | root => exact .inl ⟨root, .root, (if_neg rooted.outside.2).symm⟩
  | @child _ value data i _ alive held below ih =>
      rcases ih with ⟨before, old, rfl⟩ | ⟨child, member, here⟩
      · obtain ⟨value', lived, _⟩ := grown.node before old
        have now :=
          Option.some.inj (alive.symm.trans (grown.read_movedTo planted live appended old lived))
        by_cases here : before = directory
        · rw [if_pos here] at now
          subst now
          by_cases early : i < node.children.size
          · cases data' : node.children.data with
            | none =>
                have le := rooted.sound.size_le
                rw [rooted.sound.empty data'] at le
                omega
            | some block =>
                exact .inl ⟨(block, i), .child planted live data' early, by
                  rw [movedTo, if_pos data', show children.data = some data from held]; rfl⟩
          · have size := appended.sound.contents_length
            have cell := appended.sound.getElem?_contents i
            rw [appended.contents, List.length_append, rooted.sound.contents_length] at size
            have limit : i < children.size := below
            have index : i - (node.children.contents store).length < added.length := by
              rw [rooted.sound.contents_length]
              omega
            rw [appended.contents,
              List.getElem?_append_right (by rw [rooted.sound.contents_length]; omega),
              List.getElem?_eq_getElem index, if_pos limit,
              show children.data = some data from held] at cell
            exact .inr ⟨_, List.getElem_mem index, cell.symm⟩
        · rw [if_neg here] at now
          subst now
          refine .inl ⟨(data, i), .child old lived held below, (if_neg fun inside => ?_).symm⟩
          exact here (grown.apart _ _ _ _ _ old planted lived live held inside)
      · obtain rfl := Option.some.inj (alive.symm.trans here)
        rw [blank _ member] at held
        cases held

theorem copies_succ (count : Nat) (l : List FileNode) :
    copies (count + 1) l = copies count l ++ l := by
  rw [copies, List.replicate_succ', List.flatten_append]
  simp [copies]

/-- The child of an entry as the provider makes it. -/
structure Sprout (entries : List InitramfsEntry) (child : FileNode) : Prop where
  describes : ∃ d entry, child.node = some d ∧ entries[d]? = some entry ∧ child.type = entry.type
  provider : child.fsProvider = some entries
  unpopulated : child.populated = false
  blank : child.children = {}

theorem Sprout.rooted {child : FileNode} (sprout : Sprout entries child) :
    Rooted entries listed store place child := by
  obtain ⟨d, entry, of, member, type⟩ := sprout.describes
  have data : child.children.data = none := by rw [sprout.blank]
  refine ⟨⟨d, entry, of, member, type, 0, ?_⟩, sprout.provider, sprout.unpopulated, ?_,
    by simp [data]⟩
  · rw [sprout.blank]
    rfl
  · rw [sprout.blank]
    exact Vector.sound_empty store

/-- No other directory has the block of the children, before or after. -/
theorem Grown.block_apart (grown : Grown entries listed store) (planted : Planted store directory)
    (live : store.read directory = some node)
    (appended : Appended directory node store added children store') (there : Planted store place)
    (alive : store.read place = some value) (differ : place ≠ directory) {data : Nat}
    (held : value.children.data = some data) :
    node.children.data ≠ some data ∧ children.data ≠ some data := by
  have old : node.children.data ≠ some data := fun inner =>
    differ (grown.apart _ _ _ _ _ there planted alive live held inner)
  refine ⟨old, fun inner => ?_⟩
  have rooted := grown.rooted there alive
  have handed := (rooted.sound.allocated data held).1
  rcases appended.block inner with same | fresh
  · exact old same
  · omega

/-- What is in the tree stays in it. -/
theorem Grown.planted_movedTo (grown : Grown entries listed store)
    (planted : Planted store directory) (live : store.read directory = some node)
    (appended : Appended directory node store added children store') (there : Planted store place) :
    Planted store' (movedTo node children place) := by
  have rooted := grown.rooted planted live
  induction there with
  | root =>
      rw [movedTo, if_neg rooted.outside.2]
      exact .root
  | @child parent value data i older alive held below ih =>
      have now := grown.read_movedTo planted live appended older alive
      by_cases here : parent = directory
      · subst here
        obtain rfl := Option.some.inj (live.symm.trans alive)
        obtain ⟨block, new⟩ := appended.exists_data held
        have size := appended.sound.contents_length
        rw [appended.contents, List.length_append, rooted.sound.contents_length] at size
        rw [if_pos rfl] at now
        rw [movedTo, if_pos held, new]
        exact .child ih now new (show i < children.size by omega)
      · rw [if_neg here] at now
        rw [movedTo, if_neg (grown.block_apart planted live appended older alive here held).1]
        exact .child ih now held below

/-- The directory itself has its listing once more. -/
theorem Rooted.populated (rooted : Rooted entries listed store directory node)
    (live : store.read directory = some node) {d : Nat} {entry : InitramfsEntry}
    (of : node.node = some d) (member : entries[d]? = some entry)
    (appended : Appended directory node store (listed entry) children store') :
    Rooted entries listed store' directory { node with children := children } := by
  obtain ⟨d', entry', of', member', type, count, contents⟩ := rooted.describes
  obtain rfl := Option.some.inj (of.symm.trans of')
  obtain rfl := Option.some.inj (member.symm.trans member')
  refine ⟨⟨d, entry, of, member, type, count + 1, ?_⟩, rooted.provider, rooted.unpopulated,
    appended.sound, appended.apart live rooted.outside.1, fun zero => ?_⟩
  · rw [copies_succ, ← contents, ← List.map_append]
    exact congrArg _ appended.contents
  · have below := (store.read_eq_some.mp live).1
    rcases appended.block zero with same | fresh
    · exact rooted.outside.2 same
    · omega

/-- Every other node has what it had, where it is now. -/
theorem Grown.rooted_movedTo (grown : Grown entries listed store)
    (planted : Planted store directory) (live : store.read directory = some node)
    (appended : Appended directory node store added children store') (there : Planted store place)
    (alive : store.read place = some value) (rooted : Rooted entries listed store place value)
    (differ : place ≠ directory) :
    Rooted entries listed store' (movedTo node children place) value := by
  have apart (data : Nat) (held : value.children.data = some data) :=
    grown.block_apart planted live appended there alive differ held
  have foreign := appended.foreign live rooted.sound fun data held => (apart data held).1
  obtain ⟨d, entry, of, member, type, count, contents⟩ := rooted.describes
  refine ⟨⟨d, entry, of, member, type, count, foreign.2.trans contents⟩, rooted.provider,
    rooted.unpopulated, foreign.1, fun inner => ?_, rooted.outside.2⟩
  by_cases inside : node.children.data = some place.1
  · obtain ⟨block, new⟩ := appended.exists_data inside
    rw [movedTo, if_pos inside, new] at inner
    exact (apart _ inner).2 new
  · rw [movedTo, if_neg inside] at inner
    exact rooted.outside.1 inner

/-- The tree stays one when a directory is populated, and the directory stays in its place. -/
theorem Grown.populated (grown : Grown entries listed store) (planted : Planted store directory)
    (live : store.read directory = some node) {d : Nat} {entry : InitramfsEntry}
    (of : node.node = some d) (member : entries[d]? = some entry)
    (sprouts : ∀ child ∈ listed entry, Sprout entries child)
    (appended : Appended directory node store (listed entry) children store') :
    Grown entries listed store' ∧ Planted store' directory := by
  have rooted := grown.rooted planted live
  have blank : ∀ child ∈ listed entry, child.children = {} :=
    fun child inside => (sprouts child inside).blank
  have fixed : movedTo node children directory = directory := if_neg rooted.outside.1
  have now : ∀ {place value}, Planted store place → store.read place = some value →
      store'.read (movedTo node children place) =
        some (if place = directory then { value with children := children } else value) :=
    fun there alive => grown.read_movedTo planted live appended there alive
  refine ⟨⟨?_, fun place there => ?_,
    fun first second a b data there there' alive alive' held held' => ?_⟩,
    fixed ▸ grown.planted_movedTo planted live appended planted⟩
  · obtain ⟨value, alive, first⟩ := grown.top
    have here := now .root alive
    rw [movedTo, if_neg rooted.outside.2] at here
    refine ⟨_, here, ?_⟩
    split
    · exact first
    · exact first
  · rcases grown.planted_cases planted live appended blank there with ⟨before, older, rfl⟩ |
      ⟨child, inside, here⟩
    · obtain ⟨value, alive, rooted'⟩ := grown.node before older
      refine ⟨_, now older alive, ?_⟩
      by_cases here : before = directory
      · subst here
        obtain rfl := Option.some.inj (live.symm.trans alive)
        rw [if_pos rfl, fixed]
        exact rooted.populated live of member appended
      · rw [if_neg here]
        exact grown.rooted_movedTo planted live appended older alive rooted' here
    · exact ⟨child, here, (sprouts child inside).rooted⟩
  · -- A new child has no children, so that both places are old ones.
    have old : ∀ {place value}, Planted store' place → store'.read place = some value →
        value.children.data = some data → ∃ before, Planted store before ∧
        place = movedTo node children before := by
      intro place value inside lived owns
      rcases grown.planted_cases planted live appended blank inside with was | ⟨child, made, here⟩
      · exact was
      · obtain rfl := Option.some.inj (lived.symm.trans here)
        rw [blank _ made] at owns
        cases owns
    obtain ⟨before, older, rfl⟩ := old there alive held
    obtain ⟨before', older', rfl⟩ := old there' alive' held'
    obtain ⟨value, lived, _⟩ := grown.node before older
    obtain ⟨value', lived', _⟩ := grown.node before' older'
    obtain rfl := Option.some.inj (alive.symm.trans (now older lived))
    obtain rfl := Option.some.inj (alive'.symm.trans (now older' lived'))
    by_cases same : before = directory
    · by_cases same' : before' = directory
      · rw [same, same']
      · rw [if_pos same] at held
        rw [if_neg same'] at held'
        exact absurd held (grown.block_apart planted live appended older' lived' same' held').2
    · rw [if_neg same] at held
      by_cases same' : before' = directory
      · rw [if_pos same'] at held'
        exact absurd held' (grown.block_apart planted live appended older lived same held).2
      · rw [if_neg same'] at held'
        rw [grown.apart _ _ _ _ _ older older' lived lived' held held']

end Loading

section Walking

variable {memory : Nat → UInt8} {entries : List InitramfsEntry}
  {listed : InitramfsEntry → List FileNode} {store : Store FileNode} {place : Nat × Nat}
  {node : FileNode} {d : Nat} {entry : InitramfsEntry}

/-- The provider has these children for the entries, and their number is one of 64 bits. -/
structure Provides (memory : Nat → UInt8) (entries : List InitramfsEntry)
    (listed : InitramfsEntry → List FileNode) :
    Prop where
  listing : ∀ entry ∈ entries, listing memory entries entry = listed entry
  few : entries.length ≤ sizeMax

theorem Provides.sprouts (provides : Provides memory entries listed) (inside : entry ∈ entries)
    {child : FileNode} (made : child ∈ listed entry) : Sprout entries child := by
  rw [← provides.listing entry inside] at made
  obtain ⟨⟨other, i⟩, member, result⟩ := List.mem_filterMap.mp made
  obtain ⟨baseName, _, rfl⟩ := Option.map_eq_some_iff.mp result
  exact ⟨⟨i, other, rfl, List.mk_mem_zipIdx_iff_getElem?.mp member, rfl⟩, rfl, rfl, rfl⟩

theorem Provides.length_le (provides : Provides memory entries listed) (inside : entry ∈ entries) :
    (listed entry).length ≤ sizeMax := by
  rw [← provides.listing entry inside]
  refine Nat.le_trans (List.length_filterMap_le ..) ?_
  rw [List.length_zipIdx]
  exact provides.few

/-- What a look into a directory of the tree comes to. -/
theorem Grown.inspect (grown : Grown entries listed store)
    (provides : Provides memory entries listed) (planted : Planted store place)
    (live : store.read place = some node) (type : node.type = .directory)
    (of : node.node = some d) (member : entries[d]? = some entry) (handle : FileHandle)
    (isOpen : handle.open = true) (on : handle.node = some place) :
    ∃ store' children count, handle.inspect memory store =
      some (handle, store', some { node with children := children }) ∧
      Grown entries listed store' ∧ Planted store' place ∧
      store'.read place = some { node with children := children } ∧ children.Sound store' ∧
      (children.contents store').map FileNode.label =
        copies (count + 1) ((listed entry).map FileNode.label) := by
  have inside := List.mem_of_getElem? member
  have rooted := grown.rooted planted live
  obtain ⟨d', entry', of', member', _, count, contents⟩ := rooted.describes
  obtain rfl := Option.some.inj (of.symm.trans of')
  obtain rfl := Option.some.inj (member.symm.trans member')
  obtain ⟨store', children, populated, appended⟩ :=
    populateDirectory_appended memory live of member rooted.sound rooted.outside.1
  rw [provides.listing entry inside] at appended
  obtain ⟨grown', planted'⟩ :=
    grown.populated planted live of member (fun child made => provides.sprouts inside made) appended
  have there := appended.read live
  have loaded : FileHandle.load memory place store = some store' := by
    simp only [FileHandle.load, live, Option.bind_eq_bind, Option.bind_some, rooted.unpopulated,
      Bool.false_eq_true, if_false, rooted.provider, populated]
  refine ⟨store', children, count, ?_, grown', planted', there, appended.sound, ?_⟩
  · simp only [FileHandle.inspect, if_pos isOpen, on, live, Option.bind_eq_bind, Option.bind_some,
      if_pos type, loaded, there]
  · rw [copies_succ, ← contents, ← List.map_append]
    exact congrArg _ appended.contents

theorem copies_succ' (count : Nat) (l : List FileNode) :
    copies (count + 1) l = l ++ copies count l := by
  rw [copies, List.replicate_succ, List.flatten_cons]
  rfl

/-- A search ends in the first copy, or goes through all of them in vain. -/
theorem findIdx?_copies (p : FileNode → Bool) (count : Nat) (l : List FileNode) :
    (copies (count + 1) l).findIdx? p = l.findIdx? p := by
  rw [copies_succ', List.findIdx?_append]
  cases found : l.findIdx? p with
  | some i => rfl
  | none =>
      have absent : (copies count l).findIdx? p = none := by
        rw [List.findIdx?_eq_none_iff] at found ⊢
        intro child member
        obtain ⟨copy, one, inside⟩ := List.mem_flatten.mp member
        rw [List.eq_of_mem_replicate one] at inside
        exact found child inside
      rw [absent]
      rfl

theorem findIdx?_label (memory : Nat → UInt8) (name : String) (l : List FileNode) :
    l.findIdx? (fun child => child.name.equals memory name) =
      (l.map FileNode.label).findIdx? fun child => child.name.equals memory name := by
  rw [List.findIdx?_map]
  rfl

theorem Grown.findChild (grown : Grown entries listed store)
    (provides : Provides memory entries listed) (planted : Planted store place)
    (live : store.read place = some node) (type : node.type = .directory)
    (of : node.node = some d) (member : entries[d]? = some entry) (handle : FileHandle)
    (isOpen : handle.open = true) (on : handle.node = some place) (name : String) :
    ∃ store' children, handle.findChild memory name store =
        some (handle, store',
          ((listed entry).findIdx? fun child => child.name.equals memory name).getD sizeMax) ∧
      Grown entries listed store' ∧ Planted store' place ∧
      store'.read place = some { node with children := children } := by
  obtain ⟨store', children, count, inspected, grown', planted', there, _, contents⟩ :=
    grown.inspect provides planted live type of member handle isOpen on
  refine ⟨store', children, ?_, grown', planted', there⟩
  simp only [FileHandle.findChild, inspected, Option.bind_eq_bind, Option.bind_some]
  rw [findIdx?_label, contents, findIdx?_copies, ← findIdx?_label]

theorem Grown.openChild (grown : Grown entries listed store)
    (provides : Provides memory entries listed) (planted : Planted store place)
    (live : store.read place = some node) (type : node.type = .directory)
    (of : node.node = some d) (member : entries[d]? = some entry) (handle : FileHandle)
    (isOpen : handle.open = true) (on : handle.node = some place) {i : Nat} {child : FileNode}
    (made : (listed entry)[i]? = some child) :
    ∃ store' children place' value, handle.openChild memory i false store =
        some (handle, opened place' store', ⟨some place', false, true, .okay⟩) ∧
      Grown entries listed store' ∧ store'.read place = some { node with children := children } ∧
      Planted store' place' ∧ store'.read place' = some value ∧ value.label = child.label := by
  obtain ⟨store', children, count, inspected, grown', planted', there, sound, contents⟩ :=
    grown.inspect provides planted live type of member handle isOpen on
  have labelled : ((children.contents store').map FileNode.label)[i]? = some child.label := by
    have below := (List.getElem?_eq_some_iff.mp made).1
    rw [contents, copies_succ', List.getElem?_append_left (by rwa [List.length_map]),
      List.getElem?_map, made]
    rfl
  rw [List.getElem?_map, sound.getElem?_contents] at labelled
  obtain ⟨value, cell, same⟩ := Option.map_eq_some_iff.mp labelled
  obtain ⟨place', position, alive⟩ := Option.bind_eq_some_iff.mp cell
  obtain ⟨below, held⟩ := Option.ite_none_right_eq_some.mp position
  obtain ⟨data, here, rfl⟩ := Option.map_eq_some_iff.mp held
  refine ⟨store', children, (data, i), value, ?_, grown', there,
    .child planted' there here below, alive, same⟩
  have found : FileHandle.childAt i { node with children := children } = some (data, i) := position
  simp only [FileHandle.openChild, inspected, Option.bind_eq_bind, Option.bind_some, found,
    ofNode_eq alive]

/-- The entry of the child that a name leads to. -/
def ledTo (memory : Nat → UInt8) (entries : List InitramfsEntry)
    (listed : InitramfsEntry → List FileNode) (d : Nat) (name : List UInt8) : Option Nat :=
  (entries[d]?).bind fun entry =>
    if entry.type = .directory then
      ((listed entry).find? fun child => child.name.bytes memory = name).bind FileNode.node
    else none

/-- The walk has ended at a node of the entry, or nowhere. -/
def Arrived (store : Store FileNode) (ended : Option FileHandle) : Option Nat → Prop
  | none => ended = none
  | some d => ∃ place node, ended = some ⟨some place, false, true, .okay⟩ ∧ Planted store place ∧
      store.read place = some node ∧ node.node = some d

/-- The handle is open on a node of the entry, or nothing was found. -/
def Reached (entries : List InitramfsEntry) (listed : InitramfsEntry → List FileNode)
    (store : Store FileNode) (handle : FileHandle) (writable : Bool) : Option Nat → Prop
  | none => handle = ⟨none, writable, false, .notFound⟩
  | some d => ∃ place node, handle = ⟨some place, writable, true, .okay⟩ ∧
    store.read place = some node ∧
      Rooted entries listed store place node ∧ node.node = some d

/-- The search by index and the one for the element agree. -/
theorem find?_of_findIdx? {p : FileNode → Bool} {l : List FileNode} {i : Nat}
    (found : l.findIdx? p = some i) :
    ∃ child, l[i]? = some child ∧ l.find? p = some child := by
  obtain ⟨below, same⟩ := List.findIdx?_eq_some_iff_findIdx_eq.mp found
  refine ⟨l[i], List.getElem?_eq_getElem below, ?_⟩
  rw [List.find?_eq_getElem?_findIdx, same, List.getElem?_eq_getElem below]

/-- What `findChild` and `openChild` do, as the name leads to an entry or not. -/
theorem Grown.lookup_cases (grown : Grown entries listed store)
    (provides : Provides memory entries listed) (planted : Planted store place)
    (live : store.read place = some node) (of : node.node = some d) (name : String) :
    (ledTo memory entries listed d (name.bytes memory) = none ∧ ∃ error store' node',
        FileHandle.findChild memory ⟨some place, false, true, .okay⟩ name store =
          some (⟨some place, false, true, error⟩, store', sizeMax) ∧
        Grown entries listed store' ∧ store'.read place = some node') ∨
      ∃ e i store₁ store₂ node' place' value,
        ledTo memory entries listed d (name.bytes memory) = some e ∧
        i ≠ sizeMax ∧
        FileHandle.findChild memory ⟨some place, false, true, .okay⟩ name store =
          some (⟨some place, false, true, .okay⟩, store₁, i) ∧
        FileHandle.openChild memory ⟨some place, false, true, .okay⟩ i false store₁ =
          some (⟨some place, false, true, .okay⟩, opened place' store₂,
            ⟨some place', false, true, .okay⟩) ∧
        Grown entries listed store₂ ∧ store₂.read place = some node' ∧ Planted store₂ place' ∧
        store₂.read place' = some value ∧ value.node = some e := by
  have rooted := grown.rooted planted live
  obtain ⟨d', entry, of', member, typed, _⟩ := rooted.describes
  obtain rfl := Option.some.inj (of.symm.trans of')
  by_cases type : node.type = .directory
  · obtain ⟨store₁, children, found, grown₁, planted₁, live₁⟩ :=
      grown.findChild provides planted live type of member
      ⟨some place, false, true, .okay⟩ rfl rfl name
    rw [equals_eq_decide] at found
    rw [ledTo, member, Option.bind_some, if_pos (typed ▸ type)]
    cases position : (listed entry).findIdx? fun child =>
        decide (child.name.bytes memory = name.bytes memory) with
    | none =>
        have absent :
            ((listed entry).find? fun child =>
              decide (child.name.bytes memory = name.bytes memory)) = none := by
          rw [List.find?_eq_none]
          intro child inside
          rw [List.findIdx?_eq_none_iff.mp position child inside]
          exact Bool.false_ne_true
        rw [position] at found
        exact .inl ⟨by rw [absent]; rfl, .okay, store₁, _, found, grown₁, live₁⟩
    | some i =>
        obtain ⟨child, made, sought⟩ := find?_of_findIdx? position
        have inside := List.mem_of_getElem? member
        obtain ⟨e, _, ofChild, _⟩ := (provides.sprouts inside (List.mem_of_getElem? made)).describes
        have small : i ≠ sizeMax :=
          Nat.ne_of_lt (Nat.lt_of_lt_of_le (List.getElem?_eq_some_iff.mp made).1
            (provides.length_le inside))
        obtain ⟨store₂, children₂, place', value, result, grown₂, live₂, planted', alive, label⟩ :=
          grown₁.openChild provides planted₁ live₁ type of member ⟨some place, false, true,
            .okay⟩ rfl rfl made
        have labels : value.label.node = child.label.node := congrArg FileNode.node label
        rw [position] at found
        exact .inr ⟨e, i, store₁, store₂, _, place', value, by rw [sought]; exact ofChild, small,
          found, result, grown₂, live₂, planted', alive, labels.trans ofChild⟩
  · refine .inl ⟨by rw [ledTo, member, Option.bind_some, if_neg (typed ▸ type)], .notDirectory,
      store, node, ?_, grown, live⟩
    simp only [FileHandle.findChild, FileHandle.inspect, if_true, live, Option.bind_eq_bind,
      Option.bind_some, if_neg type, Option.bind_none, Option.getD_none]

theorem released_live {other : Nat × Nat} (live : store.read other = some node)
    (place : Nat × Nat) :
    ∃ node', (released place store).read other = some node' :=
  counted_live live place

/-- The loop over the components ends at a node of the entry that they lead to. -/
theorem Grown.walk (provides : Provides memory entries listed) {fuel : Nat} {path : String}
    (enough : path.length ≤ fuel) (grown : Grown entries listed store)
    (planted : Planted store place) (live : store.read place = some node)
    (of : node.node = some d) :
    ∃ ended store', FileHandle.walk memory fuel path ⟨some place, false, true, .okay⟩ store =
      some (ended, store') ∧
      Grown entries listed store' ∧
      Arrived store' ended ((components (path.bytes memory)).foldlM
        (ledTo memory entries listed) d) := by
  induction fuel generalizing path place node store d with
  | zero =>
      have empty : path.bytes memory = [] := by rw [String.bytes, Nat.le_zero.mp enough]; rfl
      rw [empty]
      exact ⟨_, store, rfl, grown, place, node, rfl, planted, live, of⟩
  | succ fuel ih =>
      rw [FileHandle.walk]
      split
      · rename_i zero
        have empty : path.bytes memory = [] := by rw [String.bytes, zero]; rfl
        rw [empty]
        exact ⟨_, store, rfl, grown, place, node, rfl, planted, live, of⟩
      · rcases round_components memory path with ⟨zero, none⟩ | ⟨more, first, shorter⟩
        · rw [if_pos zero, none]
          exact ⟨_, store, rfl, grown, place, node, rfl, planted, live, of⟩
        · rw [if_neg more, first, List.foldlM_cons]
          rcases grown.lookup_cases provides planted live of
              (FileHandle.currentComponent memory path) with
            ⟨led, error, store₁, node₁, found, grown₁, live₁⟩ |
            ⟨e, i, store₁, store₂, node₂, place', value, led, small, found, made, grown₂, live₂,
              planted', alive, ofValue⟩
          · simp only [found, Option.bind_eq_bind, Option.bind_some, if_true, close_eq live₁, led,
              Option.bind_none]
            exact ⟨_, _, rfl, grown₁.counted place _, rfl⟩
          · obtain ⟨_, later⟩ := opened_live live₂ place'
            obtain ⟨value₁, alive₁⟩ := opened_live alive place'
            obtain ⟨_, before₁, same₁⟩ := read_counted alive₁
            obtain rfl := Option.some.inj (alive.symm.trans before₁)
            obtain ⟨value₂, alive₂⟩ := released_live alive₁ place
            obtain ⟨_, before₂, same₂⟩ := read_counted alive₂
            obtain rfl := Option.some.inj (alive₁.symm.trans before₂)
            simp only [found, Option.bind_eq_bind, Option.bind_some, if_neg small, made,
              close_eq later, led]
            exact ih (by omega) ((grown₂.counted place' _).counted place _)
              ((planted'.counted place' _).counted place _) alive₂
              (by rw [same₂, same₁]; exact ofValue)

/-- The constructor from a path opens a node of the entry that the components lead to, or
    finds nothing. -/
theorem Grown.ofPath (grown : Grown entries listed store)
    (provides : Provides memory entries listed) (path : String) (writable : Bool) :
    ∃ handle store', FileHandle.ofPath memory path writable store = some (handle, store') ∧
      Grown entries listed store' ∧
      Reached entries listed store' handle writable
        ((components (path.bytes memory)).foldlM (ledTo memory entries listed) 0) := by
  obtain ⟨top, live, first⟩ := grown.top
  obtain ⟨_, live₁⟩ := opened_live live root
  obtain ⟨_, before, same⟩ := read_counted live₁
  obtain rfl := Option.some.inj (live.symm.trans before)
  have grown₁ : Grown entries listed (opened root store) := grown.counted root _
  obtain ⟨ended, store₂, walked, grown₂, arrived⟩ :=
    grown₁.walk provides (Nat.le_refl path.length) .root live₁ (by rw [same]; exact first)
  cases ends : (components (path.bytes memory)).foldlM (ledTo memory entries listed) 0 with
  | none =>
      rw [ends] at arrived
      obtain rfl : ended = none := arrived
      refine ⟨_, store₂, ?_, grown₂, rfl⟩
      simp only [FileHandle.ofPath, ofNode_eq live, Option.bind_eq_bind, Option.bind_some, walked]
  | some d =>
      rw [ends] at arrived
      obtain ⟨place, reached, rfl, planted, alive, of⟩ := arrived
      obtain ⟨_, alive₃⟩ := released_live alive place
      obtain ⟨_, before₃, same₃⟩ := read_counted alive₃
      obtain rfl := Option.some.inj (alive.symm.trans before₃)
      obtain ⟨node, alive₄⟩ := opened_live alive₃ place
      obtain ⟨_, before₄, same₄⟩ := read_counted alive₄
      obtain rfl := Option.some.inj (alive₃.symm.trans before₄)
      have grown₄ : Grown entries listed (opened place (released place store₂)) :=
        (grown₂.counted place _).counted place _
      refine ⟨⟨some place, writable, true, .okay⟩, opened place (released place store₂), ?_, grown₄,
        place, node, rfl, alive₄, grown₄.rooted ((planted.counted place _).counted place _) alive₄,
        by rw [same₄, same₃]; exact of⟩
      simp only [FileHandle.ofPath, ofNode_eq live, Option.bind_eq_bind, Option.bind_some, walked,
        close_eq alive]
      rw [ofNode_eq alive₃]

end Walking

end Mykonos.Fs
