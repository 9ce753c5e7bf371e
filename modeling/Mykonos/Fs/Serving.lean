import Mykonos.Fs.Archive
import Mykonos.Fs.Growth
import Mykonos.Fs.Reading

/-! # What an archive serves

The initramfs is mounted on the root, and then files are opened by their paths, read and
closed, one after the other. The answers are the ones that the archive has for the paths,
although every look into a directory populates it again.
-/

namespace Mykonos.Fs

open Lib Util

/-! ## The calls -/

/-- `kRun` opens the root, mounts the provider on it and closes it. The test file that it opens
    in between is left to the requests. -/
def mountInitramfs (memory : Nat → UInt8) (path : String) (entries : List InitramfsEntry)
    (store : Store FileNode) :
    Option (Store FileNode) := do
  let (rootDirectory, store) ← FileHandle.ofPath memory path true store
  let (rootDirectory, store) ← rootDirectory.mount entries store
  let (_, store) ← rootDirectory.close store
  some store

/-- A path, and the lengths and the buffers of the reads of the file. -/
structure Request where
  path : String
  pieces : List (Nat × Nat)
  deriving Repr, DecidableEq

inductive Reply where
  | notFound
  | directory
  | file (chunks : List (List UInt8))
  deriving Repr, DecidableEq

/-- A file is opened, read piece by piece, and closed. -/
def serve (memory : Nat → UInt8) (request : Request) (store : Store FileNode) :
    Option (Reply × Store FileNode) := do
  let (handle, store) ← FileHandle.ofPath memory request.path false store
  match ← handle.getType store with
  | .none => some (.notFound, store)
  | .directory => do
      let (_, store) ← handle.close store
      some (.directory, store)
  | .file => do
      let chunks ← handle.readInPieces store memory 0 request.pieces
      let (_, store) ← handle.close store
      some (.file chunks, store)

/-- The requests with the memory that each of them finds. -/
def serveAll : List ((Nat → UInt8) × Request) → Store FileNode → Option (List Reply)
  | [], _ => some []
  | (memory, request) :: rest, store => do
      let (reply, store) ← serve memory request store
      let replies ← serveAll rest store
      some (reply :: replies)

/-! ## The answers -/

/-- A text cut by the lengths. -/
def cut : List UInt8 → List Nat → List (List UInt8)
  | _, [] => []
  | text, length :: rest => text.take length :: cut (text.drop length) rest

/-- The member of a directory by the next component. -/
def Member.child (members : List Member) (here : Member) (component : List UInt8) : Option Member :=
  if here.type = typeFile then none
  else members.find? fun m => m.fileName = here.fileName ++ slash :: component

/-- The member that a path leads to, from the first one on. -/
def lookup (members : List Member) (path : List UInt8) : Option Member :=
  members.head?.bind fun top => (components path).foldlM (Member.child members) top

/-- What the archive has for a request. -/
def answer (members : List Member) (memory : Nat → UInt8) (request : Request) : Reply :=
  match lookup (members.filter Member.recorded) (request.path.bytes memory) with
  | none => .notFound
  | some m =>
      if m.type = typeFile then .file (cut m.contents (request.pieces.map Prod.fst)) else .directory

/-- The entries describe the files and the directories of the archive. -/
def Describes (memory : Nat → UInt8) (members : List Member)
    (entries : List InitramfsEntry) : Prop :=
  List.Forall₂ (fun m entry => ∃ address, Member.ReadAs memory (address, m) entry)
    (members.filter Member.recorded)
    entries

/-- The first member is a directory, and the names are paths of which none goes on beside a
    directory. -/
structure Navigable (members : List Member) : Prop where
  top : ∀ first ∈ members.head?, first.type ≠ typeFile
  filled : members ≠ []
  paths : ∀ m ∈ members, PathName m.fileName
  apart : ∀ directory ∈ members, directory.type ≠ typeFile →
    ∀ m ∈ members, ¬ Beside directory.fileName m.fileName

section Names

theorem mem_components {text name : List UInt8} (member : name ∈ components text) :
    name ≠ [] ∧ slash ∉ name := by
  induction length : text.length using Nat.strongRecOn generalizing text with
  | ind n ih =>
      cases text with
      | nil => simp [components] at member
      | cons byte rest =>
          rw [List.length_cons] at length
          by_cases first : byte = slash
          · rw [first, components_slash] at member
            exact ih rest.length (by omega) member rfl
          · rw [components_takeWhile rest first] at member
            rcases List.mem_cons.mp member with rfl | later
            · refine ⟨List.cons_ne_nil _ _, ?_⟩
              rw [List.mem_cons, not_or]
              exact ⟨Ne.symm first, fun inside => by simpa using List.mem_takeWhile_imp inside⟩
            · have shorter := (List.dropWhile_suffix (· ≠ slash) (l := rest)).length_le
              exact ih _ (by omega) later rfl

variable {memory memory' : Nat → UInt8}

/-- The name of a child depends only on the bytes of the names. -/
theorem childBaseName_congr {directoryName name : String}
    (directory : directoryName.bytes memory' = directoryName.bytes memory)
    (same : name.bytes memory' = name.bytes memory) :
    childBaseName memory' directoryName name = childBaseName memory directoryName name := by
  by_cases before : directoryName.bytes memory <+: name.bytes memory
  · have fits : directoryName.length ≤ name.length := by
      have lengths := before.length_le
      rwa [String.bytes_length, String.bytes_length] at lengths
    have tail : (name.subStringFrom directoryName.length).bytes memory' =
        (name.subStringFrom directoryName.length).bytes memory := by
      rw [String.bytes_subStringFrom _ fits, String.bytes_subStringFrom _ fits, same]
    have base : removeSlash memory' (name.subStringFrom directoryName.length) =
        removeSlash memory (name.subStringFrom directoryName.length) := by
      rw [removeSlash, removeSlash, String.get_eq, String.get_eq, tail]
    have bytes : (removeSlash memory (name.subStringFrom directoryName.length)).bytes memory' =
        (removeSlash memory (name.subStringFrom directoryName.length)).bytes memory := by
      have after := removeSlash_bytes memory' (name.subStringFrom directoryName.length)
      rw [base, tail, ← removeSlash_bytes memory] at after
      exact after
    rw [childBaseName, childBaseName, if_pos ((name.startsWith_iff directoryName).mpr before),
      if_pos ((name.startsWith_iff directoryName).mpr (by rw [same, directory]; exact before)),
      base]
    simp only [filled_and_last_iff, bytes]
  · rw [childBaseName_eq_none before, childBaseName_eq_none (by rw [same, directory]; exact before)]

theorem listing_congr {entries : List InitramfsEntry} {entry : InitramfsEntry}
    (inside : entry ∈ entries)
    (same : ∀ other ∈ entries, other.name.bytes memory' = other.name.bytes memory) :
    listing memory' entries entry = listing memory entries entry := by
  refine List.filterMap_congr fun place member => ?_
  dsimp only
  rw [childBaseName_congr (same entry inside) (same place.1 (List.fst_mem_of_mem_zipIdx member))]

end Names

section Describing

variable {memory memory' : Nat → UInt8} {members : List Member} {entries : List InitramfsEntry}

theorem located_recorded (address : Nat) (members : List Member) :
    ((located address members).filter fun place => place.2.recorded).map Prod.snd =
      members.filter Member.recorded := by
  induction members generalizing address with
  | nil => rfl
  | cons m rest ih =>
      rw [located, List.filter_cons, List.filter_cons]
      split
      · rw [List.map_cons, ih]
      · exact ih _

theorem describes_of_located {pointer : Nat}
    (all : List.Forall₂ (Member.ReadAs memory)
      ((located pointer members).filter fun place => place.2.recorded) entries) :
    Describes memory members entries := by
  rw [Describes, ← located_recorded pointer, List.forall₂_map_left_iff]
  exact all.imp fun place entry read => ⟨place.1, read⟩

theorem Describes.names (describes : Describes memory members entries) :
    (entries.map fun entry => entry.name.bytes memory) =
      (members.filter Member.recorded).map Member.fileName := by
  rw [Describes] at describes
  generalize members.filter Member.recorded = recorded at describes
  induction describes with
  | nil => rfl
  | cons read _ ih =>
      obtain ⟨_, read⟩ := read
      rw [List.map_cons, List.map_cons, ih, read.name]

/-- The entry and the member with an index go together. -/
theorem Describes.at (describes : Describes memory members entries) {d : Nat} {m : Member}
    (here : (members.filter Member.recorded)[d]? = some m) :
    ∃ entry address, entries[d]? = some entry ∧ Member.ReadAs memory (address, m) entry := by
  rw [Describes] at describes
  obtain ⟨below, same⟩ := List.getElem?_eq_some_iff.mp here
  have inside : d < entries.length := describes.length_eq ▸ below
  obtain ⟨address, read⟩ := describes.get below inside
  rw [List.get_eq_getElem, same] at read
  exact ⟨entries[d], address, List.getElem?_eq_getElem inside, read⟩

theorem Describes.of_entry (describes : Describes memory members entries) {entry : InitramfsEntry}
    (inside : entry ∈ entries) :
    ∃ m ∈ members.filter Member.recorded, ∃ address, Member.ReadAs memory (address, m) entry := by
  obtain ⟨d, below, same⟩ := List.mem_iff_getElem.mp inside
  have other : d < (members.filter Member.recorded).length := by
    rw [Describes] at describes
    exact describes.length_eq ▸ below
  obtain ⟨entry', address, here, read⟩ := describes.at (List.getElem?_eq_getElem other)
  rw [List.getElem?_eq_getElem below, same] at here
  obtain rfl := Option.some.inj here
  exact ⟨_, List.getElem_mem other, address, read⟩

theorem Describes.same_names (describes : Describes memory members entries)
    (describes' : Describes memory' members entries) :
    ∀ entry ∈ entries, entry.name.bytes memory' = entry.name.bytes memory := by
  have names := describes'.names.trans describes.names.symm
  exact fun entry inside => List.map_inj_left.mp names entry inside

theorem length_lt_imageSize (members : List Member) : members.length < imageSize members := by
  induction members with
  | nil => decide
  | cons m rest ih =>
      rw [imageSize, List.length_cons]
      omega

theorem Describes.provides (describes : Describes memory members entries)
    (describes' : Describes memory' members entries) (small : imageSize members < 2 ^ 32) :
    Provides memory' entries (listing memory entries) := by
  refine ⟨fun entry inside => listing_congr inside (describes.same_names describes'), ?_⟩
  have count : (members.filter Member.recorded).length = entries.length := by
    rw [Describes] at describes
    exact describes.length_eq
  have few := List.length_filter_le Member.recorded members
  have fits := length_lt_imageSize members
  have wide : sizeMax = 2 ^ 64 - 1 := rfl
  omega

end Describing

section Looking

variable {memory : Nat → UInt8} {entries : List InitramfsEntry}
  {listed : InitramfsEntry → List FileNode} {members : List Member} {d : Nat}
  {entry : InitramfsEntry} {name : List UInt8}

/-- A name leads from a directory to the first entry with one more component. -/
theorem ledTo_eq (provides : Provides memory entries listed)
    (paths : ∀ other ∈ entries, PathName (other.name.bytes memory))
    (member : entries[d]? = some entry) (type : entry.type = .directory)
    (apart : ∀ other ∈ entries, ¬ Beside (entry.name.bytes memory) (other.name.bytes memory))
    (single : name ≠ [] ∧ slash ∉ name) :
    ledTo memory entries listed d name =
      entries.findIdx? fun other => other.name.bytes memory = entry.name.bytes memory ++
        slash :: name := by
  have views := (listing_view_iff paths entry).mpr apart
  have sought : ((listing memory entries entry).find? fun child => child.name.bytes memory =
    name).bind FileNode.node =
      (((listing memory entries entry).map (FileNode.view memory)).find? fun view =>
        view.1 = name).bind
        fun view => view.2.2 := by
    rw [List.find?_map]
    change _ =
      (((listing memory entries entry).find? fun child => child.name.bytes memory = name).map
      (FileNode.view memory)).bind _
    cases (listing memory entries entry).find? fun child => child.name.bytes memory = name with
    | none => rfl
    | some child => rfl
  have named : ∀ place : InitramfsEntry × Nat,
      ((componentOf (entry.name.bytes memory) (place.1.name.bytes memory)).map fun component =>
        (component, place.1.type, some place.2)).any (fun view => decide (view.1 = name)) =
      decide (place.1.name.bytes memory = entry.name.bytes memory ++ slash :: name) := by
    intro place
    rw [Bool.eq_iff_iff, decide_eq_true_iff]
    cases found : componentOf (entry.name.bytes memory) (place.1.name.bytes memory) with
    | none =>
        refine ⟨fun wrong => absurd wrong Bool.false_ne_true, fun same => ?_⟩
        have some := componentOf_eq_some.mpr ⟨same, single⟩
        rw [found] at some
        cases some
    | some component =>
        have split := (componentOf_eq_some.mp found).1
        rw [Option.map_some, Option.any_some, decide_eq_true_iff, split, List.append_cancel_left_eq,
          List.cons.injEq, eq_self_iff_true, true_and]
  rw [ledTo, member, Option.bind_some,
    if_pos type, ← provides.listing entry (List.mem_of_getElem? member), sought, views,
    pathChildren, List.find?_filterMap, List.findIdx?_eq_fst_find?_zipIdx]
  simp only [named]
  cases found : entries.zipIdx.find? fun place =>
      decide (place.1.name.bytes memory = entry.name.bytes memory ++ slash :: name) with
  | none => rfl
  | some place =>
      have here := List.find?_some found
      have some := componentOf_eq_some.mpr ⟨of_decide_eq_true here, single⟩
      rw [Option.bind_some, some]
      rfl

/-- The entry and the member that a component leads to go together. -/
theorem Describes.child (describes : Describes memory members entries)
    (provides : Provides memory entries listed)
    (navigable : Navigable (members.filter Member.recorded)) {here : Member}
    (index : (members.filter Member.recorded)[d]? = some here) (single : name ≠ [] ∧ slash ∉ name) :
    (ledTo memory entries listed d name).map (fun e => (members.filter Member.recorded)[e]?) =
      (Member.child (members.filter Member.recorded) here name).map some := by
  obtain ⟨entry, address, member, read⟩ := describes.at index
  rw [Member.child]
  split
  · rename_i file
    have type : entry.type ≠ .directory := by
      rw [read.type, if_pos file]
      decide
    rw [ledTo, member, Option.bind_some, if_neg type]
    rfl
  · rename_i directory
    have type : entry.type = .directory := by rw [read.type, if_neg directory]
    have paths : ∀ other ∈ entries, PathName (other.name.bytes memory) := by
      intro other inside
      obtain ⟨m, recorded, _, told⟩ := describes.of_entry inside
      rw [told.name]
      exact navigable.paths m recorded
    have apart :
        ∀ other ∈ entries, ¬ Beside (entry.name.bytes memory) (other.name.bytes memory) := by
      intro other inside
      obtain ⟨m, recorded, _, told⟩ := describes.of_entry inside
      rw [told.name, read.name]
      exact navigable.apart here (List.mem_of_getElem? index) directory m recorded
    have through :
        ∀ text : List UInt8, (entries.findIdx? fun other => other.name.bytes memory = text) =
        (members.filter Member.recorded).findIdx? fun m => m.fileName = text := by
      intro text
      have mapped := congrArg (List.findIdx? fun bytes => decide (bytes = text)) describes.names
      rw [List.findIdx?_map, List.findIdx?_map] at mapped
      exact mapped
    rw [ledTo_eq provides paths member type apart single, through, read.name,
      List.find?_eq_bind_findIdx?_getElem?]
    cases found : (members.filter Member.recorded).findIdx? fun m => m.fileName = here.fileName ++
        slash :: name with
    | none => rfl
    | some e =>
        obtain ⟨below, _⟩ := List.findIdx?_eq_some_iff_findIdx_eq.mp found
        rw [Option.map_some, Option.bind_some, List.getElem?_eq_getElem below, Option.map_some]

/-- The same for all components of a path. -/
theorem Describes.path (describes : Describes memory members entries)
    (provides : Provides memory entries listed)
    (navigable : Navigable (members.filter Member.recorded)) {names : List (List UInt8)}
    (single : ∀ name ∈ names, name ≠ [] ∧ slash ∉ name) {here : Member}
    (index : (members.filter Member.recorded)[d]? = some here) :
    (names.foldlM (ledTo memory entries listed) d).map
      (fun e => (members.filter Member.recorded)[e]?) =
      (names.foldlM (Member.child (members.filter Member.recorded)) here).map some := by
  induction names generalizing d here with
  | nil => exact congrArg some index
  | cons name rest ih =>
      have step := describes.child provides navigable index (single name List.mem_cons_self)
      have later := fun other inside => single other (List.mem_cons_of_mem name inside)
      rw [List.foldlM_cons, List.foldlM_cons]
      cases led : ledTo memory entries listed d name with
      | none =>
          rw [led] at step
          rw [Option.map_eq_none_iff.mp step.symm]
          rfl
      | some e =>
          rw [led] at step
          obtain ⟨next, child, there⟩ := Option.map_eq_some_iff.mp step.symm
          rw [child]
          exact ih later there.symm

end Looking

section Pieces

variable {memory : Nat → UInt8} {handle : FileHandle} {store : Store FileNode}
  {entry : InitramfsEntry}

theorem contents_length (memory : Nat → UInt8) (entry : InitramfsEntry) :
    (entry.contents memory).length = entry.size :=
  bytesAt_length ..

/-- Reads one after the other cut the file. -/
theorem OpenFile.readInPieces_cut (file : OpenFile handle store entry) (memory : Nat → UInt8)
    (offset : Nat) (pieces : List (Nat × Nat))
    (beyond : ∀ piece ∈ pieces, entry.Beyond piece.1 piece.2) :
    handle.readInPieces store memory offset pieces =
      some (cut ((entry.contents memory).drop offset) (pieces.map Prod.fst)) := by
  induction pieces generalizing memory offset with
  | nil => rfl
  | cons piece rest ih =>
      obtain ⟨length, buffer⟩ := piece
      have away := beyond (length, buffer) List.mem_cons_self
      have within := readable_le entry offset length
      obtain ⟨memory', taken, frame, chunk⟩ := file.read memory offset length buffer
      have same : entry.contents memory' = entry.contents memory := by
        refine bytesAt_congr fun i inside => frame _ ?_
        rcases away with before | after
        · dsimp only at before
          omega
        · exact .inl (by dsimp only at after; omega)
      have further := ih memory' (offset + entry.readable offset length) fun other member =>
        beyond other (List.mem_cons_of_mem _ member)
      have left : ((entry.contents memory).drop offset).length = entry.size - offset := by
        rw [List.length_drop, contents_length]
      -- A read that gets less than it asks for gets all that is left.
      have whole : entry.readable offset length = length ∨
          entry.readable offset length = entry.size - offset ∧ entry.size - offset ≤ length := by
        rw [InitramfsEntry.readable]
        split
        · rw [Nat.min_def]
          split
          · exact .inl rfl
          · exact .inr ⟨rfl, by omega⟩
        · exact .inr ⟨by omega, by omega⟩
      have front : ((entry.contents memory).drop offset).take (entry.readable offset length) =
          ((entry.contents memory).drop offset).take length := by
        rcases whole with all | ⟨all, le⟩
        · rw [all]
        · rw [all, List.take_of_length_le (by omega), List.take_of_length_le (by omega)]
      have back : ((entry.contents memory).drop offset).drop (entry.readable offset length) =
          ((entry.contents memory).drop offset).drop length := by
        rcases whole with all | ⟨all, le⟩
        · rw [all]
        · rw [all, List.drop_of_length_le (by omega), List.drop_of_length_le (by omega)]
      rw [same, ← List.drop_drop, back] at further
      simp only [FileHandle.readInPieces, taken, Option.bind_eq_bind, Option.bind_some, further,
        chunk away, front, List.map_cons, cut]

end Pieces

section Mounting

variable {memory : Nat → UInt8} {entries : List InitramfsEntry}
  {listed : InitramfsEntry → List FileNode}

theorem walk_nowhere {fuel : Nat} {path : String} {current : FileHandle} {store : Store FileNode}
    (none : components (path.bytes memory) = []) :
    FileHandle.walk memory fuel path current store = some (some current, store) := by
  cases fuel with
  | zero => rfl
  | succ fuel =>
      rw [FileHandle.walk]
      split
      · rfl
      · rcases round_components memory path with ⟨zero, _⟩ | ⟨_, first, _⟩
        · rw [if_pos zero]
        · rw [none] at first
          cases first

/-- A root without children is a tree. -/
theorem grown_root {store : Store FileNode} {node : FileNode} {first : InitramfsEntry}
    (live : store.read root = some node) (of : node.node = some 0)
    (member : entries[0]? = some first) (type : node.type = first.type)
    (provider : node.fsProvider = some entries) (unpopulated : node.populated = false)
    (blank : node.children = {}) : Grown entries listed store := by
  have only : ∀ {place}, Planted store place → place = root := by
    intro place planted
    induction planted with
    | root => rfl
    | child _ alive held _ ih =>
        subst ih
        obtain rfl := Option.some.inj (live.symm.trans alive)
        rw [blank] at held
        cases held
  refine ⟨⟨node, live, of⟩, fun place planted => ?_,
    fun place other a b data planted planted' _ _ _ _ => ?_⟩
  · obtain rfl := only planted
    have sprout : Sprout entries node :=
      ⟨⟨0, first, of, member, type⟩, provider, unpopulated, blank⟩
    exact ⟨node, live, sprout.rooted⟩
  · rw [only planted, only planted']

theorem mountInitramfs_grown {path : String} {first : InitramfsEntry}
    (slashes : components (path.bytes memory) = []) (member : entries[0]? = some first)
    (type : first.type = .directory) :
    ∃ store, mountInitramfs memory path entries Vfs.initial.store = some store ∧
    Grown entries listed store := by
  have start : Vfs.initial.store.read root = some { type := .directory } := rfl
  have filled : 0 < entries.length := (List.getElem?_eq_some_iff.mp member).1
  obtain ⟨_, live₁⟩ := opened_live start root
  obtain ⟨store, made⟩ :
      ∃ store, store = opened root (released root (opened root Vfs.initial.store)) := ⟨_, rfl⟩
  have live : store.read root = some { type := .directory, openCount := 1 } := by
    rw [made, opened, Store.read_modify, if_pos rfl, released, Store.read_modify,
      if_pos rfl, opened, Store.read_modify, if_pos rfl, start]
    rfl
  have reached : FileHandle.ofPath memory path true Vfs.initial.store =
      some (⟨some root, true, true, .okay⟩, store) := by
    obtain ⟨_, live₂⟩ := released_live live₁ root
    simp only [FileHandle.ofPath, ofNode_eq start, Option.bind_eq_bind, Option.bind_some,
      walk_nowhere slashes, close_eq live₁]
    rw [ofNode_eq live₂, made]
  have mounted : FileHandle.mount ⟨some root, true, true, .okay⟩ entries store =
      some (⟨some root, true, true, .okay⟩,
        store.modify root fun _ =>
          FileHandle.mountedNode entries { type := .directory, openCount := 1 }) := by
    simp only [FileHandle.mount, if_true, Option.bind_eq_bind, Option.bind_some, live]
    rfl
  have live₃ : (store.modify root fun _ =>
      FileHandle.mountedNode entries { type := .directory, openCount := 1 }).read root =
        some (FileHandle.mountedNode entries { type := .directory, openCount := 1 }) := by
    rw [Store.read_modify, if_pos rfl, live]
    rfl
  have tree : Grown entries listed (store.modify root fun _ =>
      FileHandle.mountedNode entries { type := .directory, openCount := 1 }) :=
    grown_root live₃ (if_pos filled) member type.symm rfl rfl rfl
  refine ⟨released root _, ?_, tree.counted root _⟩
  simp only [mountInitramfs, reached, mounted, close_eq live₃, Option.bind_eq_bind,
    Option.bind_some]

end Mounting

section Serving

variable {memory : Nat → UInt8} {members : List Member} {entries : List InitramfsEntry}
  {listed : InitramfsEntry → List FileNode} {store : Store FileNode}

/-- What one request comes to. -/
theorem Grown.serve (grown : Grown entries listed store)
    (describes : Describes memory members entries) (provides : Provides memory entries listed)
    (navigable : Navigable (members.filter Member.recorded)) (request : Request)
    (beyond : ∀ piece ∈ request.pieces, ∀ entry ∈ entries, entry.Beyond piece.1 piece.2) :
    ∃ store', Fs.serve memory request store = some (answer members memory request, store') ∧
      Grown entries listed store' := by
  obtain ⟨top, rest, filled⟩ := List.exists_cons_of_ne_nil navigable.filled
  have index : (members.filter Member.recorded)[0]? = some top := by rw [filled]; rfl
  have sought : lookup (members.filter Member.recorded) (request.path.bytes memory) =
      (components (request.path.bytes memory)).foldlM
        (Member.child (members.filter Member.recorded)) top := by
    rw [lookup, List.head?_eq_getElem?, index]
    rfl
  have clean (name : List UInt8) (inside : name ∈ components (request.path.bytes memory)) :=
    mem_components inside
  have led := describes.path provides navigable clean index
  rw [← sought] at led
  obtain ⟨handle, store₁, reached, grown₁, found⟩ := grown.ofPath provides request.path false
  cases ends : (components (request.path.bytes memory)).foldlM (ledTo memory entries listed) 0 with
  | none =>
      rw [ends] at found led
      have missing : lookup (members.filter Member.recorded) (request.path.bytes memory) = none :=
        Option.map_eq_none_iff.mp led.symm
      obtain rfl : handle = ⟨none, false, false, .notFound⟩ := found
      refine ⟨store₁, ?_, grown₁⟩
      simp only [Fs.serve, reached, Option.bind_eq_bind, Option.bind_some, FileHandle.getType,
        Bool.false_eq_true, if_false, answer, missing]
  | some d =>
      rw [ends] at found led
      obtain ⟨m, target, there⟩ := Option.map_eq_some_iff.mp led.symm
      obtain ⟨place, node, rfl, alive, rooted, of⟩ := found
      obtain ⟨entry, address, member, read⟩ := describes.at there.symm
      obtain ⟨d', entry', of', member', typed, _⟩ := rooted.describes
      obtain rfl := Option.some.inj (of.symm.trans of')
      obtain rfl := Option.some.inj (member.symm.trans member')
      have types : FileHandle.getType ⟨some place, false, true, .okay⟩ store₁ =
          some entry.type := by
        simp only [FileHandle.getType, if_true, Option.bind_eq_bind, Option.bind_some, alive, typed]
      refine ⟨released place store₁, ?_, grown₁.counted place _⟩
      by_cases file : m.type = typeFile
      · have type : entry.type = .file := by rw [read.type, if_pos file]
        have isOpen : OpenFile ⟨some place, false, true, .okay⟩ store₁ entry :=
          ⟨rfl, place, node, entries, d, rfl, alive, typed.trans type, rooted.provider, of, member⟩
        have pieces := isOpen.readInPieces_cut memory 0 request.pieces fun piece inside =>
          beyond piece inside entry (List.mem_of_getElem? member)
        have contents : entry.contents memory = m.contents := by
          rw [InitramfsEntry.contents, read.size]
          exact read.contents.bytesAt
        rw [List.drop_zero, contents] at pieces
        simp only [Fs.serve, reached, types, type, Option.bind_eq_bind, Option.bind_some, pieces,
          close_eq alive, answer, target, if_pos file]
      · have type : entry.type = .directory := by rw [read.type, if_neg file]
        simp only [Fs.serve, reached, types, type, Option.bind_eq_bind, Option.bind_some,
          close_eq alive, answer, target, if_neg file]

/-- What all requests come to. -/
theorem Grown.serveAll {original : Nat → UInt8}
    (original_describes : Describes original members entries) (small : imageSize members < 2 ^ 32)
    (navigable : Navigable (members.filter Member.recorded))
    (sessions : List ((Nat → UInt8) × Request))
    (intact : ∀ session ∈ sessions, Describes session.1 members entries ∧
      ∀ piece ∈ session.2.pieces, ∀ entry ∈ entries, entry.Beyond piece.1 piece.2)
    (grown : Grown entries (listing original entries) store) :
    Fs.serveAll sessions store =
      some (sessions.map fun session => answer members session.1 session.2) := by
  induction sessions generalizing store with
  | nil => rfl
  | cons session rest ih =>
      obtain ⟨describes, beyond⟩ := intact session List.mem_cons_self
      obtain ⟨store', served, grown'⟩ :=
        grown.serve describes (original_describes.provides describes small) navigable
        session.2 beyond
      have further := ih (fun other inside => intact other (List.mem_cons_of_mem _ inside)) grown'
      simp only [Fs.serveAll, served, Option.bind_eq_bind, Option.bind_some, further, List.map_cons]

end Serving

/-- An archive that is mounted on the root serves what is in it: every sequence of requests is
    answered with the members that the paths lead to and with their contents, cut by the lengths
    of the reads, as long as nobody writes to the archive. -/
theorem archive_served (memory : Nat → UInt8) (pointer : Nat) (members : List Member)
    (archive : Archive memory pointer members) (small : imageSize members < 2 ^ 32)
    (navigable : Navigable (members.filter Member.recorded)) (fuel : Nat)
    (enough : members.length < fuel) (path : String)
    (slashes : components (path.bytes memory) = []) :
    ∃ entries store mounted, initramfsFsProvider memory fuel pointer = some (entries, store) ∧
      Describes memory members (entries.contents store) ∧
      mountInitramfs memory path (entries.contents store) Vfs.initial.store = some mounted ∧
      ∀ sessions : List ((Nat → UInt8) × Request),
        (∀ session ∈ sessions, Describes session.1 members (entries.contents store) ∧
          ∀ piece ∈ session.2.pieces, ∀ entry ∈ entries.contents store,
            entry.Beyond piece.1 piece.2) →
        serveAll sessions mounted =
          some (sessions.map fun session => answer members session.1 session.2) := by
  obtain ⟨entries, store, added, read, _, contents, all⟩ :=
    readEntries_written archive small enough (Vector.sound_empty {})
  have whole : entries.contents store = added := contents
  have describes : Describes memory members (entries.contents store) := by
    rw [whole]
    exact describes_of_located all
  obtain ⟨top, rest, filled⟩ := List.exists_cons_of_ne_nil navigable.filled
  obtain ⟨first, address, member, described⟩ :=
    describes.at (d := 0) (m := top) (by rw [filled]; rfl)
  have type : first.type = .directory := by
    rw [described.type, if_neg (navigable.top top (by rw [filled]; rfl))]
  obtain ⟨mounted, result, grown⟩ :
      ∃ mounted, mountInitramfs memory path (entries.contents store) Vfs.initial.store =
        some mounted ∧
        Grown (entries.contents store) (listing memory (entries.contents store)) mounted :=
    mountInitramfs_grown slashes member type
  exact ⟨entries, store, mounted, read, describes, result, fun sessions intact =>
    grown.serveAll describes small navigable sessions intact⟩

/-- The file is read in two pieces, through a path with a slash in front; the directory is the
    root itself, and there is no `ustar`. -/
theorem archive_served_sample :
    ∃ entries store mounted, initramfsFsProvider sampleArchive 4 4096 = some (entries, store) ∧
      mountInitramfs sampleArchive ⟨5633, 1⟩ (entries.contents store) Vfs.initial.store =
        some mounted ∧
      serveAll [(sampleArchive, ⟨⟨5633, 2⟩, [(1, 0), (4, 0)]⟩), (sampleArchive, ⟨⟨5633, 1⟩, []⟩),
        (sampleArchive, ⟨⟨4353, 5⟩, []⟩)] mounted =
          some [.file [[4], [5]], .directory, .notFound] := by
  obtain ⟨entries, store, mounted, read, describes, result, served⟩ :=
    archive_served sampleArchive 4096 sampleMembers (by decide +kernel) (by decide +kernel)
      ⟨by decide +kernel, by decide +kernel, by decide +kernel, by decide +kernel⟩ 4
      (by decide) ⟨5633, 1⟩
      (by decide +kernel)
  have beyond : ∀ entry ∈ entries.contents store, ∀ length ≤ 4, entry.Beyond length 0 := by
    intro entry inside length few
    obtain ⟨_, _, address, told⟩ := describes.of_entry inside
    have data : entry.data = address + 512 := told.data
    exact .inl (by omega)
  refine ⟨entries, store, mounted, read, result,
    (served _ ?_).trans (congrArg some (by decide +kernel))⟩
  simp only [List.forall_mem_cons, List.not_mem_nil, false_implies, implies_true, and_true]
  exact ⟨⟨describes, fun entry inside => beyond entry inside 1 (by decide),
    fun entry inside => beyond entry inside 4 (by decide)⟩, describes, describes⟩

end Mykonos.Fs
