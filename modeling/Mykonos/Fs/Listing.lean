import Mathlib.Data.List.Basic
import Mykonos.Fs.Provider

/-! # What a directory lists

The children of a directory by the path names of the entries, and which siblings
`populateDirectory` takes for children.
-/

namespace Mykonos.Fs

open Lib Util

/-- Components that are separated by slashes, and none of them empty. -/
def PathName (name : List UInt8) : Prop :=
  [] ∉ name.splitOn slash

instance (name : List UInt8) : Decidable (PathName name) :=
  inferInstanceAs (Decidable (¬ _))

/-- What follows after the directory and a slash, if this is one component. -/
def componentOf (directory name : List UInt8) : Option (List UInt8) :=
  let component := name.drop (directory.length + 1)
  if directory ++ [slash] <+: name ∧ component ≠ [] ∧ slash ∉ component then some component
  else none

theorem componentOf_append (directory rest : List UInt8) :
    componentOf directory (directory ++ slash :: rest) =
      if rest ≠ [] ∧ slash ∉ rest then some rest else none := by
  rw [componentOf, List.append_cons directory slash rest,
    List.drop_left' (by rw [List.length_append]; rfl)]
  simp only [List.prefix_append, true_and]

theorem componentOf_eq_none {directory rest : List UInt8} (apart : rest.head? ≠ some slash) :
    componentOf directory (directory ++ rest) = none := by
  rw [componentOf, if_neg]
  rintro ⟨before, _⟩
  obtain ⟨further, rfl⟩ := (List.prefix_append_right_inj directory).mp before
  exact apart rfl

theorem componentOf_eq_some {directory name component : List UInt8} :
    componentOf directory name = some component ↔
      name = directory ++ slash :: component ∧ component ≠ [] ∧ slash ∉ component := by
  constructor
  · intro found
    obtain ⟨rest, rfl⟩ := (Option.ite_none_right_eq_some.mp found).1.1
    rw [List.append_assoc, List.singleton_append] at found ⊢
    rw [componentOf_append] at found
    obtain ⟨single, result⟩ := Option.ite_none_right_eq_some.mp found
    obtain rfl := Option.some.inj result
    exact ⟨rfl, single⟩
  · rintro ⟨rfl, single⟩
    rw [componentOf_append, if_pos single]

/-- A child by its name, its type and its entry. -/
def FileNode.view (memory : Nat → UInt8) (child : FileNode) : List UInt8 × FileType × Option Nat :=
  (child.name.bytes memory, child.type, child.node)

/-- The children that a directory has by the path names: one for each entry with one more
    component. -/
def pathChildren (memory : Nat → UInt8) (entries : List InitramfsEntry)
    (directoryEntry : InitramfsEntry) :
    List (List UInt8 × FileType × Option Nat) :=
  entries.zipIdx.filterMap fun (entry, i) =>
    (componentOf (directoryEntry.name.bytes memory) (entry.name.bytes memory)).map fun component =>
      (component, entry.type, some i)

/-- The name goes on where the directory ends, without a slash. -/
def Beside (directory name : List UInt8) : Prop :=
  ∃ rest, name = directory ++ rest ∧ rest ≠ [] ∧ slash ∉ rest

theorem beside_iff {directory name : List UInt8} :
    directory <+: name ∧ name.drop directory.length ≠ [] ∧ slash ∉ name.drop directory.length ↔
      Beside directory name := by
  constructor
  · rintro ⟨⟨rest, rfl⟩, further⟩
    rw [List.drop_left] at further
    exact ⟨rest, rfl, further⟩
  · rintro ⟨rest, rfl, further⟩
    rw [List.drop_left]
    exact ⟨List.prefix_append .., further⟩

instance (directory name : List UInt8) : Decidable (Beside directory name) :=
  decidable_of_iff _ beside_iff

theorem removeSlash_bytes (memory : Nat → UInt8) (baseName : String) :
    (removeSlash memory baseName).bytes memory =
      if (baseName.bytes memory).head? = some slash then (baseName.bytes memory).tail
      else baseName.bytes memory := by
  rw [removeSlash, String.get_eq]
  cases text : baseName.bytes memory with
  | nil => exact text
  | cons byte rest =>
      have length : (baseName.bytes memory).length = baseName.length := baseName.bytes_length
      have filled : 1 ≤ baseName.length := by
        rw [← length, text]
        exact Nat.le_add_left 1 _
      simp only [List.getD_cons_zero, List.head?_cons, List.tail_cons, Option.some.injEq]
      split
      · rw [baseName.bytes_subStringFrom filled, text]
        rfl
      · exact text

theorem filled_and_last_iff (memory : Nat → UInt8) (baseName : String) :
    baseName.length > 0 ∧ (baseName.findNext memory slash).isNull = true ↔
      baseName.bytes memory ≠ [] ∧ slash ∉ (baseName.bytes memory).tail := by
  rw [baseName.findNext_isNull (by decide), ← List.length_pos_iff, baseName.bytes_length]

/-- What is left of the rest of a name when the slash in front is removed, if it is taken for
    the name of a child. -/
def baseOf (rest : List UInt8) : Option (List UInt8) :=
  let base := if rest.head? = some slash then rest.tail else rest
  if base ≠ [] ∧ slash ∉ base.tail then some base else none

theorem childBaseName_of_append {memory : Nat → UInt8} {directoryName name : String}
    {rest : List UInt8} (split : name.bytes memory = directoryName.bytes memory ++ rest) :
    (childBaseName memory directoryName name).map (String.bytes memory) = baseOf rest := by
  have fits : directoryName.length ≤ name.length := by
    have lengths := congrArg List.length split
    rw [List.length_append, String.bytes_length, String.bytes_length] at lengths
    omega
  have tail : (name.subStringFrom directoryName.length).bytes memory = rest := by
    rw [name.bytes_subStringFrom fits, split, List.drop_left' directoryName.bytes_length]
  have base := removeSlash_bytes memory (name.subStringFrom directoryName.length)
  rw [tail] at base
  rw [childBaseName, if_pos ((name.startsWith_iff directoryName).mpr ⟨rest, split.symm⟩),
    baseOf, ← base]
  simp only [filled_and_last_iff]
  split
  · rfl
  · rfl

theorem childBaseName_eq_none {memory : Nat → UInt8} {directoryName name : String}
    (foreign : ¬ directoryName.bytes memory <+: name.bytes memory) :
    childBaseName memory directoryName name = none := by
  rw [childBaseName, if_neg fun before => foreign ((name.startsWith_iff directoryName).mp before)]

theorem PathName.rest {directory rest : List UInt8} (path : PathName (directory ++ slash :: rest)) :
    rest ≠ [] ∧ rest.head? ≠ some slash := by
  rw [PathName, List.splitOn_append_cons_self, List.mem_append, not_or] at path
  constructor
  · rintro rfl
    exact path.2 (by decide)
  · intro first
    obtain ⟨further, rfl⟩ := List.head?_eq_some_iff.mp first
    rw [← List.nil_append (slash :: further), List.splitOn_append_cons_self] at path
    exact path.2 (List.mem_append_left _ (by decide))

theorem notMem_tail_iff {rest : List UInt8} (first : rest.head? ≠ some slash) :
    slash ∉ rest.tail ↔ slash ∉ rest := by
  cases rest with
  | nil => exact Iff.rfl
  | cons byte rest =>
      have differ : slash ≠ byte := fun equal => first (congrArg some equal.symm)
      rw [List.tail_cons, List.mem_cons, or_iff_right differ]

theorem baseOf_eq {rest : List UInt8} (first : rest.head? ≠ some slash) :
    baseOf rest = if rest ≠ [] ∧ slash ∉ rest then some rest else none := by
  simp only [baseOf, if_neg first, notMem_tail_iff first]

theorem baseOf_slash {rest : List UInt8} (first : rest.head? ≠ some slash) :
    baseOf (slash :: rest) = if rest ≠ [] ∧ slash ∉ rest then some rest else none := by
  simp only [baseOf, List.head?_cons, if_true, List.tail_cons, notMem_tail_iff first]

/-- A name that does not go on beside the directory is taken for a child where it is one. -/
theorem childBaseName_eq_componentOf {memory : Nat → UInt8} {directoryName name : String}
    (path : PathName (name.bytes memory))
    (apart : ¬ Beside (directoryName.bytes memory) (name.bytes memory)) :
    (childBaseName memory directoryName name).map (String.bytes memory) =
      componentOf (directoryName.bytes memory) (name.bytes memory) := by
  by_cases before : directoryName.bytes memory <+: name.bytes memory
  · obtain ⟨rest, split⟩ := before
    rw [childBaseName_of_append split.symm]
    rw [← split] at path apart ⊢
    by_cases first : rest.head? = some slash
    · obtain ⟨further, rfl⟩ := List.head?_eq_some_iff.mp first
      rw [baseOf_slash path.rest.2, componentOf_append]
    · rw [baseOf_eq first, componentOf_eq_none first, if_neg fun both => apart ⟨rest, rfl, both⟩]
  · rw [childBaseName_eq_none before]
    cases found : componentOf (directoryName.bytes memory) (name.bytes memory) with
    | none => rfl
    | some component => exact absurd ⟨_, (componentOf_eq_some.mp found).1.symm⟩ before

/-- A name that goes on beside the directory is taken for a child, and is none. -/
theorem childBaseName_beside {memory : Nat → UInt8} {directoryName name : String}
    (beside : Beside (directoryName.bytes memory) (name.bytes memory)) :
    (∃ baseName, childBaseName memory directoryName name = some baseName) ∧
      componentOf (directoryName.bytes memory) (name.bytes memory) = none := by
  obtain ⟨rest, split, filled, free⟩ := beside
  have first : rest.head? ≠ some slash := fun first => free (List.mem_of_mem_head? first)
  have taken := childBaseName_of_append split
  rw [baseOf_eq first, if_pos ⟨filled, free⟩] at taken
  obtain ⟨baseName, made, _⟩ := Option.map_eq_some_iff.mp taken
  rw [split]
  exact ⟨⟨baseName, made⟩, componentOf_eq_none first⟩

theorem listing_view (memory : Nat → UInt8) (entries : List InitramfsEntry)
    (directoryEntry : InitramfsEntry) :
    (listing memory entries directoryEntry).map (FileNode.view memory) =
      entries.zipIdx.filterMap fun place =>
        ((childBaseName memory directoryEntry.name place.1.name).map
          (String.bytes memory)).map fun component => (component, place.1.type, some place.2) := by
  rw [listing, List.map_filterMap]
  congr 1
  funext place
  simp only [Option.map_map]
  rfl

/-- The listing is the one by the path names if and only if no name goes on beside the
    directory. -/
theorem listing_view_iff {memory : Nat → UInt8} {entries : List InitramfsEntry}
    (paths : ∀ entry ∈ entries, PathName (entry.name.bytes memory))
    (directoryEntry : InitramfsEntry) :
    (listing memory entries directoryEntry).map (FileNode.view memory) =
      pathChildren memory entries directoryEntry ↔
      ∀ entry ∈ entries, ¬ Beside (directoryEntry.name.bytes memory) (entry.name.bytes memory) := by
  constructor
  · intro same entry member beside
    obtain ⟨i, here⟩ := List.mem_iff_getElem?.mp member
    obtain ⟨⟨baseName, made⟩, none⟩ := childBaseName_beside beside
    have listed : makeChild entries entry i baseName ∈ listing memory entries directoryEntry :=
      List.mem_filterMap.mpr ⟨(entry, i), List.mk_mem_zipIdx_iff_getElem?.mpr here,
        by simp only [made]; rfl⟩
    have viewed := List.mem_map_of_mem (f := FileNode.view memory) listed
    rw [same, pathChildren, List.mem_filterMap] at viewed
    -- The child keeps the index of its entry, so that no other entry can have made it.
    obtain ⟨⟨other, j⟩, place, result⟩ := viewed
    obtain ⟨component, found, equal⟩ := Option.map_eq_some_iff.mp result
    obtain rfl : j = i := Option.some.inj (congrArg (fun view => view.2.2) equal)
    obtain rfl := Option.some.inj ((List.mk_mem_zipIdx_iff_getElem?.mp place).symm.trans here)
    rw [none] at found
    cases found
  · intro apart
    rw [listing_view, pathChildren]
    refine List.filterMap_congr ?_
    rintro ⟨entry, i⟩ member
    have inside := List.fst_mem_of_mem_zipIdx member
    simp only [childBaseName_eq_componentOf (paths entry inside) (apart entry inside)]

/-- The children of the node in the file system. -/
def childrenOf (store : Store FileNode) (directory : Nat × Nat) : List FileNode :=
  (store.read directory).elim [] fun node => node.children.contents store

/-- `populateDirectory` on a fresh node lists the children that the directory has by the path
    names if and only if no name goes on beside the one of the directory. -/
theorem populateDirectory_exact_iff (memory : Nat → UInt8) (entries : List InitramfsEntry)
    (paths : ∀ entry ∈ entries, PathName (entry.name.bytes memory)) (d : Nat)
    (directoryEntry : InitramfsEntry) (member : entries[d]? = some directoryEntry)
    (store : Store FileNode) (directory : Nat × Nat) (node : FileNode)
    (live : store.read directory = some node) (of : node.node = some d)
    (fresh : node.children = {}) :
    (∃ store', populateDirectory memory entries directory store = some store' ∧
        (childrenOf store' directory).map (FileNode.view memory) =
          pathChildren memory entries directoryEntry) ↔
      ∀ entry ∈ entries, ¬ Beside (directoryEntry.name.bytes memory) (entry.name.bytes memory) := by
  have sound : node.children.Sound store := fresh ▸ Vector.sound_empty store
  have apart : node.children.data ≠ some directory.1 := by
    rw [fresh]
    nofun
  obtain ⟨store', children, result, appended⟩ :=
    populateDirectory_appended memory live of member sound apart
  have contents : childrenOf store' directory = listing memory entries directoryEntry := by
    rw [childrenOf, appended.read live, Option.elim_some, appended.contents, fresh]
    rfl
  rw [← listing_view_iff paths directoryEntry, ← contents, result]
  constructor
  · rintro ⟨_, same, exact⟩
    obtain rfl := Option.some.inj same
    exact exact
  · intro exact
    exact ⟨store', rfl, exact⟩

/-- The text `foobar/bar`. -/
def sampleText (address : Nat) : UInt8 :=
  [102, 111, 111, 98, 97, 114, 47, 98, 97, 114].getD address 0

/-- The directory `foobar` and the file `foobar/bar`. -/
def sampleEntries : List InitramfsEntry :=
  [⟨⟨0, 6⟩, .directory, 0, 0⟩, ⟨⟨0, 10⟩, .file, 0, 0⟩]

/-- A fresh node for the first entry. -/
def sampleStore : Store FileNode :=
  ⟨fun block => if block = 0 then [{ type := .directory, node := some 0 }] else [], 1⟩

theorem populateDirectory_exact_sample :
    ∃ store', populateDirectory sampleText sampleEntries (0, 0) sampleStore = some store' ∧
      (childrenOf store' (0, 0)).map (FileNode.view sampleText) =
        [([98, 97, 114], .file, some 1)] := by
  exact (populateDirectory_exact_iff sampleText sampleEntries (by decide +kernel) 0 _ rfl
    sampleStore (0, 0) _
    rfl rfl rfl).mpr (by decide +kernel)

/-- The directory `foo` lists the file `foobar` beside it as its child `bar`. -/
theorem sibling_listed :
    let entries : List InitramfsEntry := [⟨⟨0, 3⟩, .directory, 0, 0⟩, ⟨⟨0, 6⟩, .file, 0, 0⟩]
    (entries.map fun entry => entry.name.bytes sampleText).Nodup ∧
      (∀ entry ∈ entries, PathName (entry.name.bytes sampleText)) ∧
      pathChildren sampleText entries ⟨⟨0, 3⟩, .directory, 0, 0⟩ = [] ∧
      ∃ store', populateDirectory sampleText entries (0, 0) sampleStore = some store' ∧
        (childrenOf store' (0, 0)).map (FileNode.view sampleText) =
          [([98, 97, 114], .file, some 1)] := by
  exact ⟨by decide +kernel, by decide +kernel, by decide +kernel, _, rfl, by decide +kernel⟩

end Mykonos.Fs
