import Mykonos.Util.Vector
import Mathlib.Data.Nat.Basic
import Mathlib.Data.Option.Basic
import Mathlib.Order.Basic

/-! # Vectors as lists

The rest of `util::Vector`: popping, which gives memory back, the accessors of elements,
and moving a whole vector, which leaves an empty one behind. Any number of vectors on one
heap, each by its name, behave as so many lists.
-/

namespace Mykonos.Util

variable {α : Type}

/-! ## One vector -/

namespace Vector

section Operations

variable [Inhabited α]

/-- The constructor with an initial capacity, which makes a block also for none. -/
def withCapacity (initialCapacity : Nat) (store : Store α) : Vector × Store α :=
  ({ capacity := initialCapacity, data := some store.next }, store.allocate initialCapacity)

def popBack (v : Vector) (store : Store α) : α × Vector × Store α :=
  let index := v.size - 1
  let result := (v.data.bind fun data => store.read (data, index)).getD default
  let v := { v with size := index }
  if v.size * 2 ≤ v.capacity ∧ v.size > minimumVectorSize then (result, v.resize v.size store)
  else if v.size = 0 then
    (result, { v with capacity := 0, data := none }, v.data.elim store store.free)
  else (result, v, store)

/-- `operator[]`, the place of an element or null. -/
def subscript (v : Vector) (offset : Nat) : Option (Nat × Nat) :=
  if offset < v.size then v.data.map fun data => (data, offset) else none

/-- The conversion of an `Accessor` to the element. -/
def get (v : Vector) (offset : Nat) (store : Store α) : α :=
  ((v.subscript offset).bind store.read).getD default

end Operations

/-- The assignment to an `Accessor`. -/
def set (v : Vector) (offset : Nat) (value : α) (store : Store α) : Store α :=
  (v.subscript offset).elim store fun place => store.write place.1 place.2 value

/-- What is left of a vector that was moved from. -/
def movedFrom (v : Vector) : Vector := { v with data := none, capacity := 0, size := 0 }

/-- `delete[]` of the elements, if there are any. -/
def release (v : Vector) (store : Store α) : Store α := v.data.elim store store.free

/-! ### Accesses to elements

Each with the capacity of the block that it is made in. -/

def resizeAccesses (v : Vector) (newCapacity : Nat) : List (Nat × Nat) :=
  v.data.elim [] fun _ => (List.range v.size).flatMap fun i => [(i, newCapacity), (i, v.capacity)]

def pushBackAccesses [Inhabited α] (v : Vector) (store : Store α) : List (Nat × Nat) :=
  let grown := (v.makeRoom store).1
  (if v.size ≥ v.capacity then v.resizeAccesses grown.capacity else []) ++
    [(v.size, grown.capacity)]

def popBackAccesses (v : Vector) : List (Nat × Nat) :=
  let index := v.size - 1
  let rest := { v with size := index }
  (index, v.capacity) ::
    if rest.size * 2 ≤ v.capacity ∧ rest.size > minimumVectorSize then rest.resizeAccesses rest.size
    else []

/-! ### What the operations do -/

/-- A vector that replaces another on the heap. Vectors that own none of the blocks of the
    old one keep theirs. -/
structure Replaces (v : Vector) (store : Store α) (v' : Vector) (store' : Store α) : Prop where
  sound : v'.Sound store'
  next_le : store.next ≤ store'.next
  kept : ∀ other < store.next, v.data ≠ some other → store'.blocks other = store.blocks other
  owned : ∀ data, v'.data = some data → v.data = some data ∨ store.next ≤ data

variable {v v' : Vector} {store store' : Store α}

theorem Touches.replaces (touches : v.Touches store v' store') (sound : v'.Sound store') :
    v.Replaces store v' store' := by
  refine ⟨sound, touches.next_le, touches.kept, fun data held => ?_⟩
  rcases touches.owned with same | ⟨fresh, here, above⟩
  · exact .inl (same.symm.trans held)
  · rw [here, Option.some.injEq] at held
    exact .inr (held ▸ above)

theorem Sound.shorter (sound : v.Sound store) {size : Nat} (le : size ≤ v.size) :
    ({ v with size := size } : Vector).Sound store :=
  ⟨le.trans sound.size_le, sound.empty, sound.allocated⟩

theorem contents_shorter (v : Vector) (store : Store α) {size : Nat} (le : size ≤ v.size) :
    ({ v with size := size } : Vector).contents store = (v.contents store).take size := by
  rw [contents, contents]
  cases v.data with
  | none => exact List.take_nil.symm
  | some data => rw [Option.elim_some, Option.elim_some, List.take_take, Nat.min_eq_left le]

/-- The element at a valid index is that of the contents. -/
theorem Sound.get_eq [Inhabited α] (sound : v.Sound store) (offset : Nat) :
    v.get offset store = (v.contents store)[offset]?.getD default := by
  rw [sound.getElem?_contents]
  rfl

theorem Sound.withCapacity [Inhabited α] (initialCapacity : Nat) (store : Store α) :
    (withCapacity initialCapacity store).1.Sound (withCapacity initialCapacity store).2 := by
  refine ⟨Nat.zero_le _, nofun, fun data held => ?_⟩
  obtain rfl : store.next = data := Option.some.inj held
  exact ⟨Nat.lt_succ_self _,
    (congrArg List.length (store.put_self ..)).trans (List.length_replicate ..)⟩

theorem withCapacity_replaces [Inhabited α] (initialCapacity : Nat) (store : Store α) :
    ({} : Vector).Replaces store (withCapacity initialCapacity store).1
      (withCapacity initialCapacity store).2 := by
  refine ⟨Sound.withCapacity initialCapacity store, Nat.le_succ _, fun other below _ => ?_,
    fun data held => ?_⟩
  · exact store.put_of_ne _ (Nat.ne_of_lt below)
  · exact .inr (Nat.le_of_eq (Option.some.inj held))

theorem contents_withCapacity [Inhabited α] (initialCapacity : Nat) (store : Store α) :
    (withCapacity initialCapacity store).1.contents (withCapacity initialCapacity store).2 =
      [] := by
  simp only [contents, withCapacity, Option.elim_some, List.take_zero]

/-- What `pop_back` does. -/
theorem Sound.popBack [Inhabited α] (sound : v.Sound store) (filled : v.size ≠ 0) :
    ∃ v' store', v.popBack store = (v.get (v.size - 1) store, v', store') ∧
      v.Replaces store v' store' ∧ v'.contents store' = (v.contents store).dropLast := by
  have less : v.size - 1 < v.size := by omega
  have result : (v.data.bind fun data => store.read (data, v.size - 1)).getD default =
      v.get (v.size - 1) store := by
    rw [get, subscript, if_pos less, Option.bind_map]
    rfl
  have sound' := sound.shorter less.le
  have contents' : ({ v with size := v.size - 1 } : Vector).contents store =
      (v.contents store).dropLast := by
    rw [contents_shorter v store less.le, List.dropLast_eq_take, sound.contents_length]
  rw [Vector.popBack]
  dsimp only
  rw [result]
  split_ifs with half none
  · have touches := resize_touches { v with size := v.size - 1 } (v.size - 1) store
    have replaces := touches.replaces (sound'.resize le_rfl)
    exact ⟨_, _, rfl, ⟨replaces.sound, replaces.next_le, replaces.kept, replaces.owned⟩,
      sound'.contents_resize.trans contents'⟩
  · refine ⟨_, _, rfl, ⟨⟨?_, fun _ => rfl, nofun⟩, ?_, fun other _ foreign => ?_, nofun⟩, ?_⟩
    · exact none.le
    · cases v.data <;> rfl
    · cases held : v.data with
      | none => rfl
      | some data => exact store.put_of_ne _ fun equal => foreign (equal ▸ held)
    · rw [← contents', contents_shorter v store less.le, none]
      rfl
  · exact ⟨_, _, rfl, ⟨sound', le_rfl, fun _ _ _ => rfl, fun _ held => .inl held⟩, contents'⟩

/-- What an assignment to an element does. -/
theorem Sound.set (sound : v.Sound store) {offset : Nat} (below : offset < v.size) (value : α) :
    v.Replaces store v (v.set offset value store) ∧
      v.contents (v.set offset value store) = (v.contents store).set offset value := by
  have owns : v.data ≠ none := fun none => by
    have le := sound.size_le
    rw [sound.empty none] at le
    omega
  obtain ⟨data, held⟩ := Option.ne_none_iff_exists'.mp owns
  obtain ⟨handed, length⟩ := sound.allocated data held
  have place : v.subscript offset = some (data, offset) := by
    rw [subscript, if_pos below, held]
    rfl
  have written : v.set offset value store = store.write data offset value := by
    rw [Vector.set, place]
    rfl
  rw [written]
  refine ⟨⟨⟨sound.size_le, sound.empty, fun other held' => ?_⟩, le_rfl, fun other _ foreign => ?_,
    fun _ held => .inl held⟩, ?_⟩
  · obtain rfl : data = other := Option.some.inj (held.symm.trans held')
    exact ⟨handed, by simp [Store.write, length]⟩
  · exact store.put_of_ne _ fun equal => foreign (equal ▸ held)
  · rw [contents, contents, held]
    simp only [Option.elim_some, Store.write, Store.put_self, List.take_set]

theorem resizeAccesses_below (sound : v.Sound store) {newCapacity : Nat}
    (room : v.size ≤ newCapacity) :
    ∀ access ∈ v.resizeAccesses newCapacity, access.1 < access.2 := by
  have le := sound.size_le
  intro access made
  rw [resizeAccesses] at made
  cases held : v.data with
  | none => simp [held] at made
  | some data =>
      simp only [held, Option.elim_some, List.mem_flatMap, List.mem_range, List.mem_cons,
        List.not_mem_nil, or_false] at made
      obtain ⟨i, below, rfl | rfl⟩ := made
      · exact below.trans_le room
      · exact below.trans_le le

theorem pushBackAccesses_below [Inhabited α] (sound : v.Sound store) :
    ∀ access ∈ v.pushBackAccesses store, access.1 < access.2 := by
  have made : v.makeRoom store = ((v.makeRoom store).1, (v.makeRoom store).2) := rfl
  obtain ⟨-, size, room, -⟩ := sound.makeRoom made
  rw [size] at room
  intro access made
  rw [pushBackAccesses] at made
  rcases List.mem_append.mp made with moved | last
  · split_ifs at moved
    · exact resizeAccesses_below sound room.le access moved
    · cases moved
  · rw [List.mem_singleton.mp last]
    exact room

theorem popBackAccesses_below (sound : v.Sound store) (filled : v.size ≠ 0) :
    ∀ access ∈ v.popBackAccesses, access.1 < access.2 := by
  have le := sound.size_le
  intro access made
  rw [popBackAccesses] at made
  rcases List.mem_cons.mp made with rfl | moved
  · show v.size - 1 < v.capacity
    omega
  · split_ifs at moved
    · exact resizeAccesses_below (sound.shorter (Nat.sub_le ..)) le_rfl access moved
    · cases moved

end Vector

/-! ## Many vectors -/

/-- The vectors that there are by their names, what was read or popped so far, and the
    accesses to elements. -/
structure Vectors (α : Type) where
  vectors : Nat → Option Vector := fun _ => none
  store : Store α := {}
  results : List α := []
  accesses : List (Nat × Nat) := []

/-- The lists that the vectors stand for. -/
structure Lists (α : Type) where
  lists : Nat → Option (List α) := fun _ => none
  results : List α := []

inductive Op (α : Type) where
  | construct (name : Nat)
  | constructWith (name initialCapacity : Nat)
  | pushBack (name : Nat) (value : α)
  | popBack (name : Nat)
  | get (name index : Nat)
  | set (name index : Nat) (value : α)
  | moveConstruct (name other : Nat)
  | moveAssign (name other : Nat)
  deriving Repr

namespace Vectors

def put (s : Vectors α) (name : Nat) (v : Vector) (store : Store α) : Vectors α :=
  { s with vectors := Function.update s.vectors name (some v), store := store }

def log (s : Vectors α) (accesses : List (Nat × Nat)) : Vectors α :=
  { s with accesses := s.accesses ++ accesses }

def result (s : Vectors α) (value : α) : Vectors α := { s with results := s.results ++ [value] }

/-- No step when there is no such vector, the vector to construct is there already, a pop
    finds nothing, an index is not valid or a vector is assigned to itself. -/
def perform [Inhabited α] (s : Vectors α) : Op α → Option (Vectors α)
  | .construct name => if s.vectors name = none then some (s.put name {} s.store) else none
  | .constructWith name initialCapacity =>
      if s.vectors name = none then
        let (v, store) := Vector.withCapacity initialCapacity s.store
        some (s.put name v store)
      else none
  | .pushBack name value => do
      let v ← s.vectors name
      let (v', store) := v.pushBack value s.store
      return (s.put name v' store).log (v.pushBackAccesses s.store)
  | .popBack name => do
      let v ← s.vectors name
      if v.size ≠ 0 then
        let (value, v', store) := v.popBack s.store
        return ((s.put name v' store).log v.popBackAccesses).result value
      else none
  | .get name index => do
      let v ← s.vectors name
      if index < v.size then return (s.log [(index, v.capacity)]).result (v.get index s.store)
      else none
  | .set name index value => do
      let v ← s.vectors name
      if index < v.size then
        return (s.put name v (v.set index value s.store)).log [(index, v.capacity)]
      else none
  | .moveConstruct name other => do
      let v ← s.vectors other
      if s.vectors name = none then return (s.put other v.movedFrom s.store).put name v s.store
      else none
  | .moveAssign name other => do
      let old ← s.vectors name
      let v ← s.vectors other
      if name ≠ other then return (s.put other v.movedFrom s.store).put name v (old.release s.store)
      else none

end Vectors

namespace Lists

def put (r : Lists α) (name : Nat) (l : List α) : Lists α :=
  { r with lists := Function.update r.lists name (some l) }

def result (r : Lists α) (value : α) : Lists α := { r with results := r.results ++ [value] }

def perform [Inhabited α] (r : Lists α) : Op α → Option (Lists α)
  | .construct name => if r.lists name = none then some (r.put name []) else none
  | .constructWith name _ => if r.lists name = none then some (r.put name []) else none
  | .pushBack name value => do
      let l ← r.lists name
      return r.put name (l ++ [value])
  | .popBack name => do
      let l ← r.lists name
      if l ≠ [] then return (r.put name l.dropLast).result (l.getLast?.getD default) else none
  | .get name index => do
      let l ← r.lists name
      if index < l.length then return r.result (l[index]?.getD default) else none
  | .set name index value => do
      let l ← r.lists name
      if index < l.length then return r.put name (l.set index value) else none
  | .moveConstruct name other => do
      let l ← r.lists other
      if r.lists name = none then return (r.put other []).put name l else none
  | .moveAssign name other => do
      let _ ← r.lists name
      let l ← r.lists other
      if name ≠ other then return (r.put other []).put name l else none

end Lists

/-- The vectors have the contents of the lists, in blocks of their own. -/
structure Follows (s : Vectors α) (r : Lists α) : Prop where
  contents : ∀ name, r.lists name = (s.vectors name).map fun v => v.contents s.store
  sound : ∀ name v, s.vectors name = some v → v.Sound s.store
  apart : ∀ name other v w data, s.vectors name = some v → s.vectors other = some w →
    v.data = some data → w.data = some data → name = other
  results : s.results = r.results
  accesses : ∀ access ∈ s.accesses, access.1 < access.2

namespace Follows

variable {s : Vectors α} {r : Lists α}

theorem lists_eq_none (follows : Follows s r) {name : Nat} :
    r.lists name = none ↔ s.vectors name = none := by
  rw [follows.contents, Option.map_eq_none_iff]

theorem log (follows : Follows s r) {accesses : List (Nat × Nat)}
    (below : ∀ access ∈ accesses, access.1 < access.2) :
    Follows (s.log accesses) r := by
  refine ⟨follows.contents, follows.sound, follows.apart, follows.results, fun access made => ?_⟩
  rcases List.mem_append.mp made with old | new
  · exact follows.accesses access old
  · exact below access new

theorem result (follows : Follows s r) (value : α) : Follows (s.result value) (r.result value) := by
  refine ⟨follows.contents, follows.sound, follows.apart, ?_, follows.accesses⟩
  rw [Vectors.result, Lists.result, follows.results]

/-- A vector is put in a place, and the blocks of the vectors in other places are not
    touched. -/
theorem put (follows : Follows s r) {name : Nat} {v : Vector} {store : Store α}
    (sound : v.Sound store) (next_le : s.store.next ≤ store.next)
    (kept : ∀ other w data, other ≠ name → s.vectors other = some w → w.data = some data →
      store.blocks data = s.store.blocks data)
    (owned : ∀ other w data, other ≠ name → s.vectors other = some w → w.data = some data →
      v.data ≠ some data) :
    Follows (s.put name v store) (r.put name (v.contents store)) := by
  have others : ∀ other w, other ≠ name → s.vectors other = some w →
      w.Sound store ∧ w.contents store = w.contents s.store := by
    intro other w differ found
    have before := follows.sound other w found
    refine ⟨⟨before.size_le, before.empty, fun data held => ?_⟩, ?_⟩
    · rw [kept other w data differ found held]
      exact ⟨(before.allocated data held).1.trans_le next_le, (before.allocated data held).2⟩
    · rw [Vector.contents, Vector.contents]
      cases held : w.data with
      | none => rfl
      | some data => rw [Option.elim_some, Option.elim_some, kept other w data differ found held]
  refine ⟨fun other => ?_, fun other w found => ?_,
    fun first second w w' data found found' held held' => ?_, follows.results, follows.accesses⟩
  · by_cases same : other = name
    · subst same
      simp [Vectors.put, Lists.put]
    · simp only [Vectors.put, Lists.put, Function.update_of_ne same, follows.contents]
      refine Option.map_congr fun w found => ?_
      exact (others other w same found).2.symm
  · by_cases same : other = name
    · subst same
      simp only [Vectors.put, Function.update_self, Option.some.injEq] at found
      exact found ▸ sound
    · simp only [Vectors.put, Function.update_of_ne same] at found
      exact (others other w same found).1
  · by_cases one : first = name
    · by_cases two : second = name
      · exact one.trans two.symm
      · simp only [Vectors.put, one, Function.update_self, Option.some.injEq] at found
        simp only [Vectors.put, Function.update_of_ne two] at found'
        exact absurd (found ▸ held) (owned second w' data two found' held')
    · by_cases two : second = name
      · simp only [Vectors.put, two, Function.update_self, Option.some.injEq] at found'
        simp only [Vectors.put, Function.update_of_ne one] at found
        exact absurd (found' ▸ held') (owned first w data one found held)
      · simp only [Vectors.put, Function.update_of_ne one, Function.update_of_ne two]
          at found found'
        exact follows.apart first second w w' data found found' held held'

/-- A vector is put in the place of one whose block no other vector has. -/
theorem replace (follows : Follows s r) {name : Nat} {v v' : Vector} {store' : Store α}
    (foreign : ∀ other w data, other ≠ name → s.vectors other = some w → w.data = some data →
      v.data ≠ some data)
    (replaces : v.Replaces s.store v' store') :
    Follows (s.put name v' store') (r.put name (v'.contents store')) := by
  have handed : ∀ other w data, s.vectors other = some w → w.data = some data →
      data < s.store.next :=
    fun other w data found held => ((follows.sound other w found).allocated data held).1
  refine follows.put replaces.sound replaces.next_le (fun other w data differ found held => ?_)
    (fun other w data differ found held same => ?_)
  · exact replaces.kept data (handed other w data found held)
      (foreign other w data differ found held)
  · rcases replaces.owned data same with old | new
    · exact foreign other w data differ found held old
    · exact Nat.not_lt.mpr new (handed other w data found held)

/-- No other vector has the block of one that is there. -/
theorem foreign (follows : Follows s r) {name : Nat} {v : Vector} (here : s.vectors name = some v) :
    ∀ other w data, other ≠ name → s.vectors other = some w → w.data = some data →
    v.data ≠ some data :=
  fun other w data differ found held same =>
    differ (follows.apart other name w v data found here held same)

/-- A vector that owns nothing is put in a place. -/
theorem put_empty (follows : Follows s r) (name : Nat) :
    Follows (s.put name {} s.store) (r.put name []) :=
  follows.put (Vector.sound_empty s.store) le_rfl (fun _ _ _ _ _ _ => rfl) fun _ _ _ _ _ _ => nofun

/-- A vector is moved to another place, which has given up its block. -/
theorem move (follows : Follows s r) {name other : Nat} {v : Vector} {store : Store α}
    (here : s.vectors other = some v) (next : store.next = s.store.next)
    (kept : ∀ third w data, third ≠ name → s.vectors third = some w → w.data = some data →
      store.blocks data = s.store.blocks data)
    (differ : name ≠ other) :
    Follows ((s.put other v.movedFrom s.store).put name v store)
      ((r.put other []).put name (v.contents s.store)) := by
  have emptied : ∀ third w data, (s.put other v.movedFrom s.store).vectors third = some w →
    w.data = some data →
      third ≠ other ∧ s.vectors third = some w := by
    intro third w data found held
    by_cases same : third = other
    · simp only [Vectors.put, same, Function.update_self, Option.some.injEq] at found
      rw [← found] at held
      cases held
    · simp only [Vectors.put, Function.update_of_ne same] at found
      exact ⟨same, found⟩
  have before := follows.sound other v here
  have blocks : ∀ data, v.data = some data → store.blocks data = s.store.blocks data :=
    fun data held => kept other v data differ.symm here held
  have contents : v.contents store = v.contents s.store := by
    rw [Vector.contents, Vector.contents]
    cases held : v.data with
    | none => rfl
    | some data => rw [Option.elim_some, Option.elim_some, blocks data held]
  rw [← contents]
  refine (follows.put_empty other).put ⟨before.size_le, before.empty, fun data held => ?_⟩ next.ge
    (fun third w data apart found held => ?_) (fun third w data apart found held same => ?_)
  · rw [next, blocks data held]
    exact before.allocated data held
  · exact kept third w data apart (emptied third w data found held).2 held
  · obtain ⟨foreign, found⟩ := emptied third w data found held
    exact foreign (follows.apart third other w v data found here held same)

/-- Both sides fail when there is no such vector. -/
theorem bind (follows : Follows s r) {name : Nat} {f : Vector → Option (Vectors α)}
    {g : List α → Option (Lists α)}
    (rest : ∀ v, s.vectors name = some v → Option.Rel Follows (f v) (g (v.contents s.store))) :
    Option.Rel Follows (s.vectors name >>= f) (r.lists name >>= g) := by
  rw [follows.contents]
  cases here : s.vectors name with
  | none => exact .none
  | some v => exact rest v here

/-- Both sides check the same. -/
theorem guarded {P Q : Prop} [Decidable P] [Decidable Q] (same : P ↔ Q) {s' : Vectors α}
    {r' : Lists α} (follows : P → Follows s' r') :
    Option.Rel Follows (if P then some s' else none) (if Q then some r' else none) := by
  by_cases holds : P
  · rw [if_pos holds, if_pos (same.mp holds)]
    exact .some (follows holds)
  · rw [if_neg holds, if_neg fun other => holds (same.mpr other)]
    exact .none

variable [Inhabited α]

theorem pushBack (follows : Follows s r) {name : Nat} {v : Vector}
    (here : s.vectors name = some v) (value : α) :
    Follows ((s.put name (v.pushBack value s.store).1 (v.pushBack value s.store).2).log
      (v.pushBackAccesses s.store)) (r.put name (v.contents s.store ++ [value])) := by
  have sound := follows.sound name v here
  obtain ⟨sound', contents', touches⟩ := sound.pushBack value rfl
  have next := follows.replace (follows.foreign here) (touches.replaces sound')
  rw [contents'] at next
  exact next.log (Vector.pushBackAccesses_below sound)

theorem popBack (follows : Follows s r) {name : Nat} {v : Vector} (here : s.vectors name = some v)
    (filled : v.size ≠ 0) :
    Follows
      (((s.put name (v.popBack s.store).2.1 (v.popBack s.store).2.2).log v.popBackAccesses).result
        (v.popBack s.store).1)
      ((r.put name (v.contents s.store).dropLast).result
        ((v.contents s.store).getLast?.getD default)) := by
  have sound := follows.sound name v here
  obtain ⟨v', store', popped, replaces, contents'⟩ := sound.popBack filled
  have next := follows.replace (follows.foreign here) replaces
  rw [contents'] at next
  have last : v.get (v.size - 1) s.store = (v.contents s.store).getLast?.getD default := by
    rw [sound.get_eq, List.getLast?_eq_getElem?, sound.contents_length]
  rw [popped, last]
  exact (next.log (Vector.popBackAccesses_below sound filled)).result _

/-- Every step of the vectors is the one of the lists. -/
theorem perform (follows : Follows s r) (op : Op α) :
    Option.Rel Follows (s.perform op) (r.perform op) := by
  cases op with
  | construct name =>
      exact guarded follows.lists_eq_none.symm fun _ => follows.put_empty name
  | constructWith name initialCapacity =>
      refine guarded follows.lists_eq_none.symm fun _ => ?_
      have foreign : ∀ third w data, third ≠ name → s.vectors third = some w → w.data = some data →
          ({} : Vector).data ≠ some data := fun _ _ _ _ _ _ => nofun
      have next := follows.replace foreign (Vector.withCapacity_replaces initialCapacity s.store)
      rwa [Vector.contents_withCapacity] at next
  | pushBack name value => exact follows.bind fun v here => .some (follows.pushBack here value)
  | popBack name =>
      refine follows.bind fun v here => guarded ?_ fun filled => follows.popBack here filled
      rw [← (follows.sound name v here).contents_length, ne_eq, ne_eq, List.length_eq_zero_iff]
  | get name index =>
      refine follows.bind fun v here => guarded ?_ fun below => ?_
      · rw [(follows.sound name v here).contents_length]
      · have sound := follows.sound name v here
        rw [sound.get_eq]
        exact (follows.log fun access made => List.mem_singleton.mp made ▸
          below.trans_le sound.size_le).result _
  | set name index value =>
      refine follows.bind fun v here => guarded ?_ fun below => ?_
      · rw [(follows.sound name v here).contents_length]
      · have sound := follows.sound name v here
        obtain ⟨replaces, contents'⟩ := sound.set below value
        rw [← contents']
        exact (follows.replace (follows.foreign here) replaces).log fun access made =>
          List.mem_singleton.mp made ▸ below.trans_le sound.size_le
  | moveConstruct name other =>
      refine follows.bind fun v here => guarded follows.lists_eq_none.symm fun free => ?_
      refine follows.move here rfl (fun _ _ _ _ _ _ => rfl) fun same => ?_
      rw [same, here] at free
      cases free
  | moveAssign name other =>
      refine follows.bind fun old there => follows.bind fun v here =>
        guarded Iff.rfl fun differ => ?_
      refine follows.move here ?_ (fun third w data apart found held => ?_) differ
      · rw [Vector.release]
        cases old.data <;> rfl
      · rw [Vector.release]
        cases owned : old.data with
        | none => rfl
        | some block =>
            have foreign := follows.foreign there third w data apart found held
            rw [owned, ne_eq, Option.some.injEq] at foreign
            exact Store.put_of_ne _ _ (Ne.symm foreign)

end Follows

theorem follows_empty : Follows ({} : Vectors α) {} :=
  ⟨fun _ => rfl, nofun, nofun, rfl, nofun⟩

/-! ## Runs -/

section Runs

variable [Inhabited α]

def Vectors.run (ops : List (Op α)) : Option (Vectors α) := ops.foldlM Vectors.perform {}

def Lists.run (ops : List (Op α)) : Option (Lists α) := ops.foldlM Lists.perform {}

/-- What can be seen of the vectors is what the lists say. -/
structure Represents (s : Vectors α) (r : Lists α) : Prop where
  names : ∀ name, s.vectors name = none ↔ r.lists name = none
  size : ∀ name v l, s.vectors name = some v → r.lists name = some l → v.size = l.length
  elements : ∀ name v l, s.vectors name = some v → r.lists name = some l →
    ∀ index (below : index < l.length), v.get index s.store = l[index]
  capacity : ∀ name v, s.vectors name = some v → v.size ≤ v.capacity
  results : s.results = r.results
  accesses : ∀ access ∈ s.accesses, access.1 < access.2

variable {s s' : Vectors α} {r : Lists α}

theorem Follows.represents (follows : Follows s r) : Represents s r := by
  have listed : ∀ name v l, s.vectors name = some v → r.lists name = some l →
      v.contents s.store = l := by
    intro name v l here there
    rw [follows.contents, here] at there
    exact Option.some.inj there
  refine ⟨fun name => follows.lists_eq_none.symm, fun name v l here there => ?_,
    fun name v l here there index below => ?_, fun name v here =>
      (follows.sound name v here).size_le, follows.results,
    follows.accesses⟩
  · rw [← listed name v l here there, (follows.sound name v here).contents_length]
  · rw [(follows.sound name v here).get_eq, listed name v l here there,
      List.getElem?_eq_getElem below]
    rfl

theorem Follows.run (follows : Follows s r) (ops : List (Op α)) :
    Option.Rel Follows (ops.foldlM Vectors.perform s) (ops.foldlM Lists.perform r) := by
  induction ops generalizing s r with
  | nil => exact .some follows
  | cons op ops ih =>
      rw [List.foldlM_cons, List.foldlM_cons]
      have step := follows.perform op
      generalize s.perform op = first at step
      generalize r.perform op = second at step
      cases step with
      | none => exact .none
      | some next => exact ih next

omit [Inhabited α] in
theorem put_put_other {name other : Nat} {v : Vector} {store : Store α} (differ : other ≠ name) :
    ((s.put other v.movedFrom s.store).put name v store).vectors other = some {} := by
  simp only [Vectors.put, Function.update_of_ne differ, Function.update_self]
  rfl

/-- Nothing is left of a vector that was moved from. -/
theorem moved_empty {name other : Nat}
    (moved : s.perform (.moveConstruct name other) =
      some s' ∨ s.perform (.moveAssign name other) = some s') :
    s'.vectors other = some {} := by
  rcases moved with constructed | assigned
  · cases here : s.vectors other with
    | none => simp [Vectors.perform, here] at constructed
    | some v =>
        by_cases free : s.vectors name = none
        · have differ : other ≠ name := fun same => by simp [← same, here] at free
          simp only [Vectors.perform, here, Option.bind_eq_bind, Option.bind_some, free, if_true,
            Option.pure_def, Option.some.injEq] at constructed
          exact constructed ▸ put_put_other differ
        · simp [Vectors.perform, here, free] at constructed
  · cases there : s.vectors name with
    | none => simp [Vectors.perform, there] at assigned
    | some old =>
        cases here : s.vectors other with
        | none => simp [Vectors.perform, here] at assigned
        | some v =>
            by_cases differ : name ≠ other
            · simp only [Vectors.perform, here, there, Option.bind_eq_bind, Option.bind_some,
                differ, ne_eq, not_false_eq_true, if_true, Option.pure_def,
                Option.some.injEq] at assigned
              exact assigned ▸ put_put_other (Ne.symm differ)
            · simp [Vectors.perform, here, there, differ] at assigned

/-- Whatever is done with vectors, they are lists, and stay in the blocks that they have. -/
theorem vectors_are_lists (ops : List (Op α)) :
    Option.Rel Represents (Vectors.run ops) (Lists.run ops) ∧
    ∀ (s s' : Vectors α) (name other : Nat),
      s.perform (.moveConstruct name other) = some s' ∨
      s.perform (.moveAssign name other) = some s' → s'.vectors other = some {} := by
  refine ⟨?_, fun s s' name other => moved_empty⟩
  have follows := follows_empty.run ops
  rw [← Vectors.run, ← Lists.run] at follows
  generalize Vectors.run ops = first at follows
  generalize Lists.run ops = second at follows
  cases follows with
  | none => exact .none
  | some next => exact .some next.represents

end Runs

/-- The start of the test of the source. -/
example :
    ((Vectors.run [.construct 0, .pushBack 0 17, .pushBack 0 23, .popBack 0, .popBack 0,
      .pushBack 0 27,
    .moveConstruct 1 0, .get 1 0]).map (·.results)) = some [23, 17, 27] := by decide

end Mykonos.Util
