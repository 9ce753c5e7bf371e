import Mathlib.Algebra.Group.Nat.Defs
import Mathlib.Logic.Function.Basic
import Mathlib.Tactic.Common

/-! # Vectors

`util::Vector` with the blocks of the heap that its elements live in, so that an element
has a position and a growing vector moves its elements to a new block. Pushing appends to
the contents, and touches no block but the one of the vector.
-/

namespace Mykonos.Util

/-- The arrays on the heap by their pointers, of which `next` and those above it have not
    been handed out. -/
structure Store (α : Type) where
  blocks : Nat → List α := fun _ => []
  next : Nat := 0

namespace Store

variable {α : Type}

def put (store : Store α) (data : Nat) (cells : List α) : Store α :=
  { store with blocks := Function.update store.blocks data cells }

/-- `new T[count]`. -/
def allocate [Inhabited α] (store : Store α) (count : Nat) : Store α :=
  { store.put store.next (List.replicate count default) with next := store.next + 1 }

/-- `delete[]`. -/
def free (store : Store α) (data : Nat) : Store α :=
  store.put data []

def write (store : Store α) (data index : Nat) (value : α) : Store α :=
  store.put data ((store.blocks data).set index value)

/-- `util::move` of `n` elements. -/
def move (store : Store α) (dst src n : Nat) : Store α :=
  store.put dst ((store.blocks src).take n ++ (store.blocks dst).drop n)

/-- What a pointer to an element points to. -/
def read (store : Store α) (place : Nat × Nat) : Option α :=
  if place.1 < store.next then (store.blocks place.1)[place.2]? else none

def modify (store : Store α) (place : Nat × Nat) (f : α → α) : Store α :=
  store.put place.1 ((store.blocks place.1).modify place.2 f)

variable (store : Store α)

@[simp] theorem put_next (data : Nat) (cells : List α) : (store.put data cells).next = store.next :=
  rfl

@[simp] theorem put_self (data : Nat) (cells : List α) :
    (store.put data cells).blocks data = cells :=
  Function.update_self ..

theorem put_of_ne {data other : Nat} (cells : List α) (differ : other ≠ data) :
    (store.put data cells).blocks other = store.blocks other :=
  Function.update_of_ne differ ..

/-- The property holds of every element on the heap. -/
def All (P : α → Prop) (store : Store α) : Prop :=
  ∀ data, ∀ x ∈ store.blocks data, P x

theorem All.put {P : α → Prop} {store : Store α} (all : store.All P) {data : Nat} {cells : List α}
    (new : ∀ x ∈ cells, P x) : (store.put data cells).All P := by
  intro other x member
  by_cases equal : other = data
  · rw [equal, put_self] at member
    exact new x member
  · rw [put_of_ne store cells equal] at member
    exact all other x member

theorem All.modify {P : α → Prop} {store : Store α} (all : store.All P) {f : α → α}
    (keeps : ∀ x, P x → P (f x)) (place : Nat × Nat) : (store.modify place f).All P := by
  refine All.put all fun x member => ?_
  obtain ⟨j, here⟩ := List.mem_iff_getElem?.mp member
  rw [List.getElem?_modify] at here
  obtain ⟨y, old, rfl⟩ := Option.map_eq_some_iff.mp here
  have holds := all place.1 y (List.mem_of_getElem? old)
  split
  · exact keeps y holds
  · exact holds

theorem All.read {P : α → Prop} {store : Store α} (all : store.All P)
    {place : Nat × Nat} {value : α} (live : store.read place = some value) : P value := by
  rw [Store.read, Option.ite_none_right_eq_some] at live
  exact all place.1 value (List.mem_of_getElem? live.2)

theorem mem_put {data other : Nat} {cells : List α} {x : α}
    (member : x ∈ (store.put data cells).blocks other) :
    x ∈ cells ∨ x ∈ store.blocks other := by
  by_cases equal : other = data
  · rw [equal, put_self] at member
    exact .inl member
  · rw [put_of_ne store cells equal] at member
    exact .inr member

theorem mem_write {data index other : Nat} {value x : α}
    (member : x ∈ (store.write data index value).blocks other) :
    x = value ∨ x ∈ store.blocks data ∨ x ∈ store.blocks other := by
  rcases store.mem_put member with written | kept
  · rcases List.mem_or_eq_of_mem_set written with old | new
    · exact .inr (.inl old)
    · exact .inl new
  · exact .inr (.inr kept)

theorem getElem?_modify (place : Nat × Nat) (f : α → α) (data index : Nat) :
    ((store.modify place f).blocks data)[index]? =
      if (data, index) = place then ((store.blocks data)[index]?).map f
      else (store.blocks data)[index]? := by
  obtain ⟨block, i⟩ := place
  rw [modify]
  by_cases same : data = block
  · subst same
    rw [put_self, List.getElem?_modify]
    by_cases here : i = index
    · subst here
      rw [if_pos rfl]
      cases (store.blocks data)[i]? with
      | none => rfl
      | some x => simp
    · rw [if_neg fun equal => here (congrArg Prod.snd equal).symm]
      cases (store.blocks data)[index]? with
      | none => rfl
      | some x => simp [here]
  · rw [put_of_ne store _ same, if_neg fun equal => same (congrArg Prod.fst equal)]

/-- Stores with the same elements at the same places are the same. -/
theorem eq_of_getElem? {first second : Store α} (next : first.next = second.next)
    (same : ∀ data (index : Nat), (first.blocks data)[index]? = (second.blocks data)[index]?) :
    first = second := by
  obtain ⟨blocks, bound⟩ := first
  obtain ⟨blocks', bound'⟩ := second
  obtain rfl : bound = bound' := next
  congr 1
  funext data
  exact List.ext_getElem? (same data)

theorem modify_congr {place : Nat × Nat} {f g : α → α} {value : α}
    (live : store.read place = some value) (same : f value = g value) :
    store.modify place f = store.modify place g := by
  obtain ⟨_, here⟩ := (Option.ite_none_right_eq_some.mp live)
  refine eq_of_getElem? rfl fun data index => ?_
  rw [getElem?_modify, getElem?_modify]
  split
  · rename_i equal
    subst equal
    rw [here, Option.map_some, Option.map_some, same]
  · rfl

/-- A change is undone. -/
theorem modify_undo {P : α → Prop} {store : Store α} (all : store.All P) {f g : α → α}
    (undone : ∀ x, P x → g (f x) = x) (place : Nat × Nat) :
    (store.modify place f).modify place g = store := by
  refine eq_of_getElem? rfl fun data index => ?_
  rw [getElem?_modify, getElem?_modify]
  cases cell : (store.blocks data)[index]? with
  | none => simp only [Option.map_none, ite_self]
  | some x =>
      split
      · rw [Option.map_some, Option.map_some, undone x (all data x (List.mem_of_getElem? cell))]
      · rfl

/-- A change is undone after another one, which may be at the same place. -/
theorem modify_undo_after {P : α → Prop} {store : Store α} (all : store.All P) {f g h : α → α}
    (undone : ∀ x, P x → g (f x) = x) (commuted : ∀ x, P x → g (h (f x)) = h x)
    (place other : Nat × Nat) :
    ((store.modify place f).modify other h).modify place g = store.modify other h := by
  refine eq_of_getElem? rfl fun data index => ?_
  rw [getElem?_modify, getElem?_modify, getElem?_modify, getElem?_modify]
  cases cell : (store.blocks data)[index]? with
  | none => simp only [Option.map_none, ite_self]
  | some x =>
      have holds := all data x (List.mem_of_getElem? cell)
      by_cases first : (data, index) = place
      · by_cases second : (data, index) = other
        · simp only [if_pos first, if_pos second, Option.map_some, commuted x holds]
        · simp only [if_pos first, if_neg second, Option.map_some, undone x holds]
      · simp only [if_neg first]

theorem read_eq_some {place : Nat × Nat} {value : α} :
    store.read place = some value ↔ place.1 < store.next ∧ (store.blocks place.1)[place.2]? =
      some value := by
  rw [read, Option.ite_none_right_eq_some]

theorem read_put_of_ne {place : Nat × Nat} {data : Nat} (cells : List α) (differ : place.1 ≠ data) :
    (store.put data cells).read place = store.read place := by
  rw [read, read, put_next, put_of_ne store cells differ]

theorem read_modify (place other : Nat × Nat) (f : α → α) :
    (store.modify place f).read other =
      if other = place then (store.read place).map f else store.read other := by
  by_cases block : other.1 = place.1
  · rw [read, read, read, modify, put_next, block, put_self, List.getElem?_modify]
    by_cases index : place.2 = other.2
    · obtain rfl : other = place := Prod.ext block index.symm
      rw [if_pos rfl]
      split
      · simp
      · rfl
    · have differ : other ≠ place := fun equal => index (congrArg Prod.snd equal.symm)
      rw [if_neg differ]
      simp [index]
  · have differ : other ≠ place := fun equal => block (congrArg Prod.fst equal)
    rw [modify, read_put_of_ne store _ block, if_neg differ]

end Store

/-- `MINIMUM_VECTOR_SIZE`. -/
abbrev minimumVectorSize : Nat := 16

structure Vector where
  capacity : Nat := 0
  size : Nat := 0
  data : Option Nat := none
  deriving Repr, DecidableEq

namespace Vector

variable {α : Type}

section Operations

variable [Inhabited α]

def resize (v : Vector) (newCapacity : Nat) (store : Store α) : Vector × Store α :=
  let newData := store.next
  let allocated := store.allocate newCapacity
  let moved := v.data.elim allocated fun data => (allocated.move newData data v.size).free data
  ({ v with capacity := newCapacity, data := some newData }, moved)

/-- The first half of `push_back`. -/
def makeRoom (v : Vector) (store : Store α) : Vector × Store α :=
  if v.size ≥ v.capacity then
    v.resize (if v.capacity < minimumVectorSize then minimumVectorSize else v.capacity * 2) store
  else (v, store)

def pushBack (v : Vector) (value : α) (store : Store α) : Vector × Store α :=
  let (v, store) := v.makeRoom store
  ({ v with size := v.size + 1 }, v.data.elim store fun data => store.write data v.size value)

end Operations

/-- The elements below the size, in order. -/
def contents (v : Vector) (store : Store α) : List α :=
  v.data.elim [] fun data => (store.blocks data).take v.size

/-- The vector owns a block of its capacity, or none. -/
structure Sound (v : Vector) (store : Store α) : Prop where
  size_le : v.size ≤ v.capacity
  empty : v.data = none → v.capacity = 0
  allocated : ∀ data, v.data = some data →
    data < store.next ∧ (store.blocks data).length = v.capacity

/-- What an operation on a vector may do to the heap: it writes to the block of the vector,
    or to one that it has handed out. -/
structure Touches (v : Vector) (store : Store α) (v' : Vector) (store' : Store α) : Prop where
  next_le : store.next ≤ store'.next
  kept : ∀ other < store.next, v.data ≠ some other → store'.blocks other = store.blocks other
  owned : v'.data = v.data ∨ ∃ data, v'.data = some data ∧ store.next ≤ data

variable {v v' v'' : Vector} {store store' store'' : Store α}

theorem sound_empty (store : Store α) : ({} : Vector).Sound store :=
  ⟨Nat.le_refl 0, fun _ => rfl, fun _ => nofun⟩

theorem Sound.contents_length (sound : v.Sound store) : (v.contents store).length = v.size := by
  have le := sound.size_le
  rw [contents]
  cases held : v.data with
  | none =>
      rw [sound.empty held] at le
      exact (Nat.le_zero.mp le).symm
  | some data =>
      rw [Option.elim_some, List.length_take, (sound.allocated data held).2, Nat.min_eq_left le]

theorem Sound.exists_data (sound : v.Sound store) (room : v.size < v.capacity) :
    ∃ data, v.data = some data := by
  cases held : v.data with
  | none =>
      rw [sound.empty held] at room
      cases room
  | some data => exact ⟨data, rfl⟩

/-- An element is read where it lies in the block. -/
theorem Sound.getElem?_contents (sound : v.Sound store) (index : Nat) :
    (v.contents store)[index]? =
      (if index < v.size then v.data.map fun data => (data, index) else none).bind store.read := by
  rw [contents]
  cases held : v.data with
  | none =>
      rw [Option.elim_none, Option.map_none, ite_self]
      rfl
  | some data =>
      rw [Option.elim_some, List.getElem?_take, Option.map_some]
      split
      · rw [Option.bind_some, Store.read, if_pos (sound.allocated data held).1]
      · rfl

theorem Sound.put (sound : v.Sound store) {other : Nat} (cells : List α)
    (foreign : v.data ≠ some other) :
    v.Sound (store.put other cells) := by
  refine ⟨sound.size_le, sound.empty, fun data held => ?_⟩
  have differ : data ≠ other := fun equal => foreign (held.trans (congrArg some equal))
  rw [store.put_of_ne cells differ]
  exact sound.allocated data held

theorem contents_put {other : Nat} (cells : List α) (foreign : v.data ≠ some other) :
    v.contents (store.put other cells) = v.contents store := by
  rw [contents, contents]
  cases held : v.data with
  | none => rfl
  | some data =>
      have differ : data ≠ other := fun equal => foreign (held.trans (congrArg some equal))
      rw [Option.elim_some, Option.elim_some, store.put_of_ne cells differ]

theorem Sound.modify (sound : v.Sound store) (place : Nat × Nat) (f : α → α) :
    v.Sound (store.modify place f) := by
  refine ⟨sound.size_le, sound.empty, fun data held => ⟨(sound.allocated data held).1, ?_⟩⟩
  rw [← (sound.allocated data held).2, Store.modify]
  by_cases here : data = place.1
  · rw [here, Store.put_self, List.length_modify]
  · rw [store.put_of_ne _ here]

/-- What a change keeps of every element is kept of the contents. -/
theorem map_contents_modify {β : Type} {f : α → α} {g : α → β} (same : ∀ x, g (f x) = g x)
    (place : Nat × Nat) :
    (v.contents (store.modify place f)).map g = (v.contents store).map g := by
  rw [contents, contents]
  cases v.data with
  | none => rfl
  | some data =>
      apply List.ext_getElem?
      intro index
      simp only [Option.elim_some, List.map_take, List.getElem?_take, List.getElem?_map,
        Store.getElem?_modify]
      congr 1
      split
      · rw [Option.map_map, show g ∘ f = g from funext same]
      · rfl

theorem Touches.refl (v : Vector) (store : Store α) : v.Touches store v store :=
  ⟨Nat.le_refl _, fun _ _ _ => rfl, .inl rfl⟩

theorem Touches.trans (first : v.Touches store v' store') (second : v'.Touches store' v'' store'') :
    v.Touches store v'' store'' := by
  refine ⟨Nat.le_trans first.next_le second.next_le, fun other below foreign => ?_, ?_⟩
  · rw [second.kept other (Nat.lt_of_lt_of_le below first.next_le), first.kept other below foreign]
    rcases first.owned with same | ⟨data, held, fresh⟩
    · rwa [same]
    · rw [held, ne_eq, Option.some.injEq]
      omega
  · rcases second.owned with same | ⟨data, held, fresh⟩
    · rw [same]
      exact first.owned
    · exact .inr ⟨data, held, Nat.le_trans first.next_le fresh⟩

section Pushing

variable [Inhabited α]

theorem resize_touches (v : Vector) (newCapacity : Nat) (store : Store α) :
    v.Touches store (v.resize newCapacity store).1 (v.resize newCapacity store).2 := by
  refine ⟨?_, fun other below foreign => ?_, .inr ⟨store.next, rfl, Nat.le_refl _⟩⟩
  · rw [resize]
    cases v.data with
    | none => exact Nat.le_succ _
    | some data => exact Nat.le_succ _
  · rw [resize]
    cases held : v.data with
    | none => exact store.put_of_ne _ (Nat.ne_of_lt below)
    | some data =>
        have differ : other ≠ data := fun equal => foreign (equal ▸ held)
        simp only [Option.elim_some, Store.free, Store.move, Store.put_of_ne _ _ differ,
          Store.put_of_ne _ _ (Nat.ne_of_lt below)]
        exact store.put_of_ne _ (Nat.ne_of_lt below)

theorem resize_blocks {newCapacity : Nat} (sound : v.Sound store) :
    (v.resize newCapacity store).2.blocks store.next =
      v.contents store ++ List.replicate (newCapacity - v.size) default := by
  rw [resize, contents]
  cases held : v.data with
  | none =>
      have size : v.size = 0 := Nat.le_zero.mp (sound.empty held ▸ sound.size_le)
      rw [size]
      exact store.put_self ..
  | some data =>
      have differ : store.next ≠ data := Nat.ne_of_gt (sound.allocated data held).1
      simp only [Option.elim_some, Store.free, Store.move, Store.put_of_ne _ _ differ,
        Store.put_self]
      rw [Store.allocate]
      simp only [Store.put_self, List.drop_replicate, Store.put_of_ne _ _ (Ne.symm differ)]

theorem Sound.resize {newCapacity : Nat} (sound : v.Sound store) (room : v.size ≤ newCapacity) :
    (v.resize newCapacity store).1.Sound (v.resize newCapacity store).2 := by
  refine ⟨room, nofun, fun data held => ?_⟩
  obtain rfl : store.next = data := Option.some.inj held
  refine ⟨?_, ?_⟩
  · rw [Vector.resize]
    cases v.data with
    | none => exact Nat.lt_succ_self _
    | some data => exact Nat.lt_succ_self _
  · rw [resize_blocks sound, List.length_append, List.length_replicate, sound.contents_length,
      Nat.add_sub_cancel' room]
    rfl

theorem Sound.contents_resize {newCapacity : Nat} (sound : v.Sound store) :
    (v.resize newCapacity store).1.contents (v.resize newCapacity store).2 = v.contents store := by
  rw [contents]
  change ((v.resize newCapacity store).2.blocks store.next).take v.size = _
  rw [resize_blocks sound, List.take_left' sound.contents_length]

theorem makeRoom_touches (v : Vector) (store : Store α) :
    v.Touches store (v.makeRoom store).1 (v.makeRoom store).2 := by
  rw [makeRoom]
  split
  · exact resize_touches ..
  · exact Touches.refl v store

/-- A push writes only to the block of the vector, or to a new one. -/
theorem pushBack_touches (v : Vector) (value : α) (store : Store α) :
    v.Touches store (v.pushBack value store).1 (v.pushBack value store).2 := by
  refine (v.makeRoom_touches store).trans ?_
  rw [pushBack]
  dsimp only
  cases held : (v.makeRoom store).1.data with
  | none => exact ⟨Nat.le_refl _, fun _ _ _ => rfl, .inl held.symm⟩
  | some data =>
      refine ⟨Nat.le_refl _, fun other _ foreign => Store.put_of_ne _ _ fun equal => foreign ?_,
        .inl held.symm⟩
      rw [held, equal]

/-- There is room for one more element, and the contents are what they were. -/
theorem Sound.makeRoom (sound : v.Sound store) {v' : Vector} {store' : Store α}
    (made : v.makeRoom store = (v', store')) :
    v'.Sound store' ∧ v'.size = v.size ∧ v'.size < v'.capacity ∧ v'.contents store' =
      v.contents store := by
  rw [Vector.makeRoom] at made
  split at made
  · obtain ⟨rfl, rfl⟩ := Prod.mk.inj made
    have le := sound.size_le
    have minimum : minimumVectorSize = 16 := rfl
    have larger : v.size <
        if v.capacity < minimumVectorSize then minimumVectorSize else v.capacity * 2 := by
      split <;> omega
    exact ⟨sound.resize (Nat.le_of_lt larger), rfl, larger, sound.contents_resize⟩
  · rename_i room
    obtain ⟨rfl, rfl⟩ := Prod.mk.inj made
    exact ⟨sound, rfl, Nat.lt_of_not_le room, rfl⟩

/-- What `push_back` does. -/
theorem Sound.pushBack (sound : v.Sound store) (value : α) {v' : Vector} {store' : Store α}
    (pushed : v.pushBack value store = (v', store')) :
    v'.Sound store' ∧ v'.contents store' = v.contents store ++ [value] ∧
    v.Touches store v' store' := by
  have touches := v.pushBack_touches value store
  rw [pushed] at touches
  obtain ⟨room, grown⟩ : ∃ made, v.makeRoom store = made := ⟨_, rfl⟩
  obtain ⟨roomy, store₁⟩ := room
  obtain ⟨sound₁, size, below, contents₁⟩ := sound.makeRoom grown
  rw [Vector.pushBack, grown] at pushed
  obtain ⟨rfl, rfl⟩ := Prod.mk.inj pushed
  obtain ⟨data, held⟩ := sound₁.exists_data below
  obtain ⟨handed, length⟩ := sound₁.allocated data held
  simp only [held, Option.elim_some] at touches ⊢
  refine ⟨⟨below, nofun, fun other equal => ?_⟩, ?_, touches⟩
  · obtain rfl : data = other := Option.some.inj equal
    exact ⟨handed, by simp [Store.write, length]⟩
  · rw [← contents₁, contents, contents, held]
    simp only [Option.elim_some, Store.write, Store.put_self]
    rw [List.take_add_one, List.take_set_of_le (Nat.le_refl _),
      List.getElem?_set_self (length ▸ below)]
    rfl

/-- Where the elements on the heap are from after a vector has moved. -/
theorem mem_resize {newCapacity other : Nat} {x : α}
    (member : x ∈ (v.resize newCapacity store).2.blocks other) :
    x = default ∨ x ∈ store.blocks other ∨ ∃ data, v.data = some data ∧ x ∈ store.blocks data := by
  have allocated : ∀ {block}, x ∈ (store.allocate newCapacity).blocks block →
      x = default ∨ x ∈ store.blocks block := by
    intro block inside
    exact (Store.mem_put store inside).imp_left List.eq_of_mem_replicate
  rw [resize] at member
  cases held : v.data with
  | none =>
      rw [held] at member
      exact (allocated member).imp_right .inl
  | some data =>
      rw [held] at member
      rcases Store.mem_put _ member with none | moved
      · cases none
      · rcases Store.mem_put _ moved with written | kept
        · rcases List.mem_append.mp written with old | spare
          · rcases allocated (List.mem_of_mem_take old) with new | before
            · exact .inl new
            · exact .inr (.inr ⟨data, rfl, before⟩)
          · rw [Store.allocate, Store.put_self] at spare
            exact .inl (List.eq_of_mem_replicate (List.mem_of_mem_drop spare))
        · exact (allocated kept).imp_right .inl

/-- Where the elements on the heap are from after a push. -/
theorem mem_pushBack {value x : α} {other : Nat}
    (member : x ∈ (v.pushBack value store).2.blocks other) :
    x = value ∨ x = default ∨ x ∈ store.blocks other ∨
      ∃ data, (v.data = some data ∨ store.next ≤ data) ∧ x ∈ store.blocks data := by
  have room : ∀ {block}, x ∈ (v.makeRoom store).2.blocks block →
      x = default ∨ x ∈ store.blocks block ∨ ∃ data, v.data = some data ∧
      x ∈ store.blocks data := by
    intro block inside
    rw [makeRoom] at inside
    split at inside
    · exact mem_resize inside
    · exact .inr (.inl inside)
  have owned : (v.makeRoom store).1.data = v.data ∨ (v.makeRoom store).1.data =
      some store.next := by
    rw [makeRoom]
    split
    · exact .inr rfl
    · exact .inl rfl
  obtain ⟨⟨roomy, store₁⟩, grown⟩ : ∃ made, v.makeRoom store = made := ⟨_, rfl⟩
  rw [grown] at room owned
  rw [pushBack, grown] at member
  have known : ∀ {block}, x ∈ store₁.blocks block → (block = other ∨ roomy.data = some block) →
      x = default ∨ x ∈ store.blocks other ∨
        ∃ data, (v.data = some data ∨ store.next ≤ data) ∧ x ∈ store.blocks data := by
    intro block inside place
    rcases room inside with new | old | ⟨data, held, old⟩
    · exact .inl new
    · rcases place with rfl | held
      · exact .inr (.inl old)
      · refine .inr (.inr ⟨block, ?_, old⟩)
        rcases owned with same | fresh
        · exact .inl (same.symm.trans held)
        · exact .inr (Nat.le_of_eq (Option.some.inj (fresh.symm.trans held)))
    · exact .inr (.inr ⟨data, .inl held, old⟩)
  dsimp only at member
  cases held : roomy.data with
  | none =>
      rw [held] at member
      exact .inr (known member (.inl rfl))
  | some data =>
      rw [held] at member
      rcases Store.mem_write _ member with new | old | kept
      · exact .inl new
      · exact .inr (known old (.inr held))
      · exact .inr (known kept (.inl rfl))

/-- What holds of every element on the heap holds of them after a push, if it holds of the new
    one and of those that a block is made with. -/
theorem pushBack_all {P : α → Prop} (all : store.All P) (made : P default) {value : α}
    (new : P value) :
    (v.pushBack value store).2.All P := by
  intro other x member
  rcases mem_pushBack member with rfl | rfl | kept | ⟨data, _, moved⟩
  · exact new
  · exact made
  · exact all other x kept
  · exact all data x moved

end Pushing

end Vector

end Mykonos.Util
