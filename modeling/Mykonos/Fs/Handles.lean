import Mykonos.Fs.Vfs

/-! # Handles after they are closed

A closed handle should ignore every call. `close` does not clear the flag that the handle is
open, so only a handle that was not open before is ignored after it; any other is left open
without a node.
-/

namespace Mykonos.Fs

open Lib Util

inductive HandleCall where
  | getType
  | close
  | childName (index : Nat)
  | openChild (index : Nat) (writable : Bool)
  | findChild (name : String)
  | read (offset length buffer : Nat)
  | write (offset length buffer : Nat)
  | mount (fsProvider : List InitramfsEntry)
  deriving Repr, DecidableEq

inductive Answer where
  | nothing
  | type (type : FileType)
  | name (name : String)
  | handle (handle : FileHandle)
  | size (size : Nat)
  deriving Repr, DecidableEq

/-- What a call returns that is ignored. -/
def HandleCall.default : HandleCall → Answer
  | .getType => .type .none
  | .close => .nothing
  | .childName _ => .name {}
  | .openChild _ _ => .handle {}
  | .findChild _ => .size sizeMax
  | .read _ _ _ => .size 0
  | .write _ _ _ => .size 0
  | .mount _ => .nothing

/-- What calls on a handle may change besides it. -/
structure World where
  memory : Nat → UInt8
  store : Store FileNode

namespace FileHandle

def call (handle : FileHandle) (world : World) : HandleCall → Option (FileHandle × World × Answer)
  | .getType => do
      let type ← handle.getType world.store
      some (handle, world, .type type)
  | .close => do
      let (handle, store) ← handle.close world.store
      some (handle, { world with store }, .nothing)
  | .childName index => do
      let (handle, store, name) ← handle.childName world.memory index world.store
      some (handle, { world with store }, .name name)
  | .openChild index writable => do
      let (handle, store, result) ← handle.openChild world.memory index writable world.store
      some (handle, { world with store }, .handle result)
  | .findChild name => do
      let (handle, store, index) ← handle.findChild world.memory name world.store
      some (handle, { world with store }, .size index)
  | .read offset length buffer => do
      let (handle, memory, result) ← handle.read world.memory offset length buffer world.store
      some (handle, { world with memory }, .size result)
  | .write offset length buffer => do
      let (handle, result) ← handle.write offset length buffer world.store
      some (handle, world, .size result)
  | .mount fsProvider => do
      let (handle, store) ← handle.mount fsProvider world.store
      some (handle, { world with store }, .nothing)

/-- A sequence of calls on one handle. -/
def callAll : FileHandle → World → List HandleCall → Option (FileHandle × World × List Answer)
  | handle, world, [] => some (handle, world, [])
  | handle, world, c :: rest => do
      let (handle, world, answer) ← handle.call world c
      let (handle, world, answers) ← handle.callAll world rest
      some (handle, world, answer :: answers)

/-- Whatever nodes there are, none at all included, no sequence of calls touches one, and all
    of them return the defaults. -/
def Inert (handle : FileHandle) : Prop :=
  ∀ calls world, ∃ handle', handle.callAll world calls =
    some (handle', world, calls.map HandleCall.default)

/-- What closing a handle is to come to. -/
def InertAfterClose (handle : FileHandle) (store : Store FileNode) : Prop :=
  ∃ handle' store', handle.close store = some (handle', store') ∧ handle'.isOpen = false ∧
    handle'.error = .closed ∧ handle'.Inert

variable {handle : FileHandle}

/-- A handle that is not open ignores a call, but for the error that `write` sets. -/
theorem call_of_not_open (shut : handle.open = false) (world : World) (c : HandleCall) :
    ∃ handle', handle'.open = false ∧ handle.call world c = some (handle', world, c.default) := by
  cases c with
  | getType => exact ⟨handle, shut, by simp [call, getType, shut, HandleCall.default]⟩
  | close => exact ⟨handle, shut, by simp [call, close, shut, HandleCall.default]⟩
  | childName index =>
      exact ⟨handle, shut, by simp [call, childName, inspect, shut, HandleCall.default]⟩
  | openChild index writable =>
      exact ⟨handle, shut, by simp [call, openChild, inspect, shut, HandleCall.default]⟩
  | findChild name =>
      exact ⟨handle, shut, by simp [call, findChild, inspect, shut, HandleCall.default]⟩
  | read offset length buffer =>
      exact ⟨handle, shut, by simp [call, read, shut, HandleCall.default]⟩
  | write offset length buffer =>
      cases mode : handle.writable with
      | false => exact ⟨{ handle with error := .readOnly }, shut,
          by simp [call, write, shut, mode, HandleCall.default]⟩
      | true => exact ⟨handle, shut, by simp [call, write, shut, mode, HandleCall.default]⟩
  | mount fsProvider => exact ⟨handle, shut, by simp [call, mount, shut, HandleCall.default]⟩

theorem inert_of_not_open (shut : handle.open = false) : handle.Inert := by
  intro calls world
  induction calls generalizing handle with
  | nil => exact ⟨handle, rfl⟩
  | cons c rest ih =>
      obtain ⟨handle', shut', taken⟩ := call_of_not_open shut world c
      obtain ⟨last, further⟩ := ih shut'
      exact ⟨last, by simp [callAll, taken, further]⟩

/-- What `close` leaves of an open handle: it is open still, and has no node. -/
theorem close_open {store store' : Store FileNode} {handle' : FileHandle}
    (isOpen : handle.open = true) (closed : handle.close store = some (handle', store')) :
    handle'.open = true ∧ handle'.node = none ∧ handle'.error = .closed := by
  rcases close_cases closed with ⟨shut, _⟩ | ⟨place, node, _, _, _, rfl, _⟩
  · rw [shut] at isOpen
    cases isOpen
  · exact ⟨isOpen, rfl, rfl⟩

theorem close_of_no_node (isOpen : handle.open = true) (dangling : handle.node = none)
    (store : Store FileNode) :
    handle.close store = none := by
  rw [close, if_pos isOpen, dangling]
  rfl

/-- The call uses the node of a handle that is open. -/
def UsesNode (writable : Bool) : HandleCall → Prop
  | .getType | .close | .childName _ | .openChild _ _ | .findChild _ | .read _ _ _ => True
  | .write _ _ _ | .mount _ => writable = true

/-- A handle that is open without a node follows the null pointer in every call that uses the
    node. -/
theorem call_of_no_node (isOpen : handle.open = true) (dangling : handle.node = none)
    (world : World) {c : HandleCall} (uses : UsesNode handle.writable c) :
    handle.call world c = none := by
  cases c with
  | getType => simp [call, getType, isOpen, dangling]
  | close => simp [call, close_of_no_node isOpen dangling]
  | childName index => simp [call, childName, inspect, isOpen, dangling]
  | openChild index writable => simp [call, openChild, inspect, isOpen, dangling]
  | findChild name => simp [call, findChild, inspect, isOpen, dangling]
  | read offset length buffer => simp [call, read, isOpen, dangling]
  | write offset length buffer =>
      have mode : handle.writable = true := uses
      simp [call, write, isOpen, dangling, mode]
  | mount fsProvider =>
      have mode : handle.writable = true := uses
      simp [call, mount, isOpen, dangling, mode]

/-- Every handle is inert after `close` if and only if it was not open before, and said that it
    is closed. -/
theorem inertAfterClose_iff (handle : FileHandle) (store : Store FileNode) :
    handle.InertAfterClose store ↔ handle.open = false ∧ handle.error = .closed := by
  constructor
  · rintro ⟨handle', store', closed, shut, error, _⟩
    cases before : handle.open with
    | true =>
        have after := (close_open before closed).1
        rw [isOpen, after] at shut
        cases shut
    | false =>
        rw [close, before] at closed
        cases closed
        exact ⟨rfl, error⟩
  · rintro ⟨shut, error⟩
    exact ⟨handle, store, by rw [close, shut]; rfl, shut, error, inert_of_not_open shut⟩

/-- A handle on the root is closed and asked for its type, or closed once more. -/
theorem closed_handle_used :
    ∃ handle store closed store', ofPath (fun _ => 0) {} true Vfs.initial.store =
      some (handle, store) ∧
      handle.close store = some (closed, store') ∧ closed.isOpen = true ∧
      (∀ world, closed.call world .getType = none ∧ closed.call world .close = none) ∧
      ¬ handle.InertAfterClose store := by
  refine ⟨⟨some root, true, true, .okay⟩, _, ⟨none, true, true, .closed⟩, _, rfl, rfl, rfl,
    fun world => ?_, ?_⟩
  · exact ⟨call_of_no_node rfl rfl world trivial, call_of_no_node rfl rfl world trivial⟩
  · rintro ⟨handle', store', closed, shut, _⟩
    rw [isOpen, (close_open rfl closed).1] at shut
    cases shut

end FileHandle

end Mykonos.Fs
