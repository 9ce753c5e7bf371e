import Mathlib.Algebra.Group.Nat.Defs
import Mathlib.Data.List.Basic

/-! # The block map

`memory::BlockMap` keeps free memory as an array of half-open address ranges.
Addresses and sizes are 64-bit values; every sum and difference the source forms
is reduced modulo `2 ^ 64`. The array is the list of its first `numBlocks`
entries. Each public operation holds the map's spinlock from its first access to
its last, so it is one transition of the map.
-/

namespace Mykonos.Memory

/-- `memory::Block`, the addresses from `start` up to, not including, `stop`. -/
structure Block where
  start : Nat
  stop : Nat
  deriving Repr, DecidableEq

namespace Block

/-- The private default constructor `Block()`. -/
def empty : Block := ⟨0, 0⟩

def capacity (b : Block) : Nat := (b.stop + 2 ^ 64 - b.start) % 2 ^ 64

/-- The pointer handed out, null when the block is too small, and the block left
    behind. -/
def reserve (b : Block) (amount : Nat) : Nat × Block :=
  if amount ≤ b.capacity then (b.start, { b with start := (b.start + amount) % 2 ^ 64 })
  else (0, b)

end Block

/-- `BLOCKMAP_SIZE`. -/
abbrev blockMapSize : Nat := 256

structure BlockMap where
  blocks : List Block := []
  deriving Repr, DecidableEq

namespace BlockMap

abbrev numBlocks (m : BlockMap) : Nat := m.blocks.length

/-- The inner loop of `merge`: the first stored block that touches `b` at either
    end grows by it, and otherwise `b` is appended. -/
def absorb (b : Block) : List Block → List Block
  | [] => [b]
  | c :: rest =>
      if c.start = b.stop then { c with start := b.start } :: rest
      else if c.stop = b.start then { c with stop := b.stop } :: rest
      else c :: absorb b rest

/-- The outer loop of `merge` at one entry of the snapshot; empty blocks are
    ignored. -/
def mergeOne (merged : List Block) (b : Block) : List Block :=
  if b.capacity = 0 then merged else absorb b merged

def mergeBlocks (temp : List Block) : List Block := temp.foldl mergeOne []

def merge (m : BlockMap) : BlockMap := ⟨mergeBlocks m.blocks⟩

/-- A block that still finds no slot after the coalescing pass is dropped. -/
def addBlock (m : BlockMap) (b : Block) : BlockMap :=
  if 0 < b.capacity then
    if m.numBlocks < blockMapSize then ⟨m.blocks ++ [b]⟩
    else if m.merge.numBlocks < blockMapSize then ⟨m.merge.blocks ++ [b]⟩
    else m.merge
  else m

def returnMemory (m : BlockMap) (ptr amount : Nat) : BlockMap :=
  m.addBlock ⟨ptr, (ptr + amount) % 2 ^ 64⟩

def firstFit (amount : Nat) : List Block → Nat × List Block
  | [] => (0, [])
  | b :: rest =>
      if amount ≤ b.capacity then ((b.reserve amount).1, (b.reserve amount).2 :: rest)
      else ((firstFit amount rest).1, b :: (firstFit amount rest).2)

/-- The first block that is large enough is cut at its front. Null is both the
    failure value and the start of a block at address zero. -/
def allocate (m : BlockMap) (amount : Nat) : Nat × BlockMap :=
  ((firstFit amount m.blocks).1, ⟨(firstFit amount m.blocks).2⟩)

/-- One iteration of the loop of `reserve`. In the last branch the two
    remainders are added through `addBlock`, which may coalesce and so reorder
    the array the loop is indexing. -/
def reserveStep (r : Block) (i : Nat) (m : BlockMap) : BlockMap :=
  match m.blocks[i]? with
  | none => m
  | some b =>
      if r.stop ≤ b.start then m
      else if b.stop ≤ r.start then m
      else if r.start ≤ b.start ∧ b.stop ≤ r.stop then ⟨m.blocks.set i Block.empty⟩
      else if r.start ≤ b.start then ⟨m.blocks.set i { b with start := r.stop }⟩
      else if b.stop ≤ r.stop then ⟨m.blocks.set i { b with stop := r.start }⟩
      else
        (addBlock ⟨m.blocks.set i Block.empty⟩ ⟨b.start, r.start⟩).addBlock ⟨r.stop, b.stop⟩

/-- The loop of `reserve` from index `i`, which rereads `numBlocks` before every
    iteration. -/
def reserveLoop (r : Block) : Nat → Nat → BlockMap → BlockMap
  | 0, _, m => m
  | fuel + 1, i, m =>
      if i < m.numBlocks then reserveLoop r fuel (i + 1) (reserveStep r i m) else m

/-- No table is longer than `blockMapSize`, so the loop has left by then. -/
def reserve (m : BlockMap) (r : Block) : BlockMap := reserveLoop r blockMapSize 0 m.merge

def clear (_ : BlockMap) : BlockMap := ⟨[]⟩

end BlockMap

end Mykonos.Memory
