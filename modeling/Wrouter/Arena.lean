import Wrouter.Lib.Machine
import Wrouter.World

/-!
# Arena

A list of blocks, filled from the one at the tail. A request that does not fit
there gets a block of its own; blocks never move and are never shrunk. Addresses and
sizes are words of 64 bits.
-/
namespace Wrouter

open Machine

def arenaBlockSize : Nat := 4096

structure ArenaBlock where
  base : Nat
  used : Nat
  size : Nat
  deriving DecidableEq, Repr

/-- `tail` points into the list, here by position. -/
structure Arena where
  blocks : List ArenaBlock
  tail : Option Nat
  deriving DecidableEq, Repr

def Arena.empty : Arena := ⟨[], none⟩

/-- A block is a header and its bytes; if the second allocation fails the first is freed. -/
def arenaNewBlock (minSize : Nat) (w : World) : Option ArenaBlock × World :=
  let size := if minSize > arenaBlockSize then minSize else arenaBlockSize
  match w.malloc 1 with
  | (none, w) => (none, w)
  | (some header, w) =>
    match w.malloc size with
    | (none, w) => (none, w.free (some header))
    | (some base, w) => (some ⟨base.addr, 0, size⟩, w)

/-- `for (b = a->tail;; b = b->next)`, from the block at position `b`. -/
def arenaLoop (size align : Nat) : Nat → Nat → Arena → World → Option Nat × Arena × World
  | 0, _, a, w => (none, a, w)
  | fuel + 1, b, a, w =>
    match a.blocks[b]? with
    | none => (none, a, w)
    | some blk =>
      let base := addWord 64 blk.base blk.used
      let aligned := alignWord 64 base align
      let padding := subWord 64 aligned base
      let total := addWord 64 padding size
      let used := addWord 64 blk.used total
      if used ≤ blk.size then
        (some aligned, { a with blocks := a.blocks.set b { blk with used := used } }, w)
      else if b + 1 < a.blocks.length then arenaLoop size align fuel (b + 1) a w
      else
        match arenaNewBlock (subWord 64 (addWord 64 size align) 1) w with
        | (none, w) => (none, a, w)
        | (some blk, w) =>
          arenaLoop size align fuel (b + 1) ⟨a.blocks ++ [blk], some (b + 1)⟩ w

/-- `arena_alloc_aligned`, its loop cut off after a number of passes. -/
def arenaAllocPasses (passes : Nat) (a : Arena) (size align : Nat) (w : World) :
    Option Nat × Arena × World :=
  match a.blocks with
  | [] =>
    match arenaNewBlock (subWord 64 (addWord 64 size align) 1) w with
    | (none, w) => (none, .empty, w)
    | (some blk, w) => arenaLoop size align passes 0 ⟨[blk], some 0⟩ w
  | _ :: _ => arenaLoop size align passes (a.tail.getD 0) a w

/-- From the tail, two passes are enough: a new block always fits the request. -/
def arenaAllocAligned (a : Arena) (size align : Nat) (w : World) : Option Nat × Arena × World :=
  arenaAllocPasses (a.blocks.length + 2) a size align w

def arenaAlloc (a : Arena) (length : Nat) (w : World) : Option Nat × Arena × World :=
  arenaAllocAligned a length 1 w

def arenaUsed (a : Arena) : Nat :=
  a.blocks.foldl (fun used b => addWord 64 used b.used) 0

end Wrouter
