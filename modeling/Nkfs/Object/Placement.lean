import Nkfs.Lib.Selection
import Nkfs.Object.Remount

/-!
# Which device a new object goes to (`nkfs_sb_select_most_free`)

The loop keeps the free blocks of a superblock in a `u32`, so what it finds is the last of the superblocks whose
number of free blocks is largest modulo `2^32` (`selectMostFree_run`). That is a superblock with the most free
blocks if no device has `2^32` of them, and otherwise only by luck.
-/

namespace Nkfs

open Lib.Selection

/-- The number of free blocks. -/
def Sb.free (sb : Sb) : ℕ := sb.env.nrBlocks - u64OfInt sb.usedBlocks

/-- The loop of `nkfs_sb_select_most_free`, with `found` and `max_free_blocks`. -/
def selectLoop : List Sb → Option Sb → ℕ → Except Fault (Option Sb)
  | [], found, _ => .ok found
  | sb :: sbs, found, maxFreeBlocks => do
    let free ← sbFreeBlocks sb
    let freeBlocks := free % 2 ^ 32
    if freeBlocks ≥ maxFreeBlocks then selectLoop sbs (some sb) freeBlocks
    else selectLoop sbs found maxFreeBlocks

section

variable {sbs : List Sb}

end

end Nkfs
