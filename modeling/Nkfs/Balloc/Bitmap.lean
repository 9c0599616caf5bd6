import Nkfs.Errno
import Nkfs.Image.Const
import Nkfs.Lib.Program

/-!
# The block allocator on its bitmap (`core/balloc.c`)

The functions of `core/balloc.c` as they run on the clusters of the bitmap: pages, 64-bit longs and
bits, the address computation of `nkfs_balloc_block_bm_bit` beside the one of the scan, device calls
that can fail, and the semaphores that are taken and released on the way. Every superblock geometry
is covered; `Nkfs.Core.Balloc` is the allocator as the other modules use it, on blocks of 64 KiB.

A semaphore is a number of holds for each mode; `unheld` records that one was released without a
hold. The functions run one at a time, so that taking a semaphore never waits.
-/

namespace Nkfs.Balloc

open Lib.Program

/-! ### State -/

/-- The superblock fields that the allocator reads. A cluster has 1 to `DIO_CLU_MAX_PAGES` pages, and
the numbers of the bits of the bitmap are `u64`s. Source: `core/super.h` `struct nkfs_sb` -/
structure Geometry where
  pages : ℕ
  nrBlocks : ℕ
  bmBlock : ℕ
  bmBlocks : ℕ
  pages_pos : 0 < pages
  pages_le : pages ≤ 16
  bits_lt : 8 * (pages * pageSize) * bmBlocks ≤ 2 ^ 64

/-- `sb->bsize`, which is `clu->clu_size`. -/
def Geometry.bsize (g : Geometry) : ℕ := g.pages * pageSize

/-- The semaphores; clusters by their index on the device. -/
inductive Sem where
  /-- `sb->rw_lock` -/
  | sb
  /-- `cluster->rw_lock` -/
  | rw (index : ℕ)
  /-- `cluster->sync_rw_lock` -/
  | sync (index : ℕ)
  /-- `inode->rw_sem` -/
  | inode
  deriving DecidableEq, Repr

inductive Mode where
  | read
  | write
  deriving DecidableEq, Repr

/-- The holds of each semaphore, and whether one was released that was not held. -/
structure Locks where
  holds : Sem → Mode → ℕ
  unheld : Bool

/-- `longs c l` is long `l` of the cluster with index `c` on the device. -/
structure St where
  geo : Geometry
  longs : ℕ → ℕ → BitVec 64
  /-- `atomic64_t used_blocks` -/
  used : ℤ
  /-- `DIO_CLU_DIRTY` -/
  dirty : ℕ → Bool
  locks : Locks
  /-- How the `n`-th device call fails, if it does. -/
  io : ℕ → Option Errno
  /-- Number of device calls so far. -/
  tick : ℕ

inductive Fault where
  /-- An `NKFS_BUG_ON` fired. -/
  | bug
  deriving DecidableEq, Repr

abbrev B := Prog St Fault

/-! ### Semaphores -/

/-- `down_read`, `down_write` -/
def Locks.down (l : Locks) (sem : Sem) (mode : Mode) : Locks :=
  { l with holds := Function.update l.holds sem (Function.update (l.holds sem) mode (l.holds sem mode + 1)) }

/-- `up_read`, `up_write` -/
def Locks.up (l : Locks) (sem : Sem) (mode : Mode) : Locks :=
  if l.holds sem mode = 0 then { l with unheld := true }
  else { l with holds := Function.update l.holds sem (Function.update (l.holds sem) mode (l.holds sem mode - 1)) }

def down (sem : Sem) (mode : Mode) : B Unit := modify fun s => { s with locks := s.locks.down sem mode }

def up (sem : Sem) (mode : Mode) : B Unit := modify fun s => { s with locks := s.locks.up sem mode }

/-! ### Clusters -/

/-- The outcome of the next device call. -/
def nextIo : B (Option Errno) := do
  let s ← get
  set { s with tick := s.tick + 1 }
  return s.io s.tick

/-- Whether the cluster could be read. Source: `core/dio.c` `dio_clu_get` -/
def dioCluGet : B Bool := do
  match ← nextIo with
  | some _ => return false
  | none => return true

/-- Source: `core/dio.c` `dio_clu_set_dirty` -/
def dioCluSetDirty (clu : ℕ) : B Unit := do
  down (.sync clu) .read
  modify fun s => { s with dirty := Function.update s.dirty clu true }
  up (.sync clu) .read

/-- The bio and its memory fail as one. Source: `core/dio.c` `dio_clu_sync` -/
def dioCluSync (clu : ℕ) : B (Except Errno Unit) := do
  let s ← get
  if !s.dirty clu then return .ok ()
  else
    down (.sync clu) .write
    let err ← nextIo
    match err with
    | some e =>
      up (.sync clu) .write
      return .error e
    | none =>
      modify fun s => { s with dirty := Function.update s.dirty clu false }
      up (.sync clu) .write
      return .ok ()

/-- The long at byte `off` of a cluster is long `off / 8`. Source: `core/dio.c` `dio_clu_map` -/
def dioCluMap (off : ℕ) : B ℕ := do
  let s ← get
  if off > s.geo.bsize then stop .bug
  else if off / pageSize ≥ s.geo.pages then stop .bug
  else return off / 8

/-! ### Bits -/

/-- A long with bit `bit` set or cleared: `set_bit_le`, `clear_bit_le`. -/
def setBit (w : BitVec 64) (bit : ℕ) (use : Bool) : BitVec 64 :=
  if use then w ||| (1#64 <<< bit) else w &&& ~~~(1#64 <<< bit)

/-- The bit of a long changes, and the counter with it. -/
def markBit (clu long bit : ℕ) (use : Bool) : B Unit := modify fun s =>
  { s with
    longs := Function.update s.longs clu (Function.update (s.longs clu) long (setBit (s.longs clu long) bit use))
    used := if use then s.used + 1 else s.used - 1 }

/-- Cluster of the bitmap, byte offset of the long in it, and bit.
Source: `core/balloc.c` `nkfs_balloc_block_bm_bit` -/
def blockBmBit (g : Geometry) (block : ℕ) : Except Errno (ℕ × ℕ × ℕ) :=
  if block ≥ g.nrBlocks then .error .einval
  else
    let longNum := block / 64
    .ok (g.bmBlock + longNum * 8 / g.bsize, longNum * 8 % g.bsize, block % 64)

/-- The path that did not find the block on the device returns at once, every other one releases
`sb->rw_lock`. Source: `core/balloc.c` `nkfs_balloc_block_mark` -/
def blockMark (block : ℕ) (use : Bool) : B (Except Errno Unit) := do
  let s ← get
  match blockBmBit s.geo block with
  | .error e => return .error e
  | .ok (clu, longOff, bit) =>
    if ← dioCluGet then
      down (.rw clu) .read
      let long ← dioCluMap longOff
      let s ← get
      if (s.longs clu long).getLsbD bit = use then stop .bug
      else
        markBit clu long bit use
        up (.rw clu) .read
        dioCluSetDirty clu
        let err ← dioCluSync clu
        up .sb .write
        return err
    else
      up .sb .write
      return .error .eio

/-- Source: `core/balloc.c` `nkfs_balloc_block_free` -/
def blockFree (block : ℕ) : B (Except Errno Unit) := blockMark block false

/-! ### The scan -/

/-- Outcome of a loop of the scan. -/
inductive Scan where
  /-- The bit with this long offset and number was clear. -/
  | found (longOff bit : ℕ)
  | nospace
  | next
  deriving DecidableEq, Repr

/-- The loop over the bits of the long `w` of block `block`. -/
def scanBits (nrBlocks block : ℕ) (w : BitVec 64) (i : ℕ) : ℕ → Scan
  | 0 => .next
  | left + 1 =>
    let bit := 64 - (left + 1)
    if block + bit ≥ nrBlocks then .nospace
    else if !w.getLsbD bit then .found i bit
    else scanBits nrBlocks block w i left

/-- The loop over the longs of a page: `left` of them are left, the first is at byte `i` of the cluster.
`k` is the number of the cluster in the bitmap. -/
def scanLongs (g : Geometry) (longs : ℕ → BitVec 64) (k : ℕ) : ℕ → ℕ → Scan
  | 0, _ => .next
  | left + 1, i =>
    let block := (8 * k * g.bsize + 8 * i) % 2 ^ 64
    if block ≥ g.nrBlocks then .nospace
    else if longs (i / 8) = ~~~0#64 then scanLongs g longs k left (i + 8)
    else
      match scanBits g.nrBlocks block (longs (i / 8)) i 64 with
      | .next => scanLongs g longs k left (i + 8)
      | r => r

/-- The loop over the pages. -/
def scanPages (g : Geometry) (longs : ℕ → BitVec 64) (k : ℕ) : ℕ → ℕ → Scan
  | 0, _ => .nospace
  | left + 1, i =>
    match scanLongs g longs k (pageSize / 8) i with
    | .next => scanPages g longs k left (i + pageSize)
    | r => r

/-- `none` for `-ENOENT`. A bit that was found is set before the sync, and the cluster stays locked.
Source: `core/balloc.c` `nkfs_balloc_block_find_set_free_bit` -/
def findSetFreeBit (k clu : ℕ) : B (Except Errno (ℕ × ℕ)) := do
  down (.rw clu) .read
  let s ← get
  match scanPages s.geo (s.longs clu) k s.geo.pages 0 with
  | .found longOff bit =>
    markBit clu (longOff / 8) bit true
    dioCluSetDirty clu
    match ← dioCluSync clu with
    | .error e => return .error e
    | .ok () => return .ok (longOff, bit)
  | _ =>
    up (.rw clu) .read
    return .error .enoent

/-- The loop of `nkfs_balloc_block_alloc`: `left` clusters of the bitmap are left, the next is number `k`. -/
def allocLoop : ℕ → ℕ → B (Except Errno ℕ)
  | 0, _ => return .error .enospc
  | left + 1, k => do
    let s ← get
    if ← dioCluGet then
      match ← findSetFreeBit k (s.geo.bmBlock + k) with
      | .ok (longOff, bit) => return .ok ((8 * k * s.geo.bsize + 8 * longOff + bit) % 2 ^ 64)
      | .error _ => allocLoop left (k + 1)
    else return .error .eio

/-- Source: `core/balloc.c` `nkfs_balloc_block_alloc` -/
def blockAlloc : B (Except Errno ℕ) := do
  let s ← get
  allocLoop s.geo.bmBlocks 0

end Nkfs.Balloc
