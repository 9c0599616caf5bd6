import Nkfs.Balloc.Bitmap

/-!
# The semaphores of inode operations (`core/inode.c`)

`nkfs_inode_io_pages` and `nkfs_inode_delete` with the semaphores they take and release, on the
allocator of `Nkfs.Balloc.Bitmap`. The bytes of data are left out. What a lookup, a checksum test, a
memory allocation or a device call returns is a pattern of the state, and so is what a call that changes
a B-tree does on the way: clusters read and written, blocks allocated and freed.
-/

namespace Nkfs.Locks

open Lib.Program Balloc

/-! ### State -/

/-- What a B-tree call does besides its work on nodes in memory. -/
inductive TreeEffect where
  /-- `nkfs_btree_node_read`: a cluster is read. -/
  | read
  /-- `nkfs_btree_node_write` of a cluster. -/
  | write (clu : ℕ)
  | alloc
  | free (block : ℕ)

/-- The inode, the allocator under it, and the patterns. Source: `core/inode.h` `struct nkfs_inode` -/
structure St where
  bal : Balloc.St
  size : ℕ
  block : ℕ
  dirty : Bool
  /-- `inode->blocks_tree != NULL` -/
  blocksTree : Bool
  /-- `inode->blocks_sum_tree != NULL` -/
  sumTree : Bool
  /-- Clusters that the `n`-th lookup reads, and what it returns. -/
  finds : ℕ → ℕ × Except Errno ℕ
  findTick : ℕ
  /-- What the `n`-th call that changes a tree does, and what it returns. -/
  trees : ℕ → List TreeEffect × Except Errno Unit
  treeTick : ℕ
  /-- Whether the `n`-th checksum test succeeds. -/
  sums : ℕ → Bool
  sumTick : ℕ
  /-- `DIO_CLU_READ` -/
  ready : ℕ → Bool

abbrev L := Prog St Balloc.Fault

/-- A call of the allocator or of a cluster. -/
def bal {α : Type} (x : B α) : L α := fun s =>
  match x s.bal with
  | .error (e, b) => .error (e, { s with bal := b })
  | .ok (a, b) => .ok (a, { s with bal := b })

/-! ### Clusters -/

/-- Source: `core/dio.c` `dio_clu_wait_read` -/
def dioCluWaitRead : L (Except Errno Unit) := do
  match ← bal nextIo with
  | some e => return .error e
  | none => return .ok ()

/-- `if (!test_bit(DIO_CLU_READ, ..)) err = dio_clu_wait_read(..)` -/
def dioCluReady (clu : ℕ) : L (Except Errno Unit) := do
  let s ← get
  if !s.ready clu then dioCluWaitRead
  else return .ok ()

/-- Source: `core/dio.c` `dio_clu_read` -/
def dioCluRead (clu : ℕ) : L (Except Errno Unit) := do
  match ← dioCluReady clu with
  | .error e => return .error e
  | .ok () =>
    bal (down (.rw clu) .read)
    bal (up (.rw clu) .read)
    return .ok ()

/-- Source: `core/dio.c` `dio_clu_write` -/
def dioCluWrite (clu : ℕ) : L (Except Errno Unit) := do
  bal (down (.sync clu) .read)
  match ← dioCluReady clu with
  | .error e =>
    bal (up (.sync clu) .read)
    return .error e
  | .ok () =>
    bal (down (.rw clu) .write)
    modify fun s => { s with bal := { s.bal with dirty := Function.update s.bal.dirty clu true } }
    bal (up (.rw clu) .write)
    bal (up (.sync clu) .read)
    return .ok ()

/-! ### Trees -/

/-- `nkfs_btree_find_key` -/
def findKey : L (Except Errno ℕ) := do
  let s ← get
  set { s with findTick := s.findTick + 1, bal := { s.bal with tick := s.bal.tick + (s.finds s.findTick).1 } }
  return (s.finds s.findTick).2

/-- Source: `core/btree.c` `nkfs_btree_node_write` -/
def nodeWrite (clu : ℕ) : L Unit := do
  if ← bal Balloc.dioCluGet then
    bal (dioCluSetDirty clu)
    let _ ← bal (Balloc.dioCluSync clu)
    return ()
  else return ()

def treeEffect : TreeEffect → L Unit
  | .read => do
    let _ ← bal Balloc.dioCluGet
    return ()
  | .write clu => nodeWrite clu
  | .alloc => do
    let _ ← bal Balloc.blockAlloc
    return ()
  | .free block => do
    let _ ← bal (Balloc.blockFree block)
    return ()

def treeEffects : List TreeEffect → L Unit
  | [] => return ()
  | e :: es => do
    treeEffect e
    treeEffects es

/-- `nkfs_btree_insert_key`, `nkfs_btree_delete_key`, `nkfs_btree_erase` -/
def treeChange : L (Except Errno Unit) := do
  let s ← get
  set { s with treeTick := s.treeTick + 1 }
  treeEffects (s.trees s.treeTick).1
  return (s.trees s.treeTick).2

/-! ### Blocks of an inode -/

/-- The clusters of an `inode_block`. -/
structure IBlock where
  block : ℕ
  sumBlock : ℕ

/-- Source: `core/inode.c` `nkfs_inode_block_open_clus` -/
def openClus : L (Except Errno Unit) := do
  if ← bal Balloc.dioCluGet then
    if ← bal Balloc.dioCluGet then return .ok ()
    else return .error .eio
  else return .error .eio

/-- Source: `core/inode.c` `nkfs_inode_block_read` -/
def inodeBlockRead : L (Except Errno IBlock) := do
  match ← findKey with
  | .error e => return .error e
  | .ok block =>
    match ← findKey with
    | .error e => return .error e
    | .ok sumBlock =>
      match ← openClus with
      | .error e => return .error e
      | .ok () => return .ok { block := block, sumBlock := sumBlock }

/-- Source: `core/inode.c` `nkfs_inode_block_check_sum` -/
def inodeBlockCheckSum : L (Except Errno Unit) := do
  let s ← get
  set { s with sumTick := s.sumTick + 1 }
  return if s.sums s.sumTick then .ok () else .error .einval

/-- Source: `core/inode.c` `nkfs_inode_block_write` -/
def inodeBlockWrite (ib : IBlock) : L (Except Errno Unit) := do
  bal (dioCluSetDirty ib.block)
  bal (dioCluSetDirty ib.sumBlock)
  match ← bal (Balloc.dioCluSync ib.block) with
  | .error e => return .error e
  | .ok () => bal (Balloc.dioCluSync ib.sumBlock)

/-- `if (cond) x`, the result dropped. -/
def runIf {α : Type} (cond : Bool) (x : L α) : L Unit :=
  if cond then do
    let _ ← x
    return ()
  else return ()

/-- The label `fail` of `nkfs_inode_block_alloc`. -/
def inodeBlockAllocFail (ib : IBlock) (allocated inserted : Bool) (e : Errno) : L (Except Errno IBlock) := do
  runIf inserted treeChange
  runIf allocated (bal (Balloc.blockFree ib.sumBlock))
  let _ ← bal (Balloc.blockFree ib.block)
  return .error e

/-- The tail of `nkfs_inode_block_alloc`, once the checksum block is known. -/
def inodeBlockAllocMap (ib : IBlock) (fresh : Bool) : L (Except Errno IBlock) := do
  match ← openClus with
  | .error e => inodeBlockAllocFail ib fresh fresh e
  | .ok () =>
    match ← treeChange with
    | .error e => inodeBlockAllocFail ib fresh fresh e
    | .ok () => return .ok ib

/-- What `nkfs_inode_block_alloc` does after the data block was allocated. -/
def inodeBlockAllocRest (block : ℕ) : L (Except Errno IBlock) := do
  match ← findKey with
  | .ok sumBlock => inodeBlockAllocMap { block := block, sumBlock := sumBlock } false
  | .error _ =>
    match ← bal Balloc.blockAlloc with
    | .error e => inodeBlockAllocFail { block := block, sumBlock := 0 } false false e
    | .ok sumBlock =>
      match ← treeChange with
      | .error e => inodeBlockAllocFail { block := block, sumBlock := sumBlock } true false e
      | .ok () => inodeBlockAllocMap { block := block, sumBlock := sumBlock } true

/-- Source: `core/inode.c` `nkfs_inode_block_alloc` -/
def inodeBlockAlloc : L (Except Errno IBlock) := do
  match ← bal Balloc.blockAlloc with
  | .error e => return .error e
  | .ok block => inodeBlockAllocRest block

/-- Source: `core/inode.c` `nkfs_inode_block_erase` -/
def inodeBlockErase (ib : IBlock) : L Unit := do
  let _ ← treeChange
  let _ ← bal (Balloc.blockFree ib.block)
  return ()

/-- The branch of `nkfs_inode_block_read_create` for a block that could not be read. -/
def inodeBlockCreate : L (Except Errno IBlock) := do
  match ← inodeBlockAlloc with
  | .error e => return .error e
  | .ok ib =>
    match ← inodeBlockWrite ib with
    | .error e =>
      inodeBlockErase ib
      return .error e
    | .ok () => return .ok ib

/-- Source: `core/inode.c` `nkfs_inode_block_read_create` -/
def inodeBlockReadCreate : L (Except Errno IBlock) := do
  match ← inodeBlockRead with
  | .error _ => inodeBlockCreate
  | .ok ib =>
    match ← inodeBlockCheckSum with
    | .error e => return .error e
    | .ok () => return .ok ib

/-! ### Reading and writing -/

/-- The cluster, the memory for the image, the write and the sync of `nkfs_inode_write`. -/
def inodeWriteTo (block : ℕ) : L (Except Errno Unit) := do
  if ← bal Balloc.dioCluGet then
    match ← bal nextIo with
    | some _ => return .error .enomem
    | none =>
      match ← dioCluWrite block with
      | .error e => return .error e
      | .ok () => bal (Balloc.dioCluSync block)
  else return .error .eio

/-- Source: `core/inode.c` `nkfs_inode_write` -/
def inodeWrite : L (Except Errno Unit) := do
  let s ← get
  if s.block = 0 then stop .bug
  else inodeWriteTo s.block

/-- Source: `core/inode.c` `nkfs_inode_set_size`, `nkfs_inode_write_dirty` -/
def inodeSetSize (size : ℕ) : L (Except Errno Unit) := do
  modify fun s => if s.size ≠ size then { s with size := size, dirty := true } else s
  let s ← get
  if !s.dirty then return .ok ()
  else
    match ← inodeWrite with
    | .error e => return .error e
    | .ok () =>
      modify fun s => { s with dirty := false }
      return .ok ()

/-- The bytes of a block: `vblock * bsize + off`. -/
def dataOff (s : St) (vblock off : ℕ) : ℕ := (vblock * s.bal.geo.bsize + off) % 2 ^ 64

/-- What `nkfs_inode_read_block_buf` does below the tests of the size: the first hold is not given back.
Count of bytes and end of file. -/
def readBlockRest (dataOff len : ℕ) : L (Except Errno (ℕ × Bool)) := do
  match ← inodeBlockRead with
  | .error e => return .error e
  | .ok ib =>
    match ← inodeBlockCheckSum with
    | .error e => return .error e
    | .ok () =>
      bal (down .inode .read)
      let s ← get
      let eof := (dataOff + len) % 2 ^ 64 ≥ s.size
      bal (up .inode .read)
      match ← dioCluRead ib.block with
      | .error e => return .error e
      | .ok () => return .ok (if eof then (s.size - dataOff, true) else (len, false))

/-- Source: `core/inode.c` `nkfs_inode_read_block_buf` -/
def readBlockBuf (vblock off len : ℕ) : L (Except Errno (ℕ × Bool)) := do
  let s ← get
  if off + len > s.bal.geo.bsize then stop .bug
  else
    bal (down .inode .read)
    if dataOff s vblock off > s.size then
      bal (up .inode .read)
      return .error .erange
    else if dataOff s vblock off = s.size then
      bal (up .inode .read)
      return .ok (0, true)
    else readBlockRest (dataOff s vblock off) len

/-- The size update of `nkfs_inode_write_block_buf`. -/
def sizeUpdate (dataEnd : ℕ) : L (Except Errno Unit) := do
  bal (down .inode .write)
  let s ← get
  if dataEnd > s.size then
    match ← inodeSetSize dataEnd with
    | .error e =>
      bal (up .inode .write)
      return .error e
    | .ok () =>
      bal (up .inode .write)
      return .ok ()
  else
    bal (up .inode .write)
    return .ok ()

/-- What `nkfs_inode_write_block_buf` does with a block. -/
def writeBlockRest (ib : IBlock) (dataEnd len : ℕ) : L (Except Errno (ℕ × Bool)) := do
  match ← dioCluWrite ib.block with
  | .error e => return .error e
  | .ok () =>
    match ← inodeBlockWrite ib with
    | .error e => return .error e
    | .ok () =>
      match ← sizeUpdate dataEnd with
      | .error e => return .error e
      | .ok () => return .ok (len, false)

/-- Source: `core/inode.c` `nkfs_inode_write_block_buf` -/
def writeBlockBuf (vblock off len : ℕ) : L (Except Errno (ℕ × Bool)) := do
  let s ← get
  if off + len > s.bal.geo.bsize then stop .bug
  else
    match ← inodeBlockReadCreate with
    | .error e => return .error e
    | .ok ib => writeBlockRest ib ((vblock * s.bal.geo.bsize + off + len) % 2 ^ 64) len

/-- The branch on `write` of `nkfs_inode_io_buf`. -/
def ioBlockBuf (write : Bool) (vblock off len : ℕ) : L (Except Errno (ℕ × Bool)) :=
  if write then writeBlockBuf vblock off len else readBlockBuf vblock off len

/-- Bytes of the next block: `((res + loff) > bsize) ? (bsize - loff) : res`. -/
def bufLen (bsize loff res : ℕ) : ℕ := if (res + loff) % 2 ^ 32 > bsize then bsize - loff else res

/-- The loop of `nkfs_inode_io_buf`: `res` bytes left, `sum` bytes done. -/
def ioBufLoop (write : Bool) : ℕ → ℕ → ℕ → ℕ → ℕ → L (Except Errno (ℕ × Bool))
  | 0, _, _, _, sum => return .ok (sum, false)
  | fuel + 1, vblock, loff, res, sum => do
    let s ← get
    if res = 0 then return .ok (sum, false)
    else
      let llen := bufLen s.bal.geo.bsize loff res
      match ← ioBlockBuf write vblock loff llen with
      | .error e => return .error e
      | .ok (ioCount, eof) =>
        if eof then return .ok (sum + ioCount, true)
        else if llen ≠ ioCount then stop .bug
        else ioBufLoop write fuel ((vblock + 1) % 2 ^ 64) 0 (res - llen) (sum + ioCount)

/-- Every round takes at least one byte. Source: `core/inode.c` `nkfs_inode_io_buf` -/
def ioBuf (write : Bool) (off len : ℕ) : L (Except Errno (ℕ × Bool)) := do
  let s ← get
  ioBufLoop write len (off / s.bal.geo.bsize) (off % s.bal.geo.bsize) len 0

/-- Bytes of the next page: `((len + pg_off) > PAGE_SIZE) ? (PAGE_SIZE - pg_off) : len`. -/
def pageLen (pgOff len : ℕ) : ℕ :=
  if (len + pgOff) % 2 ^ 32 > pageSize then (pageSize + 2 ^ 32 - pgOff) % 2 ^ 32 else len

/-- The loop of `nkfs_inode_io_pages`, with the number of pages left: `len` bytes left, `sum` bytes done. -/
def ioPagesLoop (write : Bool) : ℕ → ℕ → ℕ → ℕ → ℕ → L (Except Errno ℕ)
  | 0, _, _, len, sum => return if len = 0 then .ok sum else .error .einval
  | nrPages + 1, off, pgOff, len, sum => do
    if len = 0 then return .ok sum
    else
      let llen := pageLen pgOff len
      match ← ioBuf write off llen with
      | .error e => return .error e
      | .ok (ioCount, eof) =>
        if eof then return .ok (sum + ioCount)
        else if ioCount ≠ llen then stop .bug
        else ioPagesLoop write nrPages ((off + llen) % 2 ^ 64) 0 ((len + 2 ^ 32 - llen) % 2 ^ 32) (sum + ioCount)

/-- Source: `core/inode.c` `nkfs_inode_io_pages` -/
def ioPages (write : Bool) (off pgOff len nrPages : ℕ) : L (Except Errno ℕ) :=
  ioPagesLoop write nrPages off pgOff len 0

/-! ### Deleting -/

/-- The inode leaves the cache of inodes under a spinlock. Source: `core/inode.c` `nkfs_inode_delete` -/
def inodeDelete : L Unit := do
  let s ← get
  bal (down .inode .write)
  runIf s.blocksTree treeChange
  runIf s.sumTree treeChange
  let _ ← bal (Balloc.blockFree s.block)
  modify fun s => { s with block := 0, size := 0 }
  bal (up .inode .write)

end Nkfs.Locks
