import Nkfs.Btree.Ops

/-!
# Inodes (`core/inode.c`)

An object is an inode block, a B-tree from block numbers of the object to data blocks, and a B-tree
from block numbers of its checksum table to checksum blocks. Bytes are read and written a page at a
time, each page cut at block boundaries; every data block has an eight-byte checksum in the
checksum table that is verified before the block is used.

Every operation takes the inode in memory and returns it. One request at a time holds it, so the
inode cache is left out: a request reads the inode from its block. The read-write semaphore is the
number of read holds; a write hold that meets one of them waits for ever. Reads and writes of the
device succeed; `kmalloc` and the block allocator may fail.
-/

namespace Nkfs

open Lib.Bytes Lib.Program

/-- Source: `core/inode.h` `struct nkfs_inode`, without reference count and links -/
structure Inode where
  block : ℕ
  ino : Key
  size : ℕ
  blocksTreeBlock : ℕ
  blocksSumTreeBlock : ℕ
  blocksTree : Option Tree
  blocksSumTree : Option Tree
  dirty : Bool
  /-- Read holds on `rw_sem`. -/
  readers : ℕ

/-- Source: `core/inode.h` `struct inode_block` -/
structure InodeBlock where
  vblock : ℕ
  block : ℕ
  vsumBlock : ℕ
  sumBlock : ℕ
  sumOff : ℕ

/-- `sizeof(struct csum)`. -/
def csumSize : ℕ := 8

/-- A `u64`. -/
def u64 (n : ℕ) : ℕ := n % 2 ^ 64

/-- The tree behind a pointer of the inode. -/
def derefTree : Option Tree → M Tree
  | none => stop .null
  | some tree => return tree

/-! ### Inodes on disk -/

/-- Source: `core/inode.c` `nkfs_inode_to_on_disk` -/
def Inode.toOnDisk (inode : Inode) : InodeDisk where
  ino := inode.ino
  size := inode.size
  blocksTreeBlock := inode.blocksTreeBlock
  blocksSumTreeBlock := inode.blocksSumTreeBlock

/-- The inode in memory that `nkfs_inode_parse_on_disk` fills, with its two trees. -/
def InodeDisk.toInode (d : InodeDisk) (block : ℕ) (blocksTree blocksSumTree : Option Tree) :
    Inode where
  block := block
  ino := d.ino
  size := d.size
  blocksTreeBlock := d.blocksTreeBlock
  blocksSumTreeBlock := d.blocksSumTreeBlock
  blocksTree := blocksTree
  blocksSumTree := blocksSumTree
  dirty := false
  readers := 0

/-- The state after an inode was written to its block. -/
def Sb.writeInode (s : Sb) (block : ℕ) (d : InodeDisk) : Sb :=
  { s with
    nodes := Function.update s.nodes block none
    inodes := Function.update s.inodes block (some d)
    clus := Function.update s.clus block (s.env.inodeImage d (s.clus block)) }

/-- Memory for the inode and for its image, then the two trees.
Source: `core/inode.c` `nkfs_inode_read` -/
def inodeRead (block : ℕ) : M (Option Inode) := do
  if ← nextAlloc then
    if ← nextAlloc then
      let s ← get
      match s.inodes block with
      | none => return none
      | some d =>
        match ← btreeCreate d.blocksTreeBlock with
        | none => return none
        | some blocksTree =>
          match ← btreeCreate d.blocksSumTreeBlock with
          | none => return none
          | some sumTree => return some (d.toInode block (some blocksTree) (some sumTree))
    else return none
  else return none

/-- `if (tree) nkfs_btree_erase(tree, inode_block_erase, inode)`. -/
def eraseTree : Option Tree → M (Option Tree)
  | none => return none
  | some tree => do
    let tree ← btreeErase tree inodeBlockErase
    return some tree

/-- The inode afterwards. Source: `core/inode.c` `nkfs_inode_delete` -/
def inodeDelete (inode : Inode) : M Inode := do
  if inode.readers ≠ 0 then stop .deadlock
  else
    let blocksTree ← eraseTree inode.blocksTree
    let sumTree ← eraseTree inode.blocksSumTree
    let _ ← blockFree inode.block
    return { inode with block := 0, size := 0, blocksTree := blocksTree, blocksSumTree := sumTree }

/-- Source: `core/inode.c` `nkfs_inode_write` -/
def inodeWrite (inode : Inode) : M (Except Errno Unit) := do
  if inode.block = 0 then stop .bug
  else if ← nextAlloc then
    let s ← get
    set (s.writeInode inode.block inode.toOnDisk)
    return .ok ()
  else return .error .enomem

/-- Source: `core/inode.c` `nkfs_inode_set_size` -/
def Inode.setSize (inode : Inode) (size : ℕ) : Inode :=
  if inode.size ≠ size then { inode with size := size, dirty := true } else inode

/-- Source: `core/inode.c` `nkfs_inode_write_dirty` -/
def inodeWriteDirty (inode : Inode) : M (Inode × Except Errno Unit) := do
  if !inode.dirty then return (inode, .ok ())
  else
    match ← inodeWrite inode with
    | .ok () => return ({ inode with dirty := false }, .ok ())
    | .error e => return (inode, .error e)

/-- The two trees and the image of a new inode at `block`; `none` where the source goes to
`idelete`, with the inode as it is there. -/
def inodeFill (inode : Inode) : M (Inode × Bool) := do
  match ← btreeCreate 0 with
  | none => return (inode, false)
  | some blocksTree =>
    let inode := { inode with blocksTree := some blocksTree }
    match ← btreeCreate 0 with
    | none => return (inode, false)
    | some sumTree =>
      let inode := { inode with
        blocksSumTree := some sumTree
        blocksTreeBlock := blocksTree.root
        blocksSumTreeBlock := sumTree.root }
      match ← inodeWrite inode with
      | .error _ => return (inode, false)
      | .ok () => return (inode, true)

/-- Source: `core/inode.c` `nkfs_inode_create` -/
def inodeCreate (ino : Key) : M (Option Inode) := do
  if ← nextAlloc then
    match ← blockAlloc with
    | .error _ => return none
    | .ok block =>
      if block = 0 then stop .bug
      else
        let (inode, ok) ← inodeFill
          { block := block, ino := ino, size := 0, blocksTreeBlock := 0, blocksSumTreeBlock := 0,
            blocksTree := none, blocksSumTree := none, dirty := false, readers := 0 }
        if ok then return some inode
        else
          let _ ← inodeDelete inode
          return none
  else return none

/-! ### Data blocks and their checksums -/

/-- Source: `core/inode.c` `nkfs_inode_block_to_sum_block` -/
def blockToSumBlock (block bsize : ℕ) : ℕ × ℕ :=
  let nbytes := u64 (block * csumSize)
  (nbytes / bsize, nbytes % bsize)

/-- The state after the bytes of a cluster were overwritten. -/
def Sb.writeClu (s : Sb) (block : ℕ) (m : Mem) : Sb :=
  { s with
    nodes := Function.update s.nodes block none
    inodes := Function.update s.inodes block none
    clus := Function.update s.clus block m }

/-- `dio_clu_sum`. -/
def Sb.cluSum (s : Sb) (block : ℕ) : ℕ := (s.env.csum (slice (s.clus block) 0 blockSize)).toNat

/-- The checksum of the data block goes to its slot of the checksum block.
Source: `core/inode.c` `nkfs_inode_block_write` -/
def inodeBlockWrite (ib : InodeBlock) : M Unit := do
  let s ← get
  set (s.writeClu ib.sumBlock (storeLe (s.clus ib.sumBlock) ib.sumOff csumSize (s.cluSum ib.block)))

/-- Source: `core/inode.c` `nkfs_inode_block_check_sum` -/
def inodeBlockCheckSum (ib : InodeBlock) : M (Except Errno Unit) := do
  let s ← get
  if loadLe (s.clus ib.sumBlock) ib.sumOff csumSize ≠ s.cluSum ib.block then return .error .einval
  else return .ok ()

/-- Both clusters lie on the device. Source: `core/inode.c` `nkfs_inode_block_open_clus` -/
def openClus (ib : InodeBlock) : M (Except Errno Unit) := do
  let s ← get
  if ib.block ≥ s.env.nrBlocks ∨ ib.sumBlock ≥ s.env.nrBlocks then return .error .eio
  else return .ok ()

/-- The label `fail` of `nkfs_inode_block_alloc`. -/
def inodeBlockAllocFail (sumTree : Tree) (ib : InodeBlock) (allocated inserted : Bool)
    (e : Errno) : M (Except Errno InodeBlock) := do
  runIf inserted (ignore (deleteKey sumTree (keyByU64 ib.vsumBlock)))
  runIf allocated (ignore (blockFree ib.sumBlock))
  let _ ← blockFree ib.block
  return .error e

/-- The tail of `nkfs_inode_block_alloc`, once the checksum block is known. -/
def inodeBlockAllocMap (blocksTree sumTree : Tree) (ib : InodeBlock) (fresh : Bool) :
    M (Except Errno InodeBlock) := do
  match ← openClus ib with
  | .error e => inodeBlockAllocFail sumTree ib fresh fresh e
  | .ok () =>
    match ← insertKey blocksTree (keyByU64 ib.vblock) ib.block false with
    | .error e => inodeBlockAllocFail sumTree ib fresh fresh e
    | .ok () => return .ok ib

/-- Source: `core/inode.c` `nkfs_inode_block_alloc` -/
def inodeBlockAlloc (inode : Inode) (vblock : ℕ) : M (Except Errno InodeBlock) := do
  let blocksTree ← derefTree inode.blocksTree
  let sumTree ← derefTree inode.blocksSumTree
  match ← blockAlloc with
  | .error e => return .error e
  | .ok block =>
    let sum := blockToSumBlock vblock blockSize
    let ib : InodeBlock :=
      { vblock := vblock, block := block, vsumBlock := sum.1, sumBlock := 0, sumOff := sum.2 }
    match ← findKey sumTree (keyByU64 ib.vsumBlock) with
    | .ok sumBlock => inodeBlockAllocMap blocksTree sumTree { ib with sumBlock := sumBlock } false
    | .error _ =>
      match ← blockAlloc with
      | .error e => inodeBlockAllocFail sumTree ib false false e
      | .ok sumBlock =>
        let ib := { ib with sumBlock := sumBlock }
        match ← insertKey sumTree (keyByU64 ib.vsumBlock) sumBlock false with
        | .error e => inodeBlockAllocFail sumTree ib true false e
        | .ok () => inodeBlockAllocMap blocksTree sumTree ib true

/-- Source: `core/inode.c` `nkfs_inode_block_read` -/
def inodeBlockRead (inode : Inode) (vblock : ℕ) : M (Except Errno InodeBlock) := do
  let blocksTree ← derefTree inode.blocksTree
  let sumTree ← derefTree inode.blocksSumTree
  match ← findKey blocksTree (keyByU64 vblock) with
  | .error e => return .error e
  | .ok block =>
    let sum := blockToSumBlock vblock blockSize
    match ← findKey sumTree (keyByU64 sum.1) with
    | .error e => return .error e
    | .ok sumBlock =>
      let ib : InodeBlock :=
        { vblock := vblock, block := block, vsumBlock := sum.1, sumBlock := sumBlock,
          sumOff := sum.2 }
      match ← openClus ib with
      | .error e => return .error e
      | .ok () => return .ok ib

/-- Source: `core/inode.c` `nkfs_inode_block_read_create` -/
def inodeBlockReadCreate (inode : Inode) (vblock : ℕ) : M (Except Errno InodeBlock) := do
  match ← inodeBlockRead inode vblock with
  | .error _ =>
    match ← inodeBlockAlloc inode vblock with
    | .error e => return .error e
    | .ok ib =>
      inodeBlockWrite ib
      return .ok ib
  | .ok ib =>
    match ← inodeBlockCheckSum ib with
    | .error e => return .error e
    | .ok () => return .ok ib

/-! ### Reading and writing bytes -/

/-- What a read or write of one block returns: the inode, the page, and the number of bytes and the
end-of-file flag, or an error. -/
abbrev BufResult := Inode × Mem × Except Errno (ℕ × Bool)

/-- Into `buf` at `pos`. Only the paths that return before the block is read give the first read
hold back; the second is given back at once.
Source: `core/inode.c` `nkfs_inode_read_block_buf` -/
def readBlockBuf (inode : Inode) (vblock off : ℕ) (buf : Mem) (pos len : ℕ) : M BufResult := do
  if off + len > blockSize then stop .bug
  else
    let dataOff := u64 (vblock * blockSize + off)
    if dataOff > inode.size then return (inode, buf, .error .erange)
    else if dataOff = inode.size then return (inode, buf, .ok (0, true))
    else
      let held := { inode with readers := inode.readers + 1 }
      match ← inodeBlockRead inode vblock with
      | .error e => return (held, buf, .error e)
      | .ok ib =>
        match ← inodeBlockCheckSum ib with
        | .error e => return (held, buf, .error e)
        | .ok () =>
          let eof := u64 (dataOff + len) ≥ inode.size
          let llen := if eof then inode.size - dataOff else len
          let s ← get
          let src := fun i => s.clus ib.block (off + i)
          return (held, copyIn buf pos src llen, .ok (llen, eof))

/-- The bytes `[pos, pos + len)` of `buf` to `off` of the data cluster: `dio_clu_write`. -/
def cluWrite (ib : InodeBlock) (off : ℕ) (buf : Mem) (pos len : ℕ) : M Unit := do
  let s ← get
  set (s.writeClu ib.block (copyIn (s.clus ib.block) off (fun i => buf (pos + i)) len))

/-- The size update of `nkfs_inode_write_block_buf` under the write hold. -/
def sizeUpdate (inode : Inode) (dataEnd : ℕ) : M (Inode × Except Errno Unit) := do
  if inode.readers ≠ 0 then stop .deadlock
  else if dataEnd > inode.size then inodeWriteDirty (inode.setSize dataEnd)
  else return (inode, .ok ())

/-- From `buf` at `pos`. Source: `core/inode.c` `nkfs_inode_write_block_buf` -/
def writeBlockBuf (inode : Inode) (vblock off : ℕ) (buf : Mem) (pos len : ℕ) : M BufResult := do
  if off + len > blockSize then stop .bug
  else
    match ← inodeBlockReadCreate inode vblock with
    | .error e => return (inode, buf, .error e)
    | .ok ib =>
      cluWrite ib off buf pos len
      inodeBlockWrite ib
      match ← sizeUpdate inode (u64 (vblock * blockSize + off + len)) with
      | (inode, .error e) => return (inode, buf, .error e)
      | (inode, .ok ()) => return (inode, buf, .ok (len, false))

/-- The branch on `write` of `nkfs_inode_io_buf`. -/
def ioBlockBuf (write : Bool) : Inode → ℕ → ℕ → Mem → ℕ → ℕ → M BufResult :=
  if write then writeBlockBuf else readBlockBuf

/-- The loop of `nkfs_inode_io_buf`: `res` bytes left, `sum` bytes done. -/
def ioBufLoop (write : Bool) : ℕ → Inode → ℕ → ℕ → Mem → ℕ → ℕ → ℕ → M BufResult
  | 0, _, _, _, _, _, _, _ => stop .fuel
  | fuel + 1, inode, vblock, loff, buf, pos, res, sum => do
    if res = 0 then return (inode, buf, .ok (sum, false))
    else
      let llen := if res + loff > blockSize then blockSize - loff else res
      match ← ioBlockBuf write inode vblock loff buf pos llen with
      | (inode, buf, .error e) => return (inode, buf, .error e)
      | (inode, buf, .ok (ioCount, eof)) =>
        if eof then return (inode, buf, .ok (sum + ioCount, true))
        else if llen ≠ ioCount then stop .bug
        else
          ioBufLoop write fuel inode (u64 (vblock + 1)) 0 buf (pos + llen) (res - llen)
            (sum + ioCount)

/-- Every round takes at least one byte. Source: `core/inode.c` `nkfs_inode_io_buf` -/
def ioBuf (write : Bool) (inode : Inode) (off : ℕ) (buf : Mem) (pos len : ℕ) : M BufResult :=
  ioBufLoop write (len + 1) inode (off / blockSize) (off % blockSize) buf pos len 0

/-- What a request on pages returns: the inode, the pages, and the number of bytes or an error. -/
abbrev PagesResult := Inode × (ℕ → Mem) × Except Errno ℕ

/-- The loop of `nkfs_inode_io_pages`, with the number of pages left, from page `i` on: `len` bytes
left, `sum` bytes done. -/
def ioPagesLoop (write : Bool) : ℕ → Inode → ℕ → ℕ → ℕ → (ℕ → Mem) → ℕ → ℕ → M PagesResult
  | 0, inode, _, _, len, pages, _, sum =>
    return (inode, pages, if len = 0 then .ok sum else .error .einval)
  | nrPages + 1, inode, off, pgOff, len, pages, i, sum => do
    if len = 0 then return (inode, pages, .ok sum)
    else
      let llen := if len + pgOff > pageSize then pageSize - pgOff else len
      match ← ioBuf write inode off (pages i) pgOff llen with
      | (inode, buf, .error e) => return (inode, Function.update pages i buf, .error e)
      | (inode, buf, .ok (ioCount, eof)) =>
        if eof then return (inode, Function.update pages i buf, .ok (sum + ioCount))
        else if ioCount ≠ llen then stop .bug
        else
          ioPagesLoop write nrPages inode (u64 (off + llen)) 0 (len - llen)
            (Function.update pages i buf) (i + 1) (sum + ioCount)

/-- Source: `core/inode.c` `nkfs_inode_io_pages` -/
def ioPages (write : Bool) (inode : Inode) (off pgOff len : ℕ) (pages : ℕ → Mem) (nrPages : ℕ) :
    M PagesResult := ioPagesLoop write nrPages inode off pgOff len pages 0 0

end Nkfs
