import Nkfs.Core.Inode

/-!
# The superblock (`core/super.c`)

`nkfs_sb_format` and the four requests on objects. A request finds the inode block in `inodes_tree`,
reads the inode and works on it; it drops the inode at its end, so that the next request reads it
again.
-/

namespace Nkfs

open Lib.Bytes Lib.Program

/-! ### Formatting a device -/

/-- The quotient rounded up, as `nkfs_div_round_up` of `core/helpers.h` computes it while its sum stays below
`2^64`. -/
def divRoundUp (x y : ℕ) : ℕ := if x % y ≠ 0 then x / y + 1 else x / y

/-- Number of bitmap blocks of a device of `size` bytes. Source: `core/super.c` `nkfs_sb_gen_header` -/
def genHeader (size : ℕ) : Except Errno ℕ :=
  if size % blockSize ≠ 0 ∨ size ≤ blockSize then .error .einval
  else
    let bmBlocks := divRoundUp (divRoundUp (size / blockSize) 8) blockSize
    if size ≤ (1 + bmBlocks) * blockSize then .error .einval else .ok bmBlocks

/-- Source: `core/balloc.c` `nkfs_balloc_bm_clear` -/
def bmClear : M Unit := do
  let s ← get
  set { s with bm := fun _ => false, usedBlocks := 0 }

/-- The loop of `nkfs_sb_format` over the blocks before the first free one. -/
def markBlocks : List ℕ → M (Except Errno Unit)
  | [] => return .ok ()
  | i :: is => do
    match ← blockMark i true with
    | .error e => return .error e
    | .ok () => markBlocks is

/-- On a device of `size` bytes. Source: `core/super.c` `nkfs_sb_format` -/
def sbFormat (size : ℕ) : M (Except Errno Unit) := do
  if ← nextAlloc then
    match genHeader size with
    | .error e => return .error e
    | .ok bmBlocks =>
      let s ← get
      set { s with env := { s.env with nrBlocks := size / blockSize, bmBlocks := bmBlocks } }
      bmClear
      match ← markBlocks (List.range (1 + bmBlocks)) with
      | .error e => return .error e
      | .ok () =>
        match ← btreeCreate 0 with
        | none => return .error .enomem
        | some tree =>
          let s ← get
          set { s with inodesTree := tree, stopping := false }
          return .ok ()
  else return .error .enomem

/-! ### Requests -/

/-- The object id that `nkfs_obj_id_gen` drew is `objId`.
Source: `core/super.c` `nkfs_sb_create_obj` -/
def sbCreateObj (objId : Key) : M (Except Errno Unit) := do
  let s ← get
  if s.stopping then return .error .eagain
  else
    match ← inodeCreate objId with
    | none => return .error .enomem
    | some inode =>
      match ← insertKey s.inodesTree inode.ino inode.block false with
      | .error e =>
        let _ ← inodeDelete inode
        return .error e
      | .ok () => return .ok ()

/-- `nkfs_btree_find_key` on `inodes_tree` and `nkfs_inode_read`, as every request on an object
begins: the inode block and the inode. -/
def sbFindInode (id : Key) : M (Except Errno (ℕ × Inode)) := do
  let s ← get
  if s.stopping then return .error .eagain
  else
    match ← findKey s.inodesTree id with
    | .error e => return .error e
    | .ok iblock =>
      match ← inodeRead iblock with
      | none => return .error .eio
      | some inode => return .ok (iblock, inode)

/-- The pages afterwards and the number of bytes read.
Source: `core/super.c` `nkfs_sb_get_obj` -/
def sbGetObj (id : Key) (off pgOff len : ℕ) (pages : ℕ → Mem) (nrPages : ℕ) :
    M ((ℕ → Mem) × Except Errno ℕ) := do
  match ← sbFindInode id with
  | .error e => return (pages, .error e)
  | .ok (iblock, inode) =>
    if inode.block ≠ iblock then stop .bug
    else if inode.ino ≠ id then return (pages, .error .enoent)
    else
      let (_, pages, r) ← ioPages false inode off pgOff len pages nrPages
      return (pages, r)

/-- Source: `core/super.c` `nkfs_sb_put_obj` -/
def sbPutObj (id : Key) (off pgOff len : ℕ) (pages : ℕ → Mem) (nrPages : ℕ) :
    M (Except Errno Unit) := do
  match ← sbFindInode id with
  | .error e => return .error e
  | .ok (iblock, inode) =>
    if inode.block ≠ iblock then stop .bug
    else
      match ← ioPages true inode off pgOff len pages nrPages with
      | (_, _, .error e) => return .error e
      | (_, _, .ok _) => return .ok ()

/-- The result of `nkfs_btree_delete_key` is dropped.
Source: `core/super.c` `nkfs_sb_delete_obj` -/
def sbDeleteObj (id : Key) : M (Except Errno Unit) := do
  match ← sbFindInode id with
  | .error e => return .error e
  | .ok (_, inode) =>
    let s ← get
    let _ ← deleteKey s.inodesTree inode.ino
    let _ ← inodeDelete inode
    return .ok ()

end Nkfs
