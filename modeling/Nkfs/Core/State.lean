import Nkfs.Errno
import Nkfs.Image.Const
import Nkfs.Lib.Bytes
import Nkfs.Lib.Program

/-!
# The superblock state

The state of one mounted device as the code of `core/` sees it, with everything that is reached
through block numbers keyed by block number.

A B-tree node is read and written through the node cache, and every change of a node is followed by
`nkfs_btree_node_write`, so the in-memory node of a block is the node last written there: `nodes`
holds it, with the field `block` that `nkfs_btree_node_delete` zeroes. `inodes` holds the inode last
written to a block, and `clus` the bytes of every cluster; writing a node or an inode lays its image
over them (`Env.nodeImage`, `Env.inodeImage`). The allocation bitmap is `bm`.

`Env` is what the device and the machine decide: its size, the checksum function and which
allocations fail.
-/

namespace Nkfs

open Lib.Bytes List

/-! ### Keys -/

/-- 16 bytes. Source: `include/nkfs_image.h` `struct nkfs_btree_key` -/
def Key : Type := {l : List (Fin 256) // l.length = 16}

instance : LinearOrder Key := inferInstanceAs (LinearOrder {l : List (Fin 256) // l.length = 16})

/-- `memcmp` on the bytes of two keys. -/
def memcmp : List (Fin 256) → List (Fin 256) → Ordering
  | a :: as, b :: bs => if a < b then .lt else if b < a then .gt else memcmp as bs
  | _, _ => .eq

lemma memcmp_eq_compare : ∀ {l k : List (Fin 256)}, l.length = k.length →
    (memcmp l k = .lt ↔ l < k) ∧ (memcmp l k = .gt ↔ k < l)
  | [], [], _ => by simp [memcmp]
  | a :: l, b :: k, h => by
    have ih := memcmp_eq_compare (l := l) (k := k) (by simpa using h)
    rw [memcmp, cons_lt_cons_iff, cons_lt_cons_iff]
    rcases lt_trichotomy a b with hab | hab | hab
    · simp [hab, hab.not_gt, hab.ne']
    · subst hab
      simpa using ih
    · simp [hab, hab.not_gt, hab.ne']

/-- Source: `core/btree.c` `nkfs_btree_cmp_key` -/
def cmpKey (key1 key2 : Key) : Ordering := memcmp key1.1 key2.1

lemma cmpKey_lt_iff {a b : Key} : cmpKey a b = .lt ↔ a < b :=
  (memcmp_eq_compare (a.2.trans b.2.symm)).1

lemma cmpKey_gt_iff {a b : Key} : cmpKey a b = .gt ↔ b < a :=
  (memcmp_eq_compare (a.2.trans b.2.symm)).2

lemma cmpKey_eq_iff {a b : Key} : cmpKey a b = .eq ↔ a = b := by
  have hlt := cmpKey_lt_iff (a := a) (b := b)
  have hgt := cmpKey_gt_iff (a := a) (b := b)
  rcases lt_trichotomy a b with h | h | h
  · rw [hlt.mpr h]
    exact ⟨fun h' => (nomatch h'), fun h' => absurd h' h.ne⟩
  · subst h
    rcases hc : cmpKey a a with _ | _ | _
    · exact absurd (hlt.mp hc) (lt_irrefl a)
    · simp
    · exact absurd (hgt.mp hc) (lt_irrefl a)
  · rw [hgt.mpr h]
    exact ⟨fun h' => (nomatch h'), fun h' => absurd h' h.ne'⟩

/-- All bytes zero. -/
def Key.zero : Key := ⟨List.replicate 16 0, List.length_replicate⟩

/-- Byte `i` of a number in little-endian order. -/
def leByte (v i : ℕ) : Fin 256 := ⟨v / 256 ^ i % 256, Nat.mod_lt _ (by decide)⟩

/-- The eight bytes of a `u64` in memory order, then zeros.
Source: `core/btree.c` `nkfs_btree_key_by_u64` -/
def keyByU64 (val : ℕ) : Key :=
  ⟨(List.range 8).map (leByte val) ++ List.replicate 8 0, by simp⟩

lemma keyByU64_injective {u v : ℕ} (hu : u < 2 ^ 64) (hv : v < 2 ^ 64)
    (h : keyByU64 u = keyByU64 v) : u = v := by
  have hmap : (range 8).map (leByte u) = (range 8).map (leByte v) :=
    append_cancel_right (congrArg Subtype.val h)
  have hbyte : ∀ i < 8, u / 256 ^ i % 256 = v / 256 ^ i % 256 := fun i hi =>
    congrArg Fin.val (map_inj_left.mp hmap i (mem_range.mpr hi))
  have h0 := hbyte 0 (by decide)
  have h1 := hbyte 1 (by decide)
  have h2 := hbyte 2 (by decide)
  have h3 := hbyte 3 (by decide)
  have h4 := hbyte 4 (by decide)
  have h5 := hbyte 5 (by decide)
  have h6 := hbyte 6 (by decide)
  have h7 := hbyte 7 (by decide)
  norm_num at h0 h1 h2 h3 h4 h5 h6 h7
  omega

/-! ### Nodes and inodes -/

/-- A node in memory: key and value slot `i` together in `kv i`, child slot `i` in `child i`, and
`page p` for `node->children[p] != NULL` (child page `p` holds the slots `512 p .. 512 p + 511`).
`t`, `sig1` and `sig2` never change and are left out.
Source: `core/btree.h` `struct nkfs_btree_node` -/
structure Node where
  block : ℕ
  leaf : Bool
  nrKeys : ℕ
  kv : ℕ → Key × ℕ
  child : ℕ → ℕ
  page : ℕ → Bool

/-- A node as `nkfs_btree_node_alloc(1)` returns it: every slot zero. -/
def Node.zero : Node where
  block := 0
  leaf := false
  nrKeys := 0
  kv := fun _ => (Key.zero, 0)
  child := fun _ => 0
  page := fun _ => true

/-- Source: `include/nkfs_image.h` `struct nkfs_inode_disk` -/
structure InodeDisk where
  ino : Key
  size : ℕ
  blocksTreeBlock : ℕ
  blocksSumTreeBlock : ℕ

/-- A tree in memory: the block its root node was created or read at, and the flag that makes its
operations return `-EAGAIN`. Source: `core/btree.h` `struct nkfs_btree` -/
structure Tree where
  root : ℕ
  releasing : Bool

/-! ### The state -/

/-- What the device and the machine decide. -/
structure Env where
  /-- Number of blocks of the device. -/
  nrBlocks : ℕ
  /-- Number of bitmap blocks; they start at block 1. -/
  bmBlocks : ℕ
  /-- The checksum of a byte string. -/
  csum : List UInt8 → UInt64
  /-- A cluster after a node was written over it. -/
  nodeImage : Node → Mem → Mem
  /-- A cluster after an inode was written over it. -/
  inodeImage : InodeDisk → Mem → Mem
  /-- Whether the `n`-th allocation of a node or of a block fails. -/
  fails : ℕ → Bool

/-- Source: `core/super.h` `struct nkfs_sb`, with the contents of its device -/
structure Sb where
  env : Env
  /-- Bit of a block in the allocation bitmap. -/
  bm : ℕ → Bool
  /-- `atomic64_t used_blocks`. -/
  usedBlocks : ℤ
  /-- Node last written at a block. -/
  nodes : ℕ → Option Node
  /-- Inode last written at a block. -/
  inodes : ℕ → Option InodeDisk
  /-- Bytes of a cluster. -/
  clus : ℕ → Mem
  inodesTree : Tree
  stopping : Bool
  /-- Number of allocations tried so far. -/
  tick : ℕ
  /-- Number of allocations that failed so far. -/
  allocFails : ℕ

/-- How a run can go wrong. -/
inductive Fault where
  /-- An `NKFS_BUG_ON` fired. -/
  | bug
  /-- An access outside an array. -/
  | oob
  /-- A `NULL` pointer was dereferenced. -/
  | null
  /-- A lock was taken that can never be granted. -/
  | deadlock
  /-- A loop of the model ran out of its bound. -/
  | fuel
  deriving DecidableEq, Repr

/-- The code's functions: they change the superblock state and may fault. -/
abbrev M := Lib.Program.Prog Sb Fault

/-- Outcome of the next allocation of a node or of a block, as the environment decides it. -/
def nextAlloc : M Bool := do
  let s ← get
  let ok := !s.env.fails s.tick
  set { s with
    tick := s.tick + 1
    allocFails := if ok then s.allocFails else s.allocFails + 1 }
  return ok

end Nkfs
