import Mathlib

/-!
# Constants of the image

The constants of `include/nkfs_image.h` and `include/nkfs_const.h` that more than one module reads.
-/

namespace Nkfs

/-- `PAGE_SIZE`. -/
def pageSize : ℕ := 4096

/-- `NKFS_BLOCK_SIZE`: a block of the image and a cluster of the cluster cache. -/
def blockSize : ℕ := 64 * 1024

/-- `NKFS_BTREE_T`. -/
def btreeT : ℕ := 896

/-- `NKFS_BTREE_KEY_PAGES`. -/
def btreeKeyPages : ℕ := 7

/-- `NKFS_BTREE_CHILD_PAGES`. -/
def btreeChildPages : ℕ := 4

/-- `NKFS_BTREE_VALUE_PAGES`. -/
def btreeValuePages : ℕ := 4

/-- `NKFS_BTREE_SIG1`. -/
def btreeSig1 : ℕ := 0xCBACBADA

/-- `NKFS_BTREE_SIG2`. -/
def btreeSig2 : ℕ := 0x3EFFEEFE

/-- `NKFS_NET_PKT_MAX_DSIZE`: the largest payload of one request. -/
def netPktMaxDsize : ℕ := 512 * 1024

end Nkfs
