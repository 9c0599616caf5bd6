import Mathlib

/-!
# Return codes

A C function that returns `int` is modelled by `Except Errno α`: `.ok` for 0 together with what the
function hands back through its pointers, `.error e` for `-e`.
-/

namespace Nkfs

/-- The error codes the modelled functions return. -/
inductive Errno where
  | enoent
  | eio
  | enomem
  | eagain
  | efault
  | eexist
  | einval
  | enospc
  | erange
  /-- `NKFS_E_LIMIT` -/
  | elimit
  deriving DecidableEq, Repr

/-- How code that counts references can go wrong. -/
inductive RefFault where
  /-- An `NKFS_BUG_ON` fired. -/
  | bug
  /-- Freed memory was accessed. -/
  | freed
  deriving DecidableEq, Repr

end Nkfs
