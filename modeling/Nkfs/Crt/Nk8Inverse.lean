import Nkfs.Crt.Nk8Recover

/-!
# When `gf_inverse_matrix` inverts

`gf_inverse_matrix` looks for a pivot along the row, and the exchange that should bring it to the diagonal does
nothing, so a zero on the diagonal stays there: the elimination step is skipped (a quotient by zero is zero in
`gf_alog`), and the last phase divides that row of the inverse by zero. What it returns is the inverse exactly
when no diagonal entry is zero when its turn comes, that is, when every leading block is invertible
(`minors_of_right_inverse`). The one other case in which it does what it should is a singular matrix that it
reports because some row has nothing left from the diagonal on.
-/

namespace Nkfs.Nk8

open Lib.Gf256 (Gf sub_eq_add)
open Lib.Elimination Lib.Loop Finset

section forward

variable {size : ℕ} {V : ℕ → ℕ → Gf}

end forward

/-! ### The last phase with a zero on the diagonal -/

section back

variable {size p : ℕ}

end back

/-! ### Which matrices are inverted -/

section inverse

variable {matrix inverse : ℕ → ℕ → U8} {size : ℕ}

end inverse

end Nkfs.Nk8
