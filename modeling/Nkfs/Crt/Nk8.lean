import Nkfs.Errno
import Nkfs.Lib.Elimination
import Nkfs.Lib.Gf256
import Nkfs.Lib.Loop

/-!
# The N-K erasure code (`crt/nk8.c`)

`nk8_split_block` cuts a block into stripes of `k` bytes (the last one zero-padded) and makes `n`
parts out of them: byte `j` of the part with id `x` is the stripe, read as a polynomial over
GF(256), evaluated at `x`. `nk8_assemble_block` takes the first `k` parts with distinct ids, inverts
the Vandermonde matrix of these ids with `gf_inverse_matrix` and multiplies.

`gf_inverse_matrix` never exchanges rows (`gf_swap` gets its arguments by value), so it is correct
only on matrices whose leading blocks are all invertible. The Vandermonde matrix of distinct points
is one, which is what carries `assembleBlock_splitBlock`.

Bytes are `BitVec 8`, `^` on bytes is addition in the field `Lib.Gf256.Gf`, and the lookup tables
`gf_log` and `gf_alog` that `nk8_init` fills are the functions they are filled from.
-/

namespace Nkfs.Nk8

open Lib.Gf256 Lib.Elimination Lib.Loop Finset

/-- A byte. -/
abbrev U8 := BitVec 8

/-! ### Arithmetic of GF(256) -/

/-- The multiplication loop of `gf_mult_direct` for `i = n - 1, .., 0`, with the accumulator `k` and
the factor `m` whose leading bits have been consumed. -/
def gfMultLoop (n : ℕ) : ℕ → ℕ → ℕ → ℕ
  | 0, k, _ => k
  | i + 1, k, m =>
    if m >>> i ≠ 0 then gfMultLoop n i (k ^^^ (n <<< i)) (m ^^^ (1 <<< i))
    else gfMultLoop n i k m

/-- The reduction loop of `gf_mult_direct` for `i = 7 + j, .., 8`. -/
def gfReduceLoop : ℕ → ℕ → ℕ
  | 0, k => k
  | j + 1, k => gfReduceLoop j (if k >>> (j + 8) ≠ 0 then k ^^^ (283 <<< j) else k)

/-- Source: `crt/nk8.c` `gf_mult_direct` -/
def gfMultDirect (m n : U8) : U8 :=
  if m = 0 ∨ n = 0 then 0
  else
    let k := gfMultLoop n.toNat 8 0 m.toNat
    let k := if k >>> 8 ≠ 0 then gfReduceLoop 8 k else k
    BitVec.ofNat 8 k

/-- The table `gf_log`. Source: `crt/nk8.c` `gf_init`, `gf_mult` -/
def gfMult (a b : U8) : U8 := gfMultDirect a b

/-- Source: `crt/nk8.c` `gf_div_brute` -/
def gfDivBrute (i j : U8) : U8 :=
  if i = 0 ∨ j = 0 then 0
  else
    match (List.range' 1 255).find? fun k => gfMult (BitVec.ofNat 8 k) j = i with
    | some k => BitVec.ofNat 8 k
    | none => 0

/-- The table `gf_alog`. Source: `crt/nk8.c` `gf_init`, `gf_div` -/
def gfDiv (a b : U8) : U8 := gfDivBrute a b

/-! ### `gf_inverse_matrix` -/

/-- Row `r` of `matrix` and of `inverse`. -/
abbrev Rows := ℕ → (ℕ → U8) × (ℕ → U8)

/-- The body of the elimination loop on a row below the pivot row `i`. -/
def elimRow (size i : ℕ) (pivot row : (ℕ → U8) × (ℕ → U8)) : (ℕ → U8) × (ℕ → U8) :=
  let tmp := gfDiv (row.1 i) (pivot.1 i)
  (fun m => if i ≤ m ∧ m < size then row.1 m ^^^ gfMult (pivot.1 m) tmp else row.1 m,
    fun m => if m < size then row.2 m ^^^ gfMult (pivot.2 m) tmp else row.2 m)

/-- `for (k = i+1; k < size; k++)` over `elimRow`. -/
def elimRows (size i : ℕ) (S : Rows) : Rows :=
  (List.range' (i + 1) (size - (i + 1))).foldl
    (fun S k => Function.update S k (elimRow size i (S i) (S k))) S

/-- The forward phase for the pivot rows of a list: a row with no non-zero entry from the diagonal
on makes the inversion fail. Where the search stops right of the diagonal, the exchange that follows
changes nothing, and the elimination runs with `matrix[i][i]` all the same. -/
def forwardLoop (size : ℕ) : List ℕ → Rows → Except Errno Rows
  | [], S => .ok S
  | i :: rest, S =>
    if (List.range' i (size - i)).any fun j => (S i).1 j ≠ 0 then
      forwardLoop size rest (elimRows size i S)
    else .error .efault

/-- The body of the back-substitution loop on a row above the pivot row `i`. -/
def backRow (size i : ℕ) (pivot row : (ℕ → U8) × (ℕ → U8)) : (ℕ → U8) × (ℕ → U8) :=
  let tmp := gfDiv (row.1 i) (pivot.1 i)
  (Function.update row.1 i 0,
    fun k => if k < size then row.2 k ^^^ gfMult tmp (pivot.2 k) else row.2 k)

/-- `inverse[i][k] = gf_div(inverse[i][k], matrix[i][i])` for every `k`. -/
def divRow (size i : ℕ) (row : (ℕ → U8) × (ℕ → U8)) : (ℕ → U8) × (ℕ → U8) :=
  (row.1, fun k => if k < size then gfDiv (row.2 k) (row.1 i) else row.2 k)

/-- One pass of `for (i = size - 1; i > 0; i--)`: rows `j = i - 1, .., 0`, then row `i`. -/
def backStep (size i : ℕ) (S : Rows) : Rows :=
  let S := (List.range i).reverse.foldl
    (fun S j => Function.update S j (backRow size i (S i) (S j))) S
  Function.update S i (divRow size i (S i))

/-- Source: `crt/nk8.c` `gf_inverse_matrix` -/
def gfInverseMatrix (matrix : ℕ → ℕ → U8) (size : ℕ) : Except Errno (ℕ → ℕ → U8) :=
  let S : Rows := fun r => (matrix r, fun j => if r ≠ j then 0 else 1)
  match forwardLoop size (List.range size) S with
  | .error e => .error e
  | .ok S =>
    let S := (List.range' 1 (size - 1)).reverse.foldl (fun S i => backStep size i S) S
    .ok fun r => (Function.update S 0 (divRow size 0 (S 0)) r).2

/-! ### Splitting -/

/-- `MAX_K`. -/
def maxK : ℕ := 254
/-- `MAX_N`. -/
def maxN : ℕ := 255
/-- `MIN_N`. -/
def minN : ℕ := 2
/-- `MIN_K`. -/
def minK : ℕ := 2

/-- Source: `crt/nk8.c` `nk8_part_size` -/
def partSize (blockSize k : ℕ) : ℕ := blockSize / k + if blockSize % k ≠ 0 then 1 else 0

/-- The parameter test at the head of both functions. -/
def paramsOk (blockSize n k : ℕ) : Bool :=
  !(n < minN || k < minK || blockSize == 0 || n < k || n > maxN || k > maxK)

/-- `part_size` and `tail_size` after the test `part_size*k > block_size`, whose product is a
`u32`. -/
def stripes (blockSize k : ℕ) : ℕ × ℕ :=
  let ps := partSize blockSize k
  if ps * k % 2 ^ 32 > blockSize then (ps - 1, blockSize - (ps - 1) * k) else (ps, 0)

/-- Draws of `rand_u32_up(255)` until `n` further ids are found; `none` when the draws run out. -/
def genPartIdsLoop : List (Fin 255) → ℕ → List U8 → Option (List U8)
  | _, 0, ids => some ids
  | [], _ + 1, _ => none
  | r :: draws, n + 1, ids =>
    let cand := BitVec.ofNat 8 (1 + r)
    if cand ∈ ids then genPartIdsLoop draws (n + 1) ids
    else genPartIdsLoop draws n (ids ++ [cand])

/-- Source: `crt/nk8.c` `nk8_gen_part_ids` -/
def genPartIds (draws : List (Fin 255)) (n : ℕ) : Option (List U8) := genPartIdsLoop draws n []

/-- `svector[0] = 1; svector[j] = gf_mult(svector[j-1], id)`. -/
def svector (id : U8) : ℕ → U8
  | 0 => 1
  | j + 1 => gfMult (svector id j) id

/-- `curr = 0; for (m = 0; m < k; m++) curr ^= gf_mult(a[m], b[m])`. -/
def dot (k : ℕ) (a b : ℕ → U8) : U8 :=
  (List.range k).foldl (fun curr m => curr ^^^ gfMult (a m) (b m)) 0

/-- The zero-padded copy of the last `tailSize` bytes. -/
def tailBytes (block : ℕ → U8) (blockSize tailSize : ℕ) : ℕ → U8 := fun m =>
  if m < tailSize then block (blockSize - tailSize + m) else 0

/-- `parts[i][j]` for the ids `ids` that `nk8_gen_part_ids` drew; `inited` is set by `nk8_init`.
Source: `crt/nk8.c` `nk8_split_block` -/
def splitBlock (inited : Bool) (block : ℕ → U8) (blockSize n k : ℕ) (ids : ℕ → U8) :
    Except Errno (ℕ → ℕ → U8) :=
  if !paramsOk blockSize n k then .error .einval
  else if !inited then .error .eagain
  else
    let (ps, tailSize) := stripes blockSize k
    .ok fun i j =>
      if j < ps then dot k (svector (ids i)) fun m => block (j * k + m)
      else if tailSize ≠ 0 ∧ j = ps then
        dot k (svector (ids i)) (tailBytes block blockSize tailSize)
      else 0

/-! ### Assembling -/

/-- The loop that picks the parts: the indices with an id not seen before, until there are `k`. -/
def selectLoop (ids : ℕ → U8) (k : ℕ) : List ℕ → List ℕ → List ℕ
  | [], acc => acc
  | i :: rest, acc =>
    let acc := if (List.range i).any fun j => ids i = ids j then acc else acc ++ [i]
    if acc.length = k then acc else selectLoop ids k rest acc

/-- `ormatrix`: ones, the ids, and each further row the previous one times the ids. -/
def ormatrix (ids : ℕ → U8) : ℕ → ℕ → U8
  | 0, _ => 1
  | 1, i => ids i
  | m + 2, i => gfMult (ormatrix ids (m + 1) i) (ids i)

/-- The `k` bytes of a stripe from the parts' bytes `sv`. -/
def decode (k : ℕ) (inmatrix : ℕ → ℕ → U8) (sv : ℕ → U8) (m : ℕ) : U8 :=
  dot k sv fun i => inmatrix i m

/-- `*sblock++ = ..` over all whole stripes. -/
def writeStripes (k ps : ℕ) (inmatrix : ℕ → ℕ → U8) (sparts : ℕ → ℕ → U8) (block : ℕ → U8) :
    ℕ → U8 :=
  (List.range ps).foldl (fun blk j =>
    (List.range k).foldl (fun blk m =>
      Function.update blk (j * k + m) (decode k inmatrix (fun i => sparts i j) m)) blk) block

/-- The return code and the contents of `block` afterwards.
Source: `crt/nk8.c` `nk8_assemble_block` -/
def assembleBlock (inited : Bool) (parts : ℕ → ℕ → U8) (ids : ℕ → U8) (n k : ℕ) (block : ℕ → U8)
    (blockSize : ℕ) : Except Errno Unit × (ℕ → U8) :=
  if !paramsOk blockSize n k then (.error .einval, block)
  else if !inited then (.error .eagain, block)
  else
    let (ps, tailSize) := stripes blockSize k
    let sel := selectLoop ids k (List.range n) []
    let sparts : ℕ → ℕ → U8 := fun i => parts (sel.getD i 0)
    let sids : ℕ → U8 := fun i => ids (sel.getD i 0)
    if sel.length < k then (.error .einval, block)
    else
      match gfInverseMatrix (ormatrix sids) k with
      | .error e => (.error e, block)
      | .ok inmatrix =>
        let block := writeStripes k ps inmatrix sparts block
        if tailSize ≠ 0 then
          let tail := decode k inmatrix fun i => sparts i ps
          (.ok (), fun o =>
            if blockSize - tailSize ≤ o ∧ o < blockSize then tail (o - (blockSize - tailSize))
            else block o)
        else (.ok (), block)

/-! ### `gf_mult` and `gf_div` are the field's operations -/

/-- What the multiplication loop accumulates: `n * x^j` for every bit `j < i` of `m`. -/
def polyProd (n m : ℕ) : ℕ → ℕ
  | 0 => 0
  | i + 1 => polyProd n m i ^^^ bif m.testBit i then n <<< i else 0

/-- The reduction loop with the tested bit alone. -/
def redBits : ℕ → ℕ → ℕ
  | 0, k => k
  | j + 1, k => redBits j (k ^^^ bif k.testBit (j + 8) then 283 <<< j else 0)

lemma shiftRight_ne_zero_iff {m i : ℕ} (h : m < 2 ^ (i + 1)) : m >>> i ≠ 0 ↔ m.testBit i := by
  rw [Nat.shiftRight_eq_div_pow, Nat.testBit_eq_decide_div_mod_eq]
  have hlt : m / 2 ^ i < 2 := by
    rw [Nat.div_lt_iff_lt_mul (Nat.two_pow_pos i), ← pow_succ']
    exact h
  rw [decide_eq_true_iff]
  generalize m / 2 ^ i = q at hlt ⊢
  omega

lemma xor_lt_of_testBit {m p i : ℕ} (hm : m < 2 ^ (i + 1)) (hp : p < 2 ^ (i + 1))
    (hmi : m.testBit i) (hpi : p.testBit i) : m ^^^ p < 2 ^ i := by
  refine Nat.lt_pow_two_of_testBit _ fun j hj => ?_
  rw [Nat.testBit_xor]
  rcases Nat.eq_or_lt_of_le hj with rfl | hj
  · rw [hmi, hpi]
    rfl
  · have hpow : 2 ^ (i + 1) ≤ 2 ^ j := Nat.pow_le_pow_right (by omega) hj
    rw [Nat.testBit_lt_two_pow (hm.trans_le hpow), Nat.testBit_lt_two_pow (hp.trans_le hpow)]
    rfl

lemma lt_of_not_testBit {m i : ℕ} (hm : m < 2 ^ (i + 1)) (hmi : m.testBit i = false) : m < 2 ^ i := by
  refine Nat.lt_pow_two_of_testBit _ fun j hj => ?_
  rcases Nat.eq_or_lt_of_le hj with rfl | hj
  · exact hmi
  · exact Nat.testBit_lt_two_pow (hm.trans_le (Nat.pow_le_pow_right (by omega) hj))

lemma polyProd_congr {n m m' : ℕ} : ∀ i, (∀ j < i, m.testBit j = m'.testBit j) →
    polyProd n m i = polyProd n m' i
  | 0, _ => rfl
  | i + 1, h => by
    rw [polyProd, polyProd, h i (by omega), polyProd_congr i fun j hj => h j (by omega)]

lemma gfMultLoop_eq (n : ℕ) : ∀ i k m, m < 2 ^ i → gfMultLoop n i k m = k ^^^ polyProd n m i
  | 0, k, _, _ => by simp [gfMultLoop, polyProd]
  | i + 1, k, m, hm => by
    rw [gfMultLoop, polyProd]
    by_cases hbit : m.testBit i
    · have hone : (1 <<< i).testBit i = true := by simp [Nat.testBit_shiftLeft]
      have hlow : ∀ j < i, (m ^^^ 1 <<< i).testBit j = m.testBit j := by
        intro j hj
        rw [Nat.testBit_xor, Nat.testBit_shiftLeft, decide_eq_false (by omega)]
        simp
      have hpow : 1 <<< i < 2 ^ (i + 1) := by
        rw [Nat.one_shiftLeft]
        exact Nat.pow_lt_pow_right (by omega) (by omega)
      have hlt : m ^^^ 1 <<< i < 2 ^ i := xor_lt_of_testBit hm hpow hbit hone
      rw [if_pos ((shiftRight_ne_zero_iff hm).mpr hbit), gfMultLoop_eq n i _ _ hlt,
        polyProd_congr i hlow, hbit, cond_true, Nat.xor_assoc,
        Nat.xor_comm (n <<< i) (polyProd n m i)]
    · rw [if_neg (mt (shiftRight_ne_zero_iff hm).mp hbit)]
      rw [Bool.not_eq_true] at hbit
      rw [gfMultLoop_eq n i k m (lt_of_not_testBit hm hbit), hbit, cond_false, Nat.xor_zero]

lemma gfReduceLoop_eq : ∀ j k, k < 2 ^ (j + 8) → gfReduceLoop j k = redBits j k
  | 0, _, _ => rfl
  | j + 1, k, hk => by
    have hk' : k < 2 ^ (j + 8 + 1) := by
      rw [show j + 8 + 1 = j + 1 + 8 by omega]
      exact hk
    rw [gfReduceLoop, redBits]
    by_cases hbit : k.testBit (j + 8)
    · have h283 : (283 <<< j).testBit (j + 8) = true := by
        rw [Nat.testBit_shiftLeft, decide_eq_true (by omega), show j + 8 - j = 8 by omega]
        decide
      have hlt : 283 <<< j < 2 ^ (j + 8 + 1) := by
        rw [Nat.shiftLeft_eq, show j + 8 + 1 = 9 + j by omega, pow_add]
        exact Nat.mul_lt_mul_of_pos_right (by decide) (Nat.two_pow_pos j)
      rw [if_pos ((shiftRight_ne_zero_iff hk').mpr hbit), hbit, cond_true,
        gfReduceLoop_eq j _ (xor_lt_of_testBit hk' hlt hbit h283)]
    · rw [if_neg (mt (shiftRight_ne_zero_iff hk').mp hbit)]
      rw [Bool.not_eq_true] at hbit
      rw [hbit, cond_false, Nat.xor_zero, gfReduceLoop_eq j k (lt_of_not_testBit hk' hbit)]

lemma cond_xor_left (b c : Bool) (x : ℕ) :
    (bif b ^^ c then x else 0) = (bif b then x else 0) ^^^ bif c then x else 0 := by
  cases b <;> cases c <;> simp

lemma xor4_comm (a b c d : ℕ) : a ^^^ b ^^^ (c ^^^ d) = a ^^^ c ^^^ (b ^^^ d) := by
  rw [Nat.xor_assoc, Nat.xor_assoc, ← Nat.xor_assoc b c d, Nat.xor_comm b c, Nat.xor_assoc c b d]

lemma polyProd_xor_left (n n' m : ℕ) : ∀ i, polyProd (n ^^^ n') m i = polyProd n m i ^^^ polyProd n' m i
  | 0 => by simp [polyProd]
  | i + 1 => by
    have hterm : (bif m.testBit i then (n ^^^ n') <<< i else 0) =
        (bif m.testBit i then n <<< i else 0) ^^^ bif m.testBit i then n' <<< i else 0 := by
      cases m.testBit i with
      | false => simp
      | true => exact Nat.shiftLeft_xor_distrib
    rw [polyProd, polyProd, polyProd, polyProd_xor_left n n' m i, hterm, xor4_comm]

lemma polyProd_xor_right (n m m' : ℕ) : ∀ i, polyProd n (m ^^^ m') i = polyProd n m i ^^^ polyProd n m' i
  | 0 => by simp [polyProd]
  | i + 1 => by
    rw [polyProd, polyProd, polyProd, polyProd_xor_right n m m' i, Nat.testBit_xor, cond_xor_left, xor4_comm]

lemma redBits_xor : ∀ j k k', redBits j (k ^^^ k') = redBits j k ^^^ redBits j k'
  | 0, _, _ => rfl
  | j + 1, k, k' => by
    rw [redBits, redBits, redBits, Nat.testBit_xor, cond_xor_left, xor4_comm, redBits_xor j]

lemma redBits_of_lt {k : ℕ} (hk : k < 2 ^ 8) : ∀ j, redBits j k = k
  | 0 => rfl
  | j + 1 => by
    have hbit : k.testBit (j + 8) = false :=
      Nat.testBit_lt_two_pow (hk.trans_le (Nat.pow_le_pow_right (by omega) (by omega)))
    rw [redBits, hbit, cond_false, Nat.xor_zero, redBits_of_lt hk j]

lemma polyProd_lt {n m : ℕ} (hn : n < 2 ^ 8) : ∀ i ≤ 8, polyProd n m i < 2 ^ 16
  | 0, _ => Nat.two_pow_pos 16
  | i + 1, hi => by
    refine Nat.xor_lt_two_pow (polyProd_lt hn i (by omega)) ?_
    cases m.testBit i with
    | false => exact Nat.two_pow_pos 16
    | true =>
      have hpow : 2 ^ i ≤ 2 ^ 8 := Nat.pow_le_pow_right (by omega) (by omega)
      rw [cond_true, Nat.shiftLeft_eq]
      calc n * 2 ^ i < 2 ^ 8 * 2 ^ i := Nat.mul_lt_mul_of_pos_right hn (Nat.two_pow_pos i)
        _ ≤ 2 ^ 8 * 2 ^ 8 := Nat.mul_le_mul_left _ hpow
        _ = 2 ^ 16 := by norm_num

/-- `gf_mult_direct` without its case distinctions. -/
def bilin (m n : U8) : U8 := BitVec.ofNat 8 (redBits 8 (polyProd n.toNat m.toNat 8))

lemma bilin_xor_left (m m' n : U8) : bilin (m ^^^ m') n = bilin m n ^^^ bilin m' n := by
  unfold bilin
  rw [BitVec.toNat_xor, polyProd_xor_right, redBits_xor, BitVec.ofNat_xor]

lemma bilin_xor_right (m n n' : U8) : bilin m (n ^^^ n') = bilin m n ^^^ bilin m n' := by
  unfold bilin
  rw [BitVec.toNat_xor, polyProd_xor_left, redBits_xor, BitVec.ofNat_xor]

/-- Both sides are additive in both arguments, so the 64 products of powers of `x` decide. -/
lemma bilin_eq_mul (m n : U8) : bilin m n = mul m n := by
  induction m using xor_induction with
  | zero =>
    induction n using xor_induction with
    | zero => decide
    | pow i hi => interval_cases i <;> decide
    | xor a b iha ihb => rw [bilin_xor_right, mul_xor, iha, ihb]
  | pow i hi =>
    induction n using xor_induction with
    | zero => interval_cases i <;> decide
    | pow j hj => interval_cases i <;> interval_cases j <;> decide
    | xor a b iha ihb => rw [bilin_xor_right, mul_xor, iha, ihb]
  | xor a b iha ihb => rw [bilin_xor_left, xor_mul, iha, ihb]

lemma gfMult_eq_mul (m n : U8) : gfMult m n = mul m n := by
  unfold gfMult gfMultDirect
  split_ifs with h
  · rcases h with rfl | rfl
    · exact (Lib.Gf256.zero_mul n).symm
    · exact (Lib.Gf256.mul_zero m).symm
  · rw [gfMultLoop_eq _ 8 0 _ m.isLt, Nat.zero_xor, ← bilin_eq_mul, bilin]
    refine congrArg (BitVec.ofNat 8) ?_
    split_ifs with hbig
    · exact gfReduceLoop_eq 8 _ (polyProd_lt n.isLt 8 le_rfl)
    · rw [not_not, Nat.shiftRight_eq_div_pow] at hbig
      exact (redBits_of_lt ((Nat.div_eq_zero_iff_lt (by decide)).mp hbig) 8).symm

/-- A byte as an element of the field. -/
def toGf (a : U8) : Gf := a

lemma toGf_injective : Function.Injective toGf := fun _ _ h => h

@[simp] lemma toGf_zero : toGf 0#8 = 0 := rfl

@[simp] lemma toGf_one : toGf 1#8 = 1 := rfl

@[simp] lemma toGf_xor (a b : U8) : toGf (a ^^^ b) = toGf a + toGf b := rfl

@[simp] lemma toGf_gfMult (a b : U8) : toGf (gfMult a b) = toGf a * toGf b := gfMult_eq_mul a b

/-- The search of `gf_div_brute` ends at a quotient if there is one. -/
lemma gfMult_gfDivBrute {i j q : U8} (hi : i ≠ 0) (hj : j ≠ 0) (hq : q ≠ 0)
    (hqj : gfMult q j = i) : gfMult (gfDivBrute i j) j = i := by
  have hfound : ((List.range' 1 255).find? fun k => gfMult (BitVec.ofNat 8 k) j = i).isSome := by
    rw [List.find?_isSome]
    refine ⟨q.toNat, ?_, ?_⟩
    · have hlt := q.isLt
      have hne : q.toNat ≠ 0 := fun h0 => hq (BitVec.eq_of_toNat_eq h0)
      rw [List.mem_range'_1]
      omega
    · rw [decide_eq_true_iff, BitVec.ofNat_toNat, BitVec.setWidth_eq]
      exact hqj
  obtain ⟨k, hk⟩ := Option.isSome_iff_exists.mp hfound
  have hki := List.find?_some hk
  rw [decide_eq_true_iff] at hki
  rw [gfDivBrute, if_neg (not_or.mpr ⟨hi, hj⟩), hk]
  exact hki

@[simp] lemma toGf_gfDiv (a b : U8) : toGf (gfDiv a b) = toGf a / toGf b := by
  by_cases h : a = 0 ∨ b = 0
  · rw [gfDiv, gfDivBrute, if_pos h]
    rcases h with rfl | rfl
    · exact (zero_div (toGf b)).symm
    · exact (div_zero (toGf a)).symm
  · obtain ⟨ha, hb⟩ := not_or.mp h
    have hb' : toGf b ≠ 0 := hb
    have hq : (show U8 from toGf a / toGf b) ≠ 0 := div_ne_zero (show toGf a ≠ 0 from ha) hb'
    have hmul := gfMult_gfDivBrute ha hb hq
      (toGf_injective ((toGf_gfMult _ _).trans (div_mul_cancel₀ (toGf a) hb')))
    exact eq_div_of_mul_eq hb' (by rw [← toGf_gfMult, gfDiv, hmul])

end Nkfs.Nk8
