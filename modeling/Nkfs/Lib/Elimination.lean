import Mathlib

/-!
# Gauss-Jordan elimination without row exchange

Matrices are functions of two indices, read below a size `n`. A run keeps two matrices: `A`, which
starts as the matrix `V` to invert, and `B`, which starts as the identity and receives every row
operation made on `A`. Forward step `i` clears column `i` below the diagonal; backward step `i`
clears column `i` above it, which needs no other change of `A` because row `i` has nothing left to
the right of the diagonal, and divides row `i` of `B` by the pivot.

Nothing exchanges rows, so the run works exactly while the pivots are non-zero. They are when every
leading square block of `V` is invertible (`pivot_ne_zero`), and then the state after backward step 0
holds a left inverse of `V` (`Backward.done`).
-/

namespace Lib.Elimination

open Finset

variable {F : Type*} [Field F] {n : ℕ}

/-- Entry `(k, m)` of the product of two `n × n` matrices. -/
def prodEntry (n : ℕ) (B V : ℕ → ℕ → F) (k m : ℕ) : F := ∑ l ∈ range n, B k l * V l m

/-- Row operations of forward step `i` on the matrix: below the pivot, from its column on. -/
def fwdA (n i : ℕ) (A : ℕ → ℕ → F) : ℕ → ℕ → F := fun k m =>
  if (i < k ∧ k < n) ∧ i ≤ m ∧ m < n then A k m - A i m * (A k i / A i i) else A k m

/-- The same row operations on the companion matrix. -/
def fwdB (n i : ℕ) (A B : ℕ → ℕ → F) : ℕ → ℕ → F := fun k m =>
  if (i < k ∧ k < n) ∧ m < n then B k m - B i m * (A k i / A i i) else B k m

/-- Backward step `i` on the matrix: column `i` above the diagonal becomes zero. -/
def bwdA (i : ℕ) (A : ℕ → ℕ → F) : ℕ → ℕ → F := fun j m => if j < i ∧ m = i then 0 else A j m

/-- Backward step `i` on the companion matrix: the row operations, then the division of row `i`. -/
def bwdB (n i : ℕ) (A B : ℕ → ℕ → F) : ℕ → ℕ → F := fun j m =>
  if m < n then
    if j < i then B j m - A j i / A i i * B i m else if j = i then B i m / A i i else B j m
  else B j m

/-! ### The forward run -/

/-- The state before forward step `i`. -/
structure Forward (n i : ℕ) (V A B : ℕ → ℕ → F) : Prop where
  /-- `B` carries the row operations made so far. -/
  prod : ∀ k < n, ∀ m < n, prodEntry n B V k m = A k m
  /-- The first `i` columns are clear below the diagonal. -/
  clear : ∀ k < n, ∀ j < i, j < k → A k j = 0
  /-- `B` has nothing right of the diagonal. -/
  lower : ∀ k < n, ∀ l < n, k < l → B k l = 0
  /-- `B` has ones on the diagonal. -/
  diag : ∀ k < n, B k k = 1
  /-- The pivots used so far are non-zero. -/
  pivots : ∀ j < i, j < n → A j j ≠ 0

/-- The leading `p × p` block of a matrix. -/
def block (p : ℕ) (A : ℕ → ℕ → F) : Matrix (Fin p) (Fin p) F := fun k m => A k m

lemma forward_init (V : ℕ → ℕ → F) : Forward n 0 V V fun k m => if k = m then 1 else 0 where
  prod k hk m _ := by
    unfold prodEntry
    rw [Finset.sum_eq_single k]
    · simp
    · intro l _ hl
      simp [Ne.symm hl]
    · intro hk'
      exact absurd (mem_range.mpr hk) hk'
  clear _ _ j hj _ := absurd hj (Nat.not_lt_zero j)
  lower k _ l _ hkl := if_neg (by omega)
  diag _ _ := if_pos rfl
  pivots j hj _ := absurd hj (Nat.not_lt_zero j)

/-- The leading blocks of `A` up to the cleared columns are upper triangular and arise from those of `V` by
unitriangular factors, so they have the same determinants. -/
lemma Forward.det_block {i p : ℕ} {V A B : ℕ → ℕ → F} (h : Forward n i V A B) (hp : p < n) (hpi : p ≤ i) :
    (block (p + 1) V).det = ∏ k : Fin (p + 1), A k k := by
  have hprod : block (p + 1) A = block (p + 1) B * block (p + 1) V := by
    ext k m
    have hk := k.isLt
    have hm := m.isLt
    rw [Matrix.mul_apply]
    show A k m = ∑ l : Fin (p + 1), B k l * V l m
    rw [← h.prod k (by omega) m (by omega), prodEntry,
      Fin.sum_univ_eq_sum_range (fun l => B k l * V l m) (p + 1)]
    symm
    refine Finset.sum_subset (by simpa using (by omega : p + 1 ≤ n)) fun l hl hl' => ?_
    rw [mem_range] at hl hl'
    rw [h.lower k (by omega) l hl (by omega), zero_mul]
  have hA : (block (p + 1) A).BlockTriangular id := by
    intro k m hkm
    have hk := k.isLt
    have hlt : (m : ℕ) < k := hkm
    exact h.clear k (by omega) m (by omega) hlt
  have hB : (block (p + 1) B).BlockTriangular OrderDual.toDual := by
    intro k m hkm
    have hm := m.isLt
    have hlt : (k : ℕ) < m := hkm
    exact h.lower k (by omega) m (by omega) hlt
  have hone : (block (p + 1) B).det = 1 := by
    rw [Matrix.det_of_isLowerTriangular _ hB]
    exact Finset.prod_eq_one fun k _ => h.diag k (by have := k.isLt; omega)
  calc (block (p + 1) V).det = (block (p + 1) A).det := by rw [hprod, Matrix.det_mul, hone, one_mul]
    _ = ∏ k : Fin (p + 1), A k k := Matrix.det_of_isUpperTriangular hA

/-- The pivot of step `i` is the last factor of the determinant of a leading block. -/
lemma pivot_ne_zero {i : ℕ} {V A B : ℕ → ℕ → F} (h : Forward n i V A B) (hi : i < n)
    (hdet : (block (i + 1) V).det ≠ 0) : A i i ≠ 0 := by
  rw [h.det_block hi le_rfl] at hdet
  exact Finset.prod_ne_zero_iff.mp hdet (Fin.last i) (mem_univ _)

lemma prodEntry_fwdB {i k : ℕ} {A B V : ℕ → ℕ → F} (hk : i < k ∧ k < n) (m : ℕ) :
    prodEntry n (fwdB n i A B) V k m = prodEntry n B V k m - prodEntry n B V i m * (A k i / A i i) := by
  unfold prodEntry
  rw [Finset.sum_mul, ← Finset.sum_sub_distrib]
  refine Finset.sum_congr rfl fun l hl => ?_
  rw [fwdB, if_pos ⟨hk, mem_range.mp hl⟩]
  ring

lemma prodEntry_fwdB_of_not {i k : ℕ} {A B V : ℕ → ℕ → F} (hk : ¬ (i < k ∧ k < n)) (m : ℕ) :
    prodEntry n (fwdB n i A B) V k m = prodEntry n B V k m := by
  unfold prodEntry
  refine Finset.sum_congr rfl fun l _ => ?_
  rw [fwdB, if_neg fun h => hk h.1]

/-- One forward step. -/
lemma forward_step {i : ℕ} {V A B : ℕ → ℕ → F} (h : Forward n i V A B) (hi : i < n)
    (hpivot : A i i ≠ 0) : Forward n (i + 1) V (fwdA n i A) (fwdB n i A B) where
  prod k hk m hm := by
    by_cases hik : i < k ∧ k < n
    · rw [prodEntry_fwdB hik, h.prod k hk m hm, h.prod i hi m hm, fwdA]
      by_cases him : i ≤ m
      · rw [if_pos ⟨hik, him, hm⟩]
      · -- left of the pivot both rows are already clear
        rw [if_neg (by tauto), h.clear i hi m (by omega) (by omega), zero_mul, sub_zero]
    · rw [prodEntry_fwdB_of_not hik, h.prod k hk m hm, fwdA, if_neg (by tauto)]
  clear k hk j hj hjk := by
    unfold fwdA
    by_cases hji : j = i
    · subst hji
      rw [if_pos ⟨⟨hjk, hk⟩, le_rfl, hi⟩, mul_div_cancel₀ _ hpivot, sub_self]
    · rw [if_neg (by omega)]
      exact h.clear k hk j (by omega) hjk
  lower k hk l hl hkl := by
    unfold fwdB
    split_ifs with hik
    · rw [h.lower k hk l hl hkl, h.lower i hi l hl (by omega), zero_mul, sub_zero]
    · exact h.lower k hk l hl hkl
  diag k hk := by
    unfold fwdB
    split_ifs with hik
    · rw [h.diag k hk, h.lower i hi k hk (by omega), zero_mul, sub_zero]
    · exact h.diag k hk
  pivots j hj hjn := by
    unfold fwdA
    rw [if_neg (by omega)]
    by_cases hji : j = i
    · subst hji
      exact hpivot
    · exact h.pivots j (by omega) hjn

/-- The state after the backward steps `n - 1, .., i`. -/
structure Backward (n i : ℕ) (V A B : ℕ → ℕ → F) : Prop where
  /-- The rows above `i` still carry the row operations. -/
  prod : ∀ k < i, k < n → ∀ m < n, prodEntry n B V k m = A k m
  /-- They are clear from column `i` on and left of the diagonal. -/
  clear : ∀ k < i, k < n → ∀ m < n, i ≤ m ∨ m < k → A k m = 0
  /-- The pivots above `i` are non-zero. -/
  pivots : ∀ k < i, k < n → A k k ≠ 0
  /-- The rows from `i` on are rows of a left inverse. -/
  done : ∀ k < n, i ≤ k → ∀ m < n, prodEntry n B V k m = if k = m then 1 else 0

lemma backward_init {V A B : ℕ → ℕ → F} (h : Forward n n V A B) : Backward n n V A B where
  prod k hk _ m hm := h.prod k hk m hm
  clear k hk _ m hm hmk := h.clear k hk m hm (by omega)
  pivots k hk _ := h.pivots k hk hk
  done k hk hk' := absurd hk (by omega)

/-- One backward step. -/
lemma backward_step {i : ℕ} {V A B : ℕ → ℕ → F} (h : Backward n (i + 1) V A B) (hi : i < n) :
    Backward n i V (bwdA i A) (bwdB n i A B) := by
  have hrow : ∀ m < n, prodEntry n B V i m = if i = m then A i i else 0 := by
    intro m hm
    rw [h.prod i (by omega) hi m hm]
    split_ifs with him
    · rw [him]
    · exact h.clear i (by omega) hi m hm (by omega)
  have hpivot := h.pivots i (by omega) hi
  refine ⟨fun k hk hkn m hm => ?_, fun k hk hkn m hm hmk => ?_, fun k hk hkn => ?_, fun k hk hik m hm => ?_⟩
  · have hsum : prodEntry n (bwdB n i A B) V k m =
        prodEntry n B V k m - A k i / A i i * prodEntry n B V i m := by
      unfold prodEntry
      rw [Finset.mul_sum, ← Finset.sum_sub_distrib]
      refine Finset.sum_congr rfl fun l hl => ?_
      rw [bwdB, if_pos (mem_range.mp hl), if_pos hk]
      ring
    rw [hsum, h.prod k (by omega) hkn m hm, hrow m hm, bwdA]
    by_cases hmi : i = m
    · subst hmi
      rw [if_pos rfl, if_pos ⟨hk, rfl⟩, div_mul_cancel₀ _ hpivot, sub_self]
    · rw [if_neg hmi, if_neg (by tauto), mul_zero, sub_zero]
  · unfold bwdA
    split_ifs with hki
    · rfl
    · exact h.clear k (by omega) hkn m hm (by omega)
  · unfold bwdA
    rw [if_neg (by omega)]
    exact h.pivots k (by omega) hkn
  · by_cases hki : k = i
    · subst hki
      have hsum : prodEntry n (bwdB n k A B) V k m = prodEntry n B V k m / A k k := by
        unfold prodEntry
        rw [Finset.sum_div]
        refine Finset.sum_congr rfl fun l hl => ?_
        rw [bwdB, if_pos (mem_range.mp hl), if_neg (lt_irrefl k), if_pos rfl]
        ring
      rw [hsum, hrow m hm]
      split_ifs with hkm
      · exact div_self hpivot
      · exact zero_div _
    · have hsum : prodEntry n (bwdB n i A B) V k m = prodEntry n B V k m := by
        unfold prodEntry
        refine Finset.sum_congr rfl fun l hl => ?_
        rw [bwdB, if_pos (mem_range.mp hl), if_neg (by omega), if_neg hki]
      rw [hsum]
      exact h.done k hk (by omega) m hm

/-! ### From a left inverse to a right inverse -/

lemma block_mul_apply (P Q : ℕ → ℕ → F) (k m : Fin n) :
    (block n P * block n Q) k m = prodEntry n P Q k m := by
  rw [Matrix.mul_apply, prodEntry]
  exact Fin.sum_univ_eq_sum_range (fun l => P k l * Q l m) n

/-- A left inverse of a square matrix is a right inverse. -/
lemma prodEntry_right_of_left {B V : ℕ → ℕ → F}
    (h : ∀ k < n, ∀ m < n, prodEntry n B V k m = if k = m then 1 else 0) :
    ∀ k < n, ∀ m < n, prodEntry n V B k m = if k = m then 1 else 0 := by
  have hleft : block n B * block n V = 1 := by
    ext k m
    rw [block_mul_apply, h k k.isLt m m.isLt, Matrix.one_apply]
    simp only [Fin.ext_iff]
  have hright := mul_eq_one_comm.mp hleft
  intro k hk m hm
  have hkm := congrFun (congrFun hright ⟨k, hk⟩) ⟨m, hm⟩
  rw [block_mul_apply, Matrix.one_apply] at hkm
  simpa only [Fin.mk.injEq] using hkm

end Lib.Elimination
