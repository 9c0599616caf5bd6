import Nkfs.Crt.Nk8

/-!
# Any `k` distinct parts give the block back

The steps of `gf_inverse_matrix` are the steps of `Lib.Elimination` over GF(256)
(`matA_elimRows`, `matB_backStep`), so it inverts every matrix with invertible leading blocks
(`gfInverseMatrix_spec`). The matrix of the powers of distinct ids is one (`det_block_ormatrix`).
A stripe times that matrix is what the parts hold, so `decode` returns the stripe
(`decode_stripe`), and the two functions cut the block in the same way (`stripes_spec`).
`assembleBlock_splitBlock` puts these together.
-/

namespace Nkfs.Nk8

open Lib.Gf256 (Gf sub_eq_add)
open Lib.Elimination Lib.Loop Finset

/-! ### `gf_inverse_matrix` inverts -/

/-- `matrix`, over the field. -/
def matA (S : Rows) : ℕ → ℕ → Gf := fun r m => toGf ((S r).1 m)

/-- `inverse`, over the field. -/
def matB (S : Rows) : ℕ → ℕ → Gf := fun r m => toGf ((S r).2 m)

lemma elimRows_apply {size i : ℕ} (S : Rows) (r : ℕ) :
    elimRows size i S r = if i < r ∧ r < size then elimRow size i (S i) (S r) else S r := by
  have hi : i ∉ List.range' (i + 1) (size - (i + 1)) := by
    rw [List.mem_range'_1]
    omega
  unfold elimRows
  rw [foldl_update_rows i (fun _ => elimRow size i) _ S List.nodup_range' hi]
  refine if_congr ?_ rfl rfl
  rw [List.mem_range'_1]
  omega

lemma matA_elimRows {size i : ℕ} (S : Rows) : matA (elimRows size i S) = fwdA size i (matA S) := by
  funext r m
  simp only [matA, fwdA, elimRows_apply]
  by_cases hr : i < r ∧ r < size
  · rw [if_pos hr]
    by_cases hm : i ≤ m ∧ m < size
    · rw [if_pos ⟨hr, hm⟩]
      simp [elimRow, hm, sub_eq_add]
    · rw [if_neg fun h => hm h.2]
      simp only [elimRow, if_neg hm]
  · rw [if_neg hr, if_neg fun h => hr h.1]

lemma matB_elimRows {size i : ℕ} (S : Rows) : matB (elimRows size i S) = fwdB size i (matA S) (matB S) := by
  funext r m
  simp only [matA, matB, fwdB, elimRows_apply]
  by_cases hr : i < r ∧ r < size
  · rw [if_pos hr]
    by_cases hm : m < size
    · rw [if_pos ⟨hr, hm⟩]
      simp [elimRow, hm, sub_eq_add]
    · rw [if_neg fun h => hm h.2]
      simp only [elimRow, if_neg hm]
  · rw [if_neg hr, if_neg fun h => hr h.1]

lemma backStep_apply {size i : ℕ} (S : Rows) (r : ℕ) : backStep size i S r =
      if r < i then backRow size i (S i) (S r) else if r = i then divRow size i (S i) else S r := by
  have hi : i ∉ (List.range i).reverse := by simp
  unfold backStep
  rw [foldl_update_rows i (fun _ => backRow size i) _ S (List.nodup_reverse.mpr List.nodup_range) hi]
  simp only [List.mem_reverse, List.mem_range, lt_irrefl, if_false]
  by_cases hri : r = i
  · subst hri
    rw [Function.update_self, if_neg (lt_irrefl r), if_pos rfl]
  · rw [Function.update_of_ne hri, if_neg hri]

lemma matA_backStep {size i : ℕ} (S : Rows) : matA (backStep size i S) = bwdA i (matA S) := by
  funext r m
  simp only [matA, bwdA, backStep_apply]
  by_cases hr : r < i
  · rw [if_pos hr]
    by_cases hm : m = i
    · simp [backRow, hr, hm]
    · simp [backRow, hm]
  · by_cases hri : r = i
    · simp [divRow, hri]
    · simp [hr, hri]

lemma matB_backStep {size i : ℕ} (S : Rows) : matB (backStep size i S) = bwdB size i (matA S) (matB S) := by
  funext r m
  simp only [matA, matB, bwdB, backStep_apply]
  by_cases hr : r < i
  · rw [if_pos hr, if_pos hr]
    by_cases hm : m < size
    · simp [backRow, hm, sub_eq_add]
    · simp [backRow, hm]
  · rw [if_neg hr, if_neg hr]
    by_cases hri : r = i
    · by_cases hm : m < size
      · simp [divRow, hm, hri]
      · simp [divRow, hm, hri]
    · rw [if_neg hri, if_neg hri, ite_self]

/-- The forward phase: with invertible leading blocks every pivot is non-zero, so the search for a
pivot stops at the diagonal. -/
lemma forwardLoop_spec {size : ℕ} {V : ℕ → ℕ → Gf}
    (hdet : ∀ p < size, (block (p + 1) V).det ≠ 0) : ∀ (c i : ℕ) (S : Rows), i + c = size →
      Forward size i V (matA S) (matB S) → ∃ S', forwardLoop size (List.range' i c) S = .ok S' ∧
        Forward size size V (matA S') (matB S')
  | 0, i, S, hc, h => ⟨S, rfl, by rwa [show i = size by omega] at h⟩
  | c + 1, i, S, hc, h => by
    have hi : i < size := by omega
    have hpivot : matA S i i ≠ 0 := pivot_ne_zero h hi (hdet i hi)
    have hany : ((List.range' i (size - i)).any fun j => (S i).1 j ≠ 0) = true := by
      rw [List.any_eq_true]
      refine ⟨i, ?_, decide_eq_true fun h0 => hpivot (congrArg toGf h0)⟩
      rw [List.mem_range'_1]
      omega
    have hstep := forward_step h hi hpivot
    rw [← matA_elimRows, ← matB_elimRows] at hstep
    rw [List.range'_succ, forwardLoop, if_pos hany]
    exact forwardLoop_spec hdet c (i + 1) _ (by omega) hstep

lemma backLoop_spec {size : ℕ} {V : ℕ → ℕ → Gf} : ∀ (i : ℕ) (S : Rows), i ≤ size →
    Backward size i V (matA S) (matB S) →
      Backward size 0 V (matA ((List.range i).reverse.foldl (fun S i => backStep size i S) S))
        (matB ((List.range i).reverse.foldl (fun S i => backStep size i S) S))
  | 0, _, _, h => h
  | i + 1, S, hi, h => by
    have hstep := backward_step h (by omega)
    rw [← matA_backStep, ← matB_backStep] at hstep
    rw [foldl_range_succ_reverse]
    exact backLoop_spec i _ (by omega) hstep

/-- The rows that `gf_inverse_matrix` starts with. -/
def startRows (matrix : ℕ → ℕ → U8) : Rows := fun r => (matrix r, fun j => if r ≠ j then 0 else 1)

lemma forward_startRows (matrix : ℕ → ℕ → U8) (size : ℕ) :
    Forward size 0 (fun r m => toGf (matrix r m)) (matA (startRows matrix)) (matB (startRows matrix)) := by
  have hB : matB (startRows matrix) = fun k m => if k = m then 1 else 0 := by
    funext k m
    simp only [matB, startRows, ne_eq, ite_not]
    split_ifs
    · exact toGf_one
    · exact toGf_zero
  rw [hB]
  exact forward_init _

/-- The loop of the last phase stops before row 0, which the last statement of the function divides: together
they are the backward steps for all rows. -/
lemma gfInverseMatrix_eq {matrix : ℕ → ℕ → U8} {size : ℕ} {S : Rows} (hsize : 0 < size)
    (hfwd : forwardLoop size (List.range size) (startRows matrix) = .ok S) :
    gfInverseMatrix matrix size =
      .ok fun r => ((List.range size).reverse.foldl (fun S i => backStep size i S) S r).2 := by
  have hlist : (List.range size).reverse = (List.range' 1 (size - 1)).reverse ++ [0] := by
    obtain ⟨s, rfl⟩ : ∃ s, size = s + 1 := ⟨size - 1, by omega⟩
    rw [List.range_eq_range', List.range'_succ, List.reverse_cons]
    rfl
  unfold startRows at hfwd
  rw [hlist, List.foldl_append, List.foldl_cons, List.foldl_nil]
  simp only [gfInverseMatrix, hfwd]
  rfl

/-- `gf_inverse_matrix` succeeds on a matrix with invertible leading blocks, and the result is an
inverse from the right. -/
lemma gfInverseMatrix_spec {matrix : ℕ → ℕ → U8} {size : ℕ} (hsize : 0 < size)
    (hdet : ∀ p < size, (block (p + 1) fun r m => toGf (matrix r m)).det ≠ 0) :
    ∃ inverse, gfInverseMatrix matrix size = .ok inverse ∧ ∀ k < size, ∀ m < size,
      prodEntry size (fun r m => toGf (matrix r m)) (fun r m => toGf (inverse r m)) k m =
        if k = m then 1 else 0 := by
  obtain ⟨S₁, hfwd, h₁⟩ := forwardLoop_spec hdet size 0 (startRows matrix) (by omega)
    (forward_startRows matrix size)
  rw [← List.range_eq_range'] at hfwd
  have hback := backLoop_spec size S₁ le_rfl (backward_init h₁)
  refine ⟨_, gfInverseMatrix_eq hsize hfwd, ?_⟩
  exact prodEntry_right_of_left fun k hk m hm => hback.done k hk (Nat.zero_le k) m hm

/-! ### The matrix of the ids -/

lemma toGf_ormatrix (ids : ℕ → U8) : ∀ m i, toGf (ormatrix ids m i) = toGf (ids i) ^ m
  | 0, i => by simp [ormatrix]
  | 1, i => by simp [ormatrix]
  | m + 2, i => by rw [ormatrix, toGf_gfMult, toGf_ormatrix ids (m + 1) i, ← pow_succ]

lemma toGf_svector (id : U8) : ∀ m, toGf (svector id m) = toGf id ^ m
  | 0 => by simp [svector]
  | m + 1 => by rw [svector, toGf_gfMult, toGf_svector id m, ← pow_succ]

lemma toGf_dot (k : ℕ) (a b : ℕ → U8) : toGf (dot k a b) = ∑ m ∈ range k, toGf (a m) * toGf (b m) := by
  have hfold : ∀ (l : List ℕ) (c : U8), toGf (l.foldl (fun curr m => curr ^^^ gfMult (a m) (b m)) c) =
        l.foldl (fun curr m => curr + toGf (a m) * toGf (b m)) (toGf c) := by
    intro l
    induction l with
    | nil => intro c; rfl
    | cons m l ih =>
      intro c
      rw [List.foldl_cons, List.foldl_cons, ih, toGf_xor, toGf_gfMult]
  rw [dot, hfold, foldl_range_add]
  exact zero_add _

/-- The leading blocks are transposed Vandermonde matrices of distinct points. -/
lemma det_block_ormatrix (ids : ℕ → U8) {k : ℕ}
    (hids : ∀ i < k, ∀ j < k, ids i = ids j → i = j) (p : ℕ) (hp : p < k) :
    (block (p + 1) fun m i => toGf (ormatrix ids m i)).det ≠ 0 := by
  have hvan : block (p + 1) (fun m i => toGf (ormatrix ids m i)) =
      (Matrix.vandermonde fun i : Fin (p + 1) => toGf (ids i)).transpose := by
    ext m i
    rw [Matrix.transpose_apply, Matrix.vandermonde_apply]
    exact toGf_ormatrix ids m i
  rw [hvan, Matrix.det_transpose, Matrix.det_vandermonde_ne_zero_iff]
  intro i j hij
  have hi := i.isLt
  have hj := j.isLt
  exact Fin.ext (hids i (by omega) j (by omega) (toGf_injective hij))

/-- Decoding what the parts hold of a stripe gives the stripe. -/
lemma decode_stripe {k : ℕ} {ids : ℕ → U8} {inmatrix : ℕ → ℕ → U8}
    (hinv : ∀ l < k, ∀ m < k, prodEntry k (fun r m => toGf (ormatrix ids r m))
      (fun r m => toGf (inmatrix r m)) l m = if l = m then 1 else 0)
    (stripe : ℕ → U8) (sv : ℕ → U8) (hsv : ∀ i < k, sv i = dot k (svector (ids i)) stripe)
    {m : ℕ} (hm : m < k) : decode k inmatrix sv m = stripe m := by
  refine toGf_injective ?_
  have hterm : ∀ i ∈ range k, toGf (sv i) * toGf (inmatrix i m) =
      ∑ l ∈ range k, toGf (stripe l) * (toGf (ormatrix ids l i) * toGf (inmatrix i m)) := by
    intro i hi
    rw [hsv i (mem_range.mp hi), toGf_dot, Finset.sum_mul]
    refine Finset.sum_congr rfl fun l _ => ?_
    rw [toGf_svector, toGf_ormatrix]
    ring
  calc toGf (decode k inmatrix sv m) = ∑ i ∈ range k, toGf (sv i) * toGf (inmatrix i m) := toGf_dot ..
    _ = ∑ i ∈ range k, ∑ l ∈ range k, toGf (stripe l) * (toGf (ormatrix ids l i) * toGf (inmatrix i m)) :=
        Finset.sum_congr rfl hterm
    _ = ∑ l ∈ range k, toGf (stripe l) * if l = m then 1 else 0 := by
        rw [Finset.sum_comm]
        refine Finset.sum_congr rfl fun l hl => ?_
        rw [← hinv l (mem_range.mp hl) m hm, prodEntry, Finset.mul_sum]
    _ = toGf (stripe m) := by
        rw [Finset.sum_eq_single_of_mem m (mem_range.mpr hm), if_pos rfl, mul_one]
        intro l _ hlm
        rw [if_neg hlm, mul_zero]

/-! ### Picking the parts -/

/-- The id of index `i` did not occur before. -/
def fresh (ids : ℕ → U8) (i : ℕ) : Bool := !(List.range i).any fun j => ids i = ids j

lemma fresh_iff {ids : ℕ → U8} {i : ℕ} : fresh ids i = true ↔ ∀ j < i, ids i ≠ ids j := by
  simp [fresh]

/-- The loop picks the first `k` fresh indices. -/
lemma selectLoop_eq (ids : ℕ → U8) (k : ℕ) : ∀ (l acc : List ℕ), acc.length < k →
    selectLoop ids k l acc = acc ++ (l.filter (fresh ids)).take (k - acc.length)
  | [], acc, _ => by simp [selectLoop]
  | i :: l, acc, hacc => by
    have hcond : ((List.range i).any fun j => ids i = ids j) = !fresh ids i := by simp [fresh]
    rw [selectLoop, hcond]
    cases hf : fresh ids i with
    | false =>
      rw [Bool.not_false, if_pos rfl]
      rw [if_neg (by omega), selectLoop_eq ids k l acc hacc, List.filter_cons_of_neg (by simp [hf])]
    | true =>
      rw [Bool.not_true, if_neg Bool.false_ne_true, List.filter_cons_of_pos hf]
      rw [show k - acc.length = (k - (acc.length + 1)) + 1 by omega, List.take_succ_cons,
        List.length_append, List.length_singleton]
      split_ifs with hk
      · rw [show k - (acc.length + 1) = 0 by omega, List.take_zero]
      · rw [selectLoop_eq ids k l (acc ++ [i]) (by rw [List.length_append, List.length_singleton]; omega),
          List.length_append, List.length_singleton, List.append_assoc, List.singleton_append]

/-- The fresh indices below `n` carry every id once. -/
lemma length_filter_fresh (ids : ℕ → U8) : ∀ n,
    ((List.range n).filter (fresh ids)).length = ((range n).image ids).card
  | 0 => rfl
  | n + 1 => by
    rw [List.range_succ, List.filter_append, List.length_append, length_filter_fresh ids n,
      Finset.range_add_one, Finset.image_insert]
    by_cases hf : fresh ids n
    · have hnew : ids n ∉ (range n).image ids := by
        rw [Finset.mem_image]
        rintro ⟨j, hj, hjn⟩
        exact fresh_iff.mp hf j (mem_range.mp hj) hjn.symm
      rw [Finset.card_insert_of_notMem hnew, List.filter_cons_of_pos hf]
      rfl
    · have hold : ids n ∈ (range n).image ids := by
        rw [fresh_iff] at hf
        push Not at hf
        obtain ⟨j, hj, hjn⟩ := hf
        exact Finset.mem_image.mpr ⟨j, mem_range.mpr hj, hjn.symm⟩
      rw [Finset.insert_eq_of_mem hold, List.filter_cons_of_neg hf]
      rfl

lemma eq_of_fresh {ids : ℕ → U8} {i j : ℕ} (hi : fresh ids i) (hj : fresh ids j)
    (h : ids i = ids j) : i = j := by
  rcases lt_trichotomy i j with hlt | heq | hgt
  · exact absurd h.symm (fresh_iff.mp hj i hlt)
  · exact heq
  · exact absurd h (fresh_iff.mp hi j hgt)

/-- With `k` distinct ids the loop ends with `k` indices whose ids are distinct. -/
lemma selectLoop_spec (ids : ℕ → U8) (n : ℕ) {k : ℕ} (hk : 0 < k) :
    (selectLoop ids k (List.range n) []).length = min k ((range n).image ids).card ∧
      ∀ i < (selectLoop ids k (List.range n) []).length, (selectLoop ids k (List.range n) []).getD i 0 < n ∧
          ∀ j < (selectLoop ids k (List.range n) []).length,
            ids ((selectLoop ids k (List.range n) []).getD i 0) =
              ids ((selectLoop ids k (List.range n) []).getD j 0) → i = j := by
  set fl := (List.range n).filter (fresh ids) with hfl
  have hsel : selectLoop ids k (List.range n) [] = fl.take k := by
    rw [selectLoop_eq ids k _ [] hk]
    rfl
  have hnodup : (fl.take k).Nodup :=
    (List.take_sublist k fl).nodup (List.nodup_range.sublist List.filter_sublist)
  have hmem : ∀ i < (fl.take k).length, (fl.take k).getD i 0 < n ∧ fresh ids ((fl.take k).getD i 0) := by
    intro i hi
    rw [List.getD_eq_getElem _ _ hi]
    have hin := List.mem_of_mem_take (List.getElem_mem hi)
    exact ⟨List.mem_range.mp (List.mem_filter.mp hin).1, (List.mem_filter.mp hin).2⟩
  rw [hsel]
  refine ⟨by rw [List.length_take, length_filter_fresh], fun i hi => ⟨(hmem i hi).1, ?_⟩⟩
  intro j hj hij
  have heq := eq_of_fresh (hmem i hi).2 (hmem j hj).2 hij
  rw [List.getD_eq_getElem _ _ hi, List.getD_eq_getElem _ _ hj] at heq
  exact (hnodup.getElem_inj_iff).mp heq

/-! ### Writing the block -/

lemma writeRow_apply (v : ℕ → U8) (base : ℕ) (blk : ℕ → U8) (o : ℕ) : ∀ c,
    (List.range c).foldl (fun blk m => Function.update blk (base + m) (v m)) blk o =
      if base ≤ o ∧ o < base + c then v (o - base) else blk o
  | 0 => by
    rw [if_neg (by omega)]
    rfl
  | c + 1 => by
    rw [List.range_succ, List.foldl_append, List.foldl_cons, List.foldl_nil]
    by_cases ho : o = base + c
    · rw [ho, Function.update_self, if_pos (by omega), Nat.add_sub_cancel_left]
    · rw [Function.update_of_ne ho, writeRow_apply v base blk o c]
      exact if_congr (by omega) rfl rfl

lemma writeStripes_apply {k : ℕ} (hk : 0 < k) (inmatrix sparts : ℕ → ℕ → U8) (block : ℕ → U8)
    (o : ℕ) : ∀ ps, writeStripes k ps inmatrix sparts block o =
      if o < ps * k then decode k inmatrix (fun i => sparts i (o / k)) (o % k) else block o
  | 0 => by simp [writeStripes]
  | ps + 1 => by
    have hstep : writeStripes k (ps + 1) inmatrix sparts block o =
        if ps * k ≤ o ∧ o < ps * k + k then
          decode k inmatrix (fun i => sparts i ps) (o - ps * k)
        else writeStripes k ps inmatrix sparts block o := by
      unfold writeStripes
      rw [List.range_succ, List.foldl_append, List.foldl_cons, List.foldl_nil]
      exact writeRow_apply (decode k inmatrix fun i => sparts i ps) (ps * k) _ o k
    rw [hstep, writeStripes_apply hk inmatrix sparts block o ps, Nat.succ_mul]
    by_cases ho : ps * k ≤ o ∧ o < ps * k + k
    · have hdiv : o / k = ps := by
        rw [Nat.div_eq_iff hk]
        omega
      have hmod : o % k = o - ps * k := by
        rw [Nat.mod_eq_sub_mul_div, hdiv, mul_comm]
      rw [if_pos ho, if_pos ho.2, hdiv, hmod]
    · rw [if_neg ho]
      exact if_congr (by omega) rfl rfl

/-! ### The round trip -/

lemma paramsOk_iff {blockSize n k : ℕ} : paramsOk blockSize n k = true ↔
    2 ≤ n ∧ 2 ≤ k ∧ 0 < blockSize ∧ k ≤ n ∧ n ≤ 255 ∧ k ≤ 254 := by
  simp [paramsOk, minN, minK, maxN, maxK]
  omega

/-- Whole stripes and a tail shorter than one make up the block; the `u32` product does not wrap. -/
lemma stripes_spec {blockSize k : ℕ} (hk : 0 < k) (hk' : k ≤ 254) (hsize : blockSize < 2 ^ 31) :
    (stripes blockSize k).1 * k + (stripes blockSize k).2 = blockSize ∧ (stripes blockSize k).2 < k := by
  have hdm := Nat.div_add_mod' blockSize k
  have hmod := Nat.mod_lt blockSize hk
  unfold stripes partSize
  by_cases hz : blockSize % k = 0
  · have hprod : (blockSize / k + 0) * k = blockSize := by
      rw [add_zero]
      omega
    simp only [hz, ne_eq, not_true, if_false, hprod]
    rw [if_neg (by rw [Nat.mod_eq_of_lt (by omega)]; omega)]
    exact ⟨by omega, hk⟩
  · have hprod : (blockSize / k + 1) * k = blockSize / k * k + k := Nat.succ_mul ..
    simp only [ne_eq, hz, not_false_iff, if_true, hprod, Nat.add_sub_cancel]
    rw [if_pos (by rw [Nat.mod_eq_of_lt (by omega)]; omega)]
    dsimp only
    omega

lemma image_getD_picks (ids : ℕ → U8) (picks : List ℕ) :
    (range picks.length).image (fun i => ids (picks.getD i 0)) = (picks.map ids).toFinset := by
  ext x
  simp only [Finset.mem_image, mem_range, List.mem_toFinset, List.mem_map]
  constructor
  · rintro ⟨i, hi, rfl⟩
    rw [List.getD_eq_getElem _ _ hi]
    exact ⟨_, List.getElem_mem hi, rfl⟩
  · rintro ⟨p, hp, rfl⟩
    obtain ⟨i, hi, rfl⟩ := List.getElem_of_mem hp
    exact ⟨i, hi, by rw [List.getD_eq_getElem _ _ hi]⟩

/-- The assembled block, byte by byte, when every picked part holds the stripes at its id. -/
lemma assemble_byte {k ps tailSize blockSize : ℕ} (block out : ℕ → U8) {ids : ℕ → U8}
    {inmatrix : ℕ → ℕ → U8} (sparts : ℕ → ℕ → U8) (hk : 0 < k) (hsz : ps * k + tailSize = blockSize)
    (htail : tailSize < k)
    (hinv : ∀ l < k, ∀ m < k, prodEntry k (fun r m => toGf (ormatrix ids r m))
      (fun r m => toGf (inmatrix r m)) l m = if l = m then 1 else 0)
    (hparts : ∀ i < k, ∀ j < ps, sparts i j = dot k (svector (ids i)) fun m => block (j * k + m))
    (htl : tailSize ≠ 0 → ∀ i < k,
      sparts i ps = dot k (svector (ids i)) (tailBytes block blockSize tailSize)) (o : ℕ) :
    (if tailSize ≠ 0 ∧ blockSize - tailSize ≤ o ∧ o < blockSize then
      decode k inmatrix (fun i => sparts i ps) (o - (blockSize - tailSize))
      else writeStripes k ps inmatrix sparts out o) = if o < blockSize then block o else out o := by
  split_ifs with h ho ho
  · rw [decode_stripe hinv _ _ (htl h.1) (by omega), tailBytes, if_pos (by omega)]
    exact congrArg block (by omega)
  · exact absurd h.2.2 ho
  · rw [writeStripes_apply hk, if_pos (by omega),
      decode_stripe hinv (fun m => block (o / k * k + m)) _ _ (Nat.mod_lt o hk)]
    · exact congrArg block (Nat.div_add_mod' o k)
    · intro i hi
      refine hparts i hi _ ?_
      rw [Nat.div_lt_iff_lt_mul hk]
      omega
  · rw [writeStripes_apply hk, if_neg (by omega)]

/-- A block split into `n` parts comes back from every list of at most 255 of these parts, in any
order and with repetitions, that holds `k` distinct ids; a list with fewer distinct ids is refused
with `-EINVAL` and the buffer is left alone. The ids need not even be distinct or non-zero. -/
theorem assembleBlock_splitBlock (block : ℕ → U8) (blockSize n k : ℕ) (ids : ℕ → U8)
    (parts : ℕ → ℕ → U8) (hsize : blockSize < 2 ^ 31)
    (hsplit : splitBlock true block blockSize n k ids = .ok parts) (picks : List ℕ)
    (hmax : picks.length ≤ 255) (hlen : k ≤ picks.length) (out : ℕ → U8) :
    assembleBlock true (fun i => parts (picks.getD i 0)) (fun i => ids (picks.getD i 0))
        picks.length k out blockSize =
      if k ≤ (picks.map ids).toFinset.card then
        (.ok (), fun o => if o < blockSize then block o else out o)
      else (.error .einval, out) := by
  have hok : paramsOk blockSize n k = true := by
    by_contra h
    rw [Bool.not_eq_true] at h
    rw [splitBlock, h] at hsplit
    cases hsplit
  have hp := paramsOk_iff.mp hok
  have hok' : paramsOk blockSize picks.length k = true := paramsOk_iff.mpr (by omega)
  obtain ⟨hsz, htail⟩ := stripes_spec (k := k) (by omega) (by omega) hsize
  rcases hst : stripes blockSize k with ⟨ps, tailSize⟩
  rw [hst] at hsz htail
  dsimp only at hsz htail
  rw [splitBlock, hok, hst] at hsplit
  simp only [Bool.not_true, Bool.false_eq_true, if_false, Except.ok.injEq] at hsplit
  set ids' : ℕ → U8 := fun i => ids (picks.getD i 0) with hids'
  obtain ⟨hsel, hdist⟩ := selectLoop_spec ids' picks.length (k := k) (by omega)
  rw [hids', image_getD_picks, ← hids'] at hsel
  set sel := selectLoop ids' k (List.range picks.length) [] with hseldef
  rw [assembleBlock, hok', hst]
  simp only [Bool.not_true, Bool.false_eq_true, if_false, ← hseldef]
  by_cases hcard : k ≤ (picks.map ids).toFinset.card
  · have hselk : sel.length = k := by omega
    have hdet := det_block_ormatrix (fun i => ids' (sel.getD i 0)) (k := k)
      fun i hi j hj => (hdist i (by omega)).2 j (by omega)
    obtain ⟨inmatrix, hinvm, hinv⟩ := gfInverseMatrix_spec (by omega) hdet
    rw [if_neg (by omega), if_pos hcard, hinvm]
    have hbyte := assemble_byte block out
      (fun i => parts (picks.getD (sel.getD i 0) 0)) (by omega) hsz htail hinv
      (fun i _ j hj => by rw [← hsplit]; exact if_pos hj)
      (fun ht i _ => by rw [← hsplit]; exact (if_neg (lt_irrefl ps)).trans (if_pos ⟨ht, rfl⟩))
    by_cases ht : tailSize = 0
    · simp only [ht, ne_eq, not_true, false_and, if_false] at hbyte ⊢
      exact congrArg (Prod.mk _) (funext hbyte)
    · simp only [ne_eq, ht, not_false_iff, true_and, if_true] at hbyte ⊢
      exact congrArg (Prod.mk _) (funext hbyte)
  · rw [if_pos (by omega), if_neg hcard]

/-- Two of three parts, one of them twice. -/
theorem assembleBlock_splitBlock_twoOfThree :
    ∃ parts, splitBlock true (BitVec.ofNat 8) 3 3 2 (fun i => BitVec.ofNat 8 (i + 1)) = .ok parts ∧
      assembleBlock true (fun i => parts ([2, 0, 2].getD i 0))
          (fun i => BitVec.ofNat 8 ([2, 0, 2].getD i 0 + 1)) 3 2 (fun _ => 0) 3 =
        (.ok (), fun o => if o < 3 then BitVec.ofNat 8 o else 0) :=
  ⟨_, rfl, (assembleBlock_splitBlock (BitVec.ofNat 8) 3 3 2 (fun i => BitVec.ofNat 8 (i + 1)) _
    (by decide) rfl [2, 0, 2] (by decide) (by decide) fun _ => 0).trans (if_pos (by decide))⟩

/-! ### The ids -/

lemma cand_ne_zero (r : Fin 255) : BitVec.ofNat 8 (1 + r) ≠ 0 := by
  intro h0
  have h0' : (1 + (r : ℕ)) % 2 ^ 8 = 0 := congrArg BitVec.toNat h0
  omega

lemma cand_injective : Function.Injective fun r : Fin 255 => BitVec.ofNat 8 (1 + r) := by
  intro a b hab
  have hab' : (1 + (a : ℕ)) % 2 ^ 8 = (1 + (b : ℕ)) % 2 ^ 8 := congrArg BitVec.toNat hab
  omega

/-- The loop goes on for as long as it lacks ids, and every draw that is new brings one. -/
lemma genPartIdsLoop_spec (draws : List (Fin 255)) (n : ℕ) (ids : List U8) (hnd : ids.Nodup) (hz : 0 ∉ ids) :
    if n ≤ (draws.toFinset.image (fun r : Fin 255 => BitVec.ofNat 8 (1 + r)) \ ids.toFinset).card then
      ∃ ids', genPartIdsLoop draws n ids = some ids' ∧ ids'.Nodup ∧ 0 ∉ ids' ∧ ids'.length = ids.length + n
    else genPartIdsLoop draws n ids = none := by
  induction draws generalizing n ids with
  | nil =>
    cases n with
    | zero => exact ⟨ids, rfl, hnd, hz, rfl⟩
    | succ n =>
      rw [if_neg (by simp)]
      rfl
  | cons r draws ih =>
    cases n with
    | zero =>
      rw [if_pos (Nat.zero_le _)]
      exact ⟨ids, rfl, hnd, hz, rfl⟩
    | succ n =>
      rw [genPartIdsLoop, List.toFinset_cons, Finset.image_insert]
      by_cases hmem : BitVec.ofNat 8 (1 + r) ∈ ids
      · rw [if_pos hmem, Finset.insert_sdiff_of_mem _ (List.mem_toFinset.mpr hmem)]
        exact ih (n + 1) ids hnd hz
      · have hz' : 0 ∉ ids ++ [BitVec.ofNat 8 (1 + r)] := fun h =>
          (List.mem_append.mp h).elim hz fun h => cand_ne_zero r (List.mem_singleton.mp h).symm
        have hrest := ih n (ids ++ [BitVec.ofNat 8 (1 + r)]) (List.concat_eq_append ▸ hnd.concat hmem) hz'
        rw [List.toFinset_append, List.toFinset_cons, List.toFinset_nil, insert_empty_eq, Finset.union_singleton,
          Finset.sdiff_insert, List.length_append] at hrest
        rw [if_neg hmem, Finset.insert_sdiff_of_notMem _ (mt List.mem_toFinset.mp hmem),
          ← Finset.card_erase_add_one (Finset.mem_insert_self ..), Finset.erase_insert_eq_erase]
        simpa [add_assoc, add_comm 1] using hrest

/-- `nk8_gen_part_ids` returns once `n` distinct numbers were drawn, with `n` distinct ids other than 0. -/
theorem genPartIds_spec (draws : List (Fin 255)) (n : ℕ) :
    if n ≤ draws.toFinset.card then
      ∃ ids, genPartIds draws n = some ids ∧ ids.Nodup ∧ 0 ∉ ids ∧ ids.length = n
    else genPartIds draws n = none := by
  have hspec := genPartIdsLoop_spec draws n [] List.nodup_nil List.not_mem_nil
  rwa [List.toFinset_nil, Finset.sdiff_empty, Finset.card_image_of_injective _ cand_injective, List.length_nil,
    Nat.zero_add] at hspec

end Nkfs.Nk8
