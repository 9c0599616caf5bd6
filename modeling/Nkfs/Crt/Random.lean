import Mathlib

/-!
# Random numbers of a range (`crt/random.c`)

`rand_u32_up` takes as many low bits of a random word as a number below `up` needs and draws again until the number
is below `up`. The mask is `(1 << log) - 1` of type `int`. A shift of an `int` by 32 is not defined in C; the model has
what the machine does, a shift by the count modulo 32, so the mask is then 0.

Up to a range of 2^31 numbers each number comes from equally many words (`unbiased_of_le`). For a larger range, and
for the whole range, whose length is 0 as a `u32`, only the least number is ever returned (`rand_only_min`).
-/

namespace Nkfs.Random

/-! ### The code -/

/-- The loop of `log2_u32`. -/
def log2Loop (val : UInt32) (res : ℕ) : ℕ :=
  if 0 < val then log2Loop (val >>> 1) (res + 1) else res
termination_by val.toNat
decreasing_by
  rename_i h
  have hpos : 0 < val.toNat := UInt32.lt_iff_toNat_lt.mp h
  rw [UInt32.toNat_shiftRight]
  show val.toNat >>> 1 < _
  rw [Nat.shiftRight_eq_div_pow]
  omega

/-- Source: `crt/random.c` `log2_u32` -/
def log2U32 (val : UInt32) : ℕ := log2Loop val 0

/-- `(1 << log) - 1` as an operand of `&` with a `u64`. -/
def mask (log : ℕ) : UInt64 := (((1 : Int32) <<< Int32.ofNat log) - 1).toInt64.toUInt64

/-- The loop of `rand_u32_up` on the words that are still to come, or `none` where it waits for more. -/
def drawLoop (up : UInt32) (m : UInt64) : List UInt64 → Option (UInt32 × List UInt64)
  | [] => none
  | w :: ws =>
    let v := (w &&& m).toUInt32
    if v < up then some (v, ws) else drawLoop up m ws

/-- The number, and the words that were not used. Source: `crt/random.c` `rand_u32_up` -/
def randU32Up (up : UInt32) (words : List UInt64) : Option (UInt32 × List UInt64) :=
  if up = 0 then some (0, words)
  else if up &&& (up - 1) = 0 then
    match words with
    | [] => none
    | w :: ws => some ((w &&& (up - 1).toUInt64).toUInt32, ws)
  else drawLoop up (mask (log2U32 up)) words

/-- Source: `crt/random.c` `rand_u32_min_max` -/
def randU32MinMax (min max : UInt32) (words : List UInt64) : Option (UInt32 × List UInt64) :=
  if min > max then some (0xFFFFFFFF, words)
  else if min = max then some (min, words)
  else (randU32Up (max - min + 1) words).map fun r => (min + r.1, r.2)

/-! ### The mask -/

lemma size_half {n : ℕ} (h : 0 < n) : (n / 2).size + 1 = n.size := by
  apply le_antisymm
  · rw [Nat.succ_le_iff, Nat.lt_size]
    rcases Nat.eq_zero_or_pos (n / 2) with h0 | hpos
    · rw [h0, Nat.size_zero]
      exact h
    · have hsize : 0 < (n / 2).size := Nat.size_pos.mpr hpos
      have hle : 2 ^ ((n / 2).size - 1) ≤ n / 2 := Nat.lt_size.mp (by omega)
      have hpow : 2 ^ (n / 2).size = 2 * 2 ^ ((n / 2).size - 1) := by
        rw [← pow_succ', Nat.sub_add_cancel hsize]
      omega
  · rw [Nat.size_le, pow_succ]
    have hlt : n / 2 < 2 ^ (n / 2).size := Nat.lt_size_self _
    omega

/-- The logarithm is the number of binary digits. -/
lemma log2Loop_eq (val : UInt32) (res : ℕ) : log2Loop val res = res + val.toNat.size := by
  fun_induction log2Loop val res with
  | case1 val res h ih =>
    have hpos : 0 < val.toNat := UInt32.lt_iff_toNat_lt.mp h
    have hshift : (val >>> 1).toNat = val.toNat / 2 := by
      rw [UInt32.toNat_shiftRight]
      exact Nat.shiftRight_eq_div_pow _ 1
    rw [ih, hshift, ← size_half hpos]
    omega
  | case2 val res h =>
    have hzero : val.toNat = 0 := by
      rw [UInt32.lt_iff_toNat_lt, show (0 : UInt32).toNat = 0 from rfl] at h
      omega
    rw [hzero, Nat.size_zero, add_zero]

lemma log2U32_eq (val : UInt32) : log2U32 val = val.toNat.size := by
  rw [log2U32, log2Loop_eq, zero_add]

lemma toNat_mask {log : ℕ} (h : log < 32) : (mask log).toNat = 2 ^ log - 1 := by
  have hall : ∀ l : Fin 32, (mask l).toNat = 2 ^ (l : ℕ) - 1 := by decide
  exact hall ⟨log, h⟩

lemma mask_32 : mask 32 = 0 := by decide

/-! ### One word -/

section words

variable {up min max v : UInt32} {k : ℕ}

/-- The low bits of a word. -/
lemma toNat_masked {m w : UInt64} (hk : k < 32) (hm : m.toNat = 2 ^ k - 1) :
    (w &&& m).toUInt32.toNat = w.toNat % 2 ^ k := by
  have hpow : 2 ^ k ≤ 2 ^ 32 := Nat.pow_le_pow_right (by decide) hk.le
  have hlt : w.toNat % 2 ^ k < 2 ^ k := Nat.mod_lt _ (by positivity)
  rw [UInt64.toNat_toUInt32, UInt64.toNat_and, hm, Nat.and_two_pow_sub_one_eq_mod, Nat.mod_eq_of_lt (by omega)]

/-- A word is used if its low bits are a number below `up`. -/
structure Draws (up : UInt32) (k : ℕ) : Prop where
  bits : k < 32
  covers : up.toNat ≤ 2 ^ k
  step : ∀ w ws, randU32Up up (w :: ws) =
    if w.toNat % 2 ^ k < up.toNat then some (UInt32.ofNat (w.toNat % 2 ^ k), ws) else randU32Up up ws

/-- A power of two is taken from its mask, without a second draw. -/
lemma draws_pow (h0 : up ≠ 0) (hpow : up &&& (up - 1) = 0) : ∃ k, Draws up k := by
  have hne : up.toNat ≠ 0 := fun h => h0 (UInt32.toNat_inj.mp h)
  have hone : (up - 1).toNat = up.toNat - 1 := by
    have hle : (1 : UInt32) ≤ up := by
      rw [UInt32.le_iff_toNat_le]
      show 1 ≤ up.toNat
      omega
    exact UInt32.toNat_sub_of_le _ _ hle
  have hand : up.toNat &&& up.toNat - 1 = 0 := by
    rw [← hone, ← UInt32.toNat_and, hpow]
    rfl
  obtain ⟨k, hk⟩ := (Nat.and_sub_one_eq_zero_iff_isPowerOfTwo hne).mp hand
  have hlt : k < 32 := by
    have hup := up.toNat_lt
    rw [hk] at hup
    exact (Nat.pow_lt_pow_iff_right (by decide)).mp hup
  have hm : (up - 1).toUInt64.toNat = 2 ^ k - 1 := by rw [UInt32.toNat_toUInt64, hone, hk]
  refine ⟨k, hlt, hk.le, fun w ws => ?_⟩
  have hlow : w.toNat % 2 ^ k < up.toNat := by
    rw [hk]
    exact Nat.mod_lt _ (by positivity)
  rw [if_pos hlow, randU32Up, if_neg h0, if_pos hpow, ← toNat_masked hlt hm, UInt32.ofNat_toNat]

/-- Any other number below 2^31 is drawn from the mask of its length. -/
lemma draws_loop (h0 : up ≠ 0) (hpow : up &&& (up - 1) ≠ 0) (hup : up.toNat < 2 ^ 31) : ∃ k, Draws up k := by
  have hk : log2U32 up < 32 := by
    rw [log2U32_eq]
    exact Nat.lt_succ_of_le (Nat.size_le.mpr hup)
  have hcovers : up.toNat < 2 ^ log2U32 up := by
    rw [log2U32_eq]
    exact Nat.lt_size_self _
  have hloop : ∀ ws, randU32Up up ws = drawLoop up (mask (log2U32 up)) ws := fun ws => by
    rw [randU32Up.eq_def, if_neg h0, if_neg hpow]
  refine ⟨log2U32 up, hk, hcovers.le, fun w ws => ?_⟩
  have hmasked := toNat_masked (w := w) hk (toNat_mask hk)
  rw [hloop, hloop, drawLoop, ← hmasked, UInt32.ofNat_toNat]
  simp only [UInt32.lt_iff_toNat_lt]

lemma draws_of_le (h0 : up ≠ 0) (hup : up.toNat ≤ 2 ^ 31) : ∃ k, Draws up k := by
  by_cases hpow : up &&& (up - 1) = 0
  · exact draws_pow h0 hpow
  · apply draws_loop h0 hpow
    apply lt_of_le_of_ne hup
    intro heq
    obtain rfl : up = 2147483648 := UInt32.toNat_inj.mp heq
    exact hpow (by decide)

/-- With the mask 0 the first word is used, as 0. -/
lemma randU32Up_large (hup : 2 ^ 31 < up.toNat) (w : UInt64) (ws : List UInt64) :
    randU32Up up (w :: ws) = some (0, ws) := by
  have h0 : up ≠ 0 := by
    rintro rfl
    exact absurd hup (by decide)
  have hpow : up &&& (up - 1) ≠ 0 := by
    intro hpow
    obtain ⟨k, hdraws⟩ := draws_pow h0 hpow
    have hle : 2 ^ k ≤ 2 ^ 31 := Nat.pow_le_pow_right (by decide) (Nat.lt_succ_iff.mp hdraws.bits)
    have hcovers := hdraws.covers
    omega
  have hlog : log2U32 up = 32 := by
    rw [log2U32_eq]
    exact le_antisymm (Nat.size_le.mpr up.toNat_lt) (Nat.lt_size.mpr hup.le)
  have hpos : (0 : UInt32) < up := by
    rw [UInt32.lt_iff_toNat_lt]
    show 0 < up.toNat
    omega
  rw [randU32Up, if_neg h0, if_neg hpow, hlog, mask_32, drawLoop]
  simp only [UInt64.and_zero, show (0 : UInt64).toUInt32 = 0 from rfl, if_pos hpos]

lemma randU32Up_nil (h0 : up ≠ 0) : randU32Up up [] = none := by
  rw [randU32Up, if_neg h0]
  by_cases hpow : up &&& (up - 1) = 0
  · rw [if_pos hpow]
  · rw [if_neg hpow]
    rfl

/-- What is drawn is below `up`. -/
lemma randU32Up_lt (h0 : up ≠ 0) : ∀ {ws rest : List UInt64}, randU32Up up ws = some (v, rest) → v.toNat < up.toNat
  | [], rest, h => by
    rw [randU32Up_nil h0] at h
    cases h
  | w :: ws, rest, h => by
    by_cases hup : up.toNat ≤ 2 ^ 31
    · obtain ⟨k, hdraws⟩ := draws_of_le h0 hup
      rw [hdraws.step] at h
      by_cases hlow : w.toNat % 2 ^ k < up.toNat
      · rw [if_pos hlow, Option.some.injEq, Prod.mk.injEq] at h
        have hlt := up.toNat_lt
        rw [← h.1, UInt32.toNat_ofNat', Nat.mod_eq_of_lt (by omega)]
        exact hlow
      · rw [if_neg hlow] at h
        exact randU32Up_lt h0 h
    · rw [randU32Up_large (not_le.mp hup), Option.some.injEq, Prod.mk.injEq] at h
      rw [← h.1]
      show 0 < up.toNat
      omega

end words

/-! ### Counting words -/

/-- The words with the low bits `x`. -/
def residue (k x : ℕ) : Finset UInt64 := Finset.univ.filter fun w => w.toNat % 2 ^ k = x

/-- There are equally many for each `x`: adding `x` is a bijection. -/
lemma card_residue {k x : ℕ} (hk : k < 32) (hx : x < 2 ^ k) : (residue k x).card = (residue k 0).card := by
  have hdvd : 2 ^ k ∣ 2 ^ 64 := pow_dvd_pow 2 (by omega)
  have hle : 2 ^ k ≤ 2 ^ 64 := Nat.le_of_dvd (by decide) hdvd
  have hxnat : (UInt64.ofNat x).toNat = x := by rw [UInt64.toNat_ofNat', Nat.mod_eq_of_lt (by omega)]
  have hadd : ∀ w : UInt64, (w + .ofNat x).toNat % 2 ^ k = (w.toNat % 2 ^ k + x) % 2 ^ k := by
    intro w
    rw [UInt64.toNat_add, hxnat, Nat.mod_mod_of_dvd _ hdvd, Nat.add_mod, Nat.mod_eq_of_lt hx]
  symm
  apply Finset.card_bij fun w _ => w + .ofNat x
  · intro w hw
    rw [residue, Finset.mem_filter] at hw ⊢
    refine ⟨Finset.mem_univ _, ?_⟩
    rw [hadd, hw.2, zero_add, Nat.mod_eq_of_lt hx]
  · intro w _ w' _ h
    exact add_right_cancel h
  · intro w hw
    rw [residue, Finset.mem_filter] at hw
    refine ⟨w - .ofNat x, ?_, sub_add_cancel w _⟩
    have hback := hadd (w - .ofNat x)
    rw [sub_add_cancel, hw.2] at hback
    have hlt : (w - .ofNat x).toNat % 2 ^ k < 2 ^ k := Nat.mod_lt _ (by positivity)
    rw [residue, Finset.mem_filter]
    refine ⟨Finset.mem_univ _, ?_⟩
    by_cases hsum : (w - .ofNat x).toNat % 2 ^ k + x < 2 ^ k
    · rw [Nat.mod_eq_of_lt hsum] at hback
      omega
    · rw [Nat.mod_eq_sub_mod (not_lt.mp hsum), Nat.mod_eq_of_lt (by omega)] at hback
      omega

lemma card_residue_pos (k : ℕ) : 0 < (residue k 0).card := by
  apply Finset.card_pos.mpr
  refine ⟨0, ?_⟩
  rw [residue, Finset.mem_filter]
  exact ⟨Finset.mem_univ _, Nat.zero_mod _⟩

/-! ### Ranges -/

/-- The words from which the range helper makes `v` when it draws them. -/
def producedBy (min max v : UInt32) : Finset UInt64 :=
  Finset.univ.filter fun w => (randU32MinMax min max [w]).map Prod.fst = some v

/-- Each number of the range comes from equally many words, and from some. -/
def Unbiased (min max : UInt32) : Prop :=
  ∃ n, 0 < n ∧ ∀ v, min ≤ v → v ≤ max → (producedBy min max v).card = n

section ranges

variable {min max v : UInt32}

lemma toNat_count (h : min ≤ max) : (max - min + 1).toNat = (max.toNat - min.toNat + 1) % 2 ^ 32 := by
  rw [UInt32.toNat_add, UInt32.toNat_sub_of_le _ _ h]
  rfl

lemma randU32MinMax_eq (h : min < max) (ws : List UInt64) :
    randU32MinMax min max ws = (randU32Up (max - min + 1) ws).map fun r => (min + r.1, r.2) := by
  have hne : min ≠ max := by
    rintro rfl
    exact UInt32.lt_irrefl _ h
  rw [randU32MinMax, if_neg (UInt32.not_lt.mpr (UInt32.le_of_lt h)), if_neg hne]

/-- What is returned is in the range, whatever the range. -/
lemma randU32MinMax_mem (h : min ≤ max) {ws rest : List UInt64} (hr : randU32MinMax min max ws = some (v, rest)) :
    min ≤ v ∧ v ≤ max := by
  by_cases heq : min = max
  · subst heq
    rw [randU32MinMax, if_neg (UInt32.lt_irrefl _), if_pos rfl, Option.some.injEq, Prod.mk.injEq] at hr
    rw [← hr.1]
    exact ⟨h, h⟩
  · have hlt : min < max := UInt32.lt_of_le_of_ne h heq
    have hle := UInt32.le_iff_toNat_le.mp h
    have hmax := max.toNat_lt
    rw [randU32MinMax_eq hlt, Option.map_eq_some_iff] at hr
    obtain ⟨⟨x, rest'⟩, hx, hpair⟩ := hr
    have hv : min + x = v := (Prod.mk.inj hpair).1
    have hcount := toNat_count h
    -- the number that is added stays below the length of the range
    have hadd : x.toNat ≤ max.toNat - min.toNat := by
      by_cases h0 : max - min + 1 = 0
      · rw [randU32Up.eq_def, if_pos h0, Option.some.injEq, Prod.mk.injEq] at hx
        rw [← hx.1]
        exact Nat.zero_le _
      · have hxlt := randU32Up_lt h0 hx
        have hmod := Nat.mod_le (max.toNat - min.toNat + 1) (2 ^ 32)
        omega
    rw [← hv, UInt32.le_iff_toNat_le, UInt32.le_iff_toNat_le, UInt32.toNat_add, Nat.mod_eq_of_lt (by omega)]
    omega

/-- A range of at most 2^31 numbers. -/
lemma unbiased_of_le (h : min ≤ max) (hn : max.toNat - min.toNat < 2 ^ 31) : Unbiased min max := by
  have hle := UInt32.le_iff_toNat_le.mp h
  by_cases heq : min = max
  · subst heq
    refine ⟨Fintype.card UInt64, Fintype.card_pos, fun v hmin hmax => ?_⟩
    obtain rfl : min = v := UInt32.le_antisymm hmin hmax
    have hall : producedBy min min min = Finset.univ := by
      apply Finset.filter_true_of_mem
      intro w _
      rw [randU32MinMax, if_neg (UInt32.lt_irrefl _), if_pos rfl]
      rfl
    rw [hall, Finset.card_univ]
  · have hlt : min < max := UInt32.lt_of_le_of_ne h heq
    have hcount : (max - min + 1).toNat = max.toNat - min.toNat + 1 := by
      rw [toNat_count h, Nat.mod_eq_of_lt (by omega)]
    have h0 : max - min + 1 ≠ 0 := by
      intro h0
      rw [h0] at hcount
      exact absurd hcount (by simp)
    obtain ⟨k, hdraws⟩ := draws_of_le h0 (by omega)
    refine ⟨(residue k 0).card, card_residue_pos k, fun v hmin hmax => ?_⟩
    have hvmin := UInt32.le_iff_toNat_le.mp hmin
    have hvmax := UInt32.le_iff_toNat_le.mp hmax
    have hmaxlt := max.toNat_lt
    have hcovers := hdraws.covers
    have hset : producedBy min max v = residue k (v.toNat - min.toNat) := by
      apply Finset.filter_congr
      intro w _
      rw [randU32MinMax_eq hlt, hdraws.step]
      by_cases hlow : w.toNat % 2 ^ k < (max - min + 1).toNat
      · have hsum : (min + UInt32.ofNat (w.toNat % 2 ^ k)).toNat = min.toNat + w.toNat % 2 ^ k := by
          rw [UInt32.toNat_add, UInt32.toNat_ofNat', Nat.mod_eq_of_lt (by omega), Nat.mod_eq_of_lt (by omega)]
        rw [if_pos hlow, Option.map_some, Option.map_some, Option.some.injEq, ← UInt32.toNat_inj, hsum]
        omega
      · rw [if_neg hlow, randU32Up_nil h0]
        constructor
        · rintro ⟨⟩
        · intro hw
          omega
    rw [hset, card_residue hdraws.bits (by omega)]

/-- In a larger range only the least number is returned. -/
lemma rand_only_min (h : min ≤ max) (hn : 2 ^ 31 ≤ max.toNat - min.toNat) (w : UInt64) :
    (randU32MinMax min max [w]).map Prod.fst = some min := by
  have hmax := max.toNat_lt
  have hlt : min < max := by
    rw [UInt32.lt_iff_toNat_lt]
    omega
  have hcount := toNat_count h
  have hzero : (randU32Up (max - min + 1) [w]).map Prod.fst = some 0 := by
    by_cases hfull : max.toNat - min.toNat + 1 = 2 ^ 32
    · have h0 : max - min + 1 = 0 := by
        apply UInt32.toNat_inj.mp
        rw [hcount, hfull]
        rfl
      rw [randU32Up.eq_def, if_pos h0]
      rfl
    · rw [Nat.mod_eq_of_lt (by omega)] at hcount
      rw [randU32Up_large (by omega)]
      rfl
  obtain ⟨r, hr, hr0⟩ := Option.map_eq_some_iff.mp hzero
  rw [randU32MinMax_eq hlt, hr, Option.map_some, Option.map_some, hr0, UInt32.add_zero]

lemma not_unbiased_of_ge (h : min ≤ max) (hn : 2 ^ 31 ≤ max.toNat - min.toNat) : ¬ Unbiased min max := by
  rintro ⟨n, hpos, hall⟩
  have hnone : producedBy min max max = ∅ := by
    apply Finset.filter_false_of_mem
    intro w _ hw
    rw [rand_only_min h hn, Option.some.injEq] at hw
    rw [hw] at hn
    omega
  have hcard := hall max h (UInt32.le_refl max)
  rw [hnone, Finset.card_empty] at hcard
  omega

/-- **Random numbers of a range.** What is returned is in the range. Each number comes from equally many words, and
from some, exactly when the range has at most 2^31 numbers. -/
theorem rand_range_iff (h : min ≤ max) :
    (∀ words v rest, randU32MinMax min max words = some (v, rest) → min ≤ v ∧ v ≤ max) ∧
      (Unbiased min max ↔ max.toNat - min.toNat < 2 ^ 31) := by
  refine ⟨fun words v rest => randU32MinMax_mem h, fun hunb => ?_, unbiased_of_le h⟩
  by_contra hn
  exact not_unbiased_of_ge h (not_lt.mp hn) hunb

end ranges

theorem rand_range_dice : Unbiased 1 6 := by
  have h : (1 : UInt32) ≤ 6 := by decide
  exact (rand_range_iff h).2.mpr (by decide)

/-- The whole range of a `u32`. -/
theorem not_rand_range : ¬ ∀ min max : UInt32, min ≤ max → Unbiased min max := by
  intro hall
  have h : (0 : UInt32) ≤ 4294967295 := by decide
  exact not_unbiased_of_ge h (by decide) (hall _ _ h)

end Nkfs.Random
