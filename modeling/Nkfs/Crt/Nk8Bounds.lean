import Nkfs.Crt.Nk8Recover

/-!
# Stripe arithmetic of the erasure code

`nk8_split_block` and `nk8_assemble_block` with the widths of their variables: `part_size` and `tail_size` are
`u32`, and the index `j*k + m` into the block is an `int`. The product `part_size*k` wraps only for blocks within
`k` bytes of `2^32`, but the index turns negative as soon as there are whole stripes beyond `2^31` bytes. Up to
there all of it is exact (`stripes32_eq`), and the two functions go through the block byte by byte, each byte
once (`splitReads_eq`, `assembleWrites_eq`).
-/

namespace Nkfs.Nk8

open Lib.Loop List

/-- The value of an `int` expression. -/
def intValue (x : ℤ) : ℤ := x.bmod (2 ^ 32)

/-- `part_size` and `tail_size` as `u32`. Source: `crt/nk8.c` `nk8_split_block`, `nk8_assemble_block` -/
def stripes32 (blockSize k : ℕ) : ℕ × ℕ :=
  let ps := partSize blockSize k
  if ps * k % 2 ^ 32 > blockSize then
    (ps - 1, (blockSize + 2 ^ 32 - (ps - 1) * k % 2 ^ 32) % 2 ^ 32)
  else (ps, 0)

/-- The offsets at which `nk8_split_block` reads the block, for one part: `block[j*k + m]` for all whole stripes,
and the copy of the tail. -/
def splitReads (blockSize k : ℕ) : List ℤ :=
  let (ps, tailSize) := stripes32 blockSize k
  ((List.range ps).flatMap fun j : ℕ => (List.range k).map fun m : ℕ => intValue (intValue (j * k) + m)) ++
    (List.range tailSize).map fun t : ℕ => (blockSize : ℤ) - tailSize + t

/-- `*sblock++ = ..` for the `k` bytes of a stripe: the offsets written and the offset of `sblock`. -/
def writeStripe (k : ℕ) (st : List ℤ × ℤ) : List ℤ × ℤ :=
  (List.range k).foldl (fun st _ => (st.1 ++ [st.2], st.2 + 1)) st

/-- The offsets at which `nk8_assemble_block` writes the block. -/
def assembleWrites (blockSize k : ℕ) : List ℤ :=
  let (ps, tailSize) := stripes32 blockSize k
  ((List.range ps).foldl (fun st _ => writeStripe k st) ([], 0)).1 ++
    (List.range tailSize).map fun t : ℕ => (blockSize : ℤ) - tailSize + t

/-- The indices `j` of `parts[i][j]` in both functions. -/
def partIndices (blockSize k : ℕ) : List ℤ :=
  let (ps, tailSize) := stripes32 blockSize k
  ((List.range ps).map fun j : ℕ => intValue j) ++ if tailSize ≠ 0 then [intValue ps] else []

/-- The offsets `0 .. size - 1`. -/
def offsets (size : ℕ) : List ℤ := (List.range size).map fun x : ℕ => (x : ℤ)

/-- No product wraps, and every access is where it should be. -/
structure StripesOk (blockSize k : ℕ) : Prop where
  product : partSize blockSize k * k < 2 ^ 32
  tail : (stripes32 blockSize k).2 ≠ 0 → 1 ≤ (stripes32 blockSize k).2 ∧ (stripes32 blockSize k).2 ≤ k - 1
  reads : ∀ x ∈ splitReads blockSize k, 0 ≤ x ∧ x < blockSize
  writes : ∀ x ∈ assembleWrites blockSize k, 0 ≤ x ∧ x < blockSize
  readOnce : (splitReads blockSize k).Perm (offsets blockSize)
  writtenOnce : (assembleWrites blockSize k).Perm (offsets blockSize)
  parts : ∀ j ∈ partIndices blockSize k, 0 ≤ j ∧ j < partSize blockSize k

section

variable {blockSize n k : ℕ}

lemma intValue_of_lt {x : ℕ} (hx : x < 2 ^ 31) : intValue x = x := by
  unfold intValue
  rw [Int.bmod_eq_of_le] <;> omega

lemma intValue_neg {x : ℕ} (hx : 2 ^ 31 ≤ x) (hlt : x < 2 ^ 32) : intValue x < 0 := by
  unfold intValue
  rw [Int.bmod_def]
  split_ifs <;> omega

lemma intValue_add (a b : ℤ) : intValue (intValue a + b) = intValue (a + b) := Int.bmod_add_bmod

/-- Below `2^31` bytes in whole stripes nothing wraps. -/
lemma stripes32_eq (hk : 0 < k) (hk' : k ≤ 254) (hwhole : blockSize / k * k ≤ 2 ^ 31) :
    stripes32 blockSize k = (blockSize / k, blockSize % k) ∧ partSize blockSize k * k < 2 ^ 32 := by
  have hdiv := Nat.div_add_mod' blockSize k
  have hmod := Nat.mod_lt blockSize hk
  unfold stripes32 partSize
  by_cases htail : blockSize % k = 0
  · have hprod : blockSize / k * k % 2 ^ 32 = blockSize / k * k := Nat.mod_eq_of_lt (by omega)
    simp only [htail, ne_eq, not_true_eq_false, if_false, add_zero, hprod]
    rw [if_neg (by omega)]
    exact ⟨rfl, by omega⟩
  · have hsucc : (blockSize / k + 1) * k = blockSize / k * k + k := Nat.succ_mul ..
    have hprod : (blockSize / k + 1) * k % 2 ^ 32 = blockSize / k * k + k := by
      rw [hsucc]
      exact Nat.mod_eq_of_lt (by omega)
    have hrest : blockSize / k * k % 2 ^ 32 = blockSize / k * k := Nat.mod_eq_of_lt (by omega)
    simp only [htail, ne_eq, not_false_eq_true, if_true, hprod, Nat.add_sub_cancel, hrest]
    rw [if_pos (by omega), hsucc]
    refine ⟨Prod.ext rfl ?_, by omega⟩
    show (blockSize + 2 ^ 32 - blockSize / k * k) % 2 ^ 32 = blockSize % k
    rw [show blockSize + 2 ^ 32 - blockSize / k * k = blockSize % k + 2 ^ 32 by omega, Nat.add_mod_right]
    exact Nat.mod_eq_of_lt (by omega)

lemma range_whole_tail : offsets (blockSize / k * k) ++
    (range (blockSize % k)).map (fun t : ℕ => (blockSize : ℤ) - (blockSize % k : ℕ) + t) =
      offsets blockSize := by
  have hdiv := Nat.div_add_mod' blockSize k
  have hrange : range blockSize = range (blockSize / k * k + blockSize % k) := by rw [hdiv]
  unfold offsets
  rw [hrange, range_add, map_append, map_map]
  refine congrArg _ (map_congr_left fun t _ => ?_)
  show (blockSize : ℤ) - (blockSize % k : ℕ) + t = ((blockSize / k * k + t : ℕ) : ℤ)
  omega

lemma splitReads_eq (hk : 0 < k) (hk' : k ≤ 254) (hwhole : blockSize / k * k ≤ 2 ^ 31) :
    splitReads blockSize k = offsets blockSize := by
  unfold splitReads
  rw [(stripes32_eq hk hk' hwhole).1, ← range_whole_tail, offsets, ← flatMap_range_mul, map_flatMap]
  refine congrArg (· ++ _) (flatMap_congr fun j hj => ?_)
  rw [map_map]
  refine map_congr_left fun m hm => ?_
  rw [mem_range] at hj hm
  have hlt : j * k + m < blockSize / k * k := by
    calc j * k + m < j * k + k := Nat.add_lt_add_left hm _
      _ = (j + 1) * k := (Nat.succ_mul ..).symm
      _ ≤ blockSize / k * k := Nat.mul_le_mul_right k hj
  rw [intValue_add]
  exact intValue_of_lt (hlt.trans_le hwhole)

lemma writeStripe_eq (base : ℕ) (l : List ℤ) : ∀ k : ℕ, writeStripe k (l, (base : ℤ)) =
    (l ++ (range k).map (fun m : ℕ => ((base + m : ℕ) : ℤ)), ((base + k : ℕ) : ℤ))
  | 0 => by simp [writeStripe]
  | k + 1 => by
    have ih := writeStripe_eq base l k
    unfold writeStripe at ih ⊢
    rw [range_succ, foldl_append, ih, map_append, ← append_assoc]
    rfl

/-- The pointer `sblock` goes through the whole stripes in order. -/
lemma writeStripes_eq (k : ℕ) : ∀ ps : ℕ, (range ps).foldl (fun st _ => writeStripe k st) ([], (0 : ℤ)) =
      (offsets (ps * k), ((ps * k : ℕ) : ℤ))
  | 0 => by simp [offsets]
  | ps + 1 => by
    rw [range_succ, foldl_append, writeStripes_eq k ps, foldl_cons, foldl_nil,
      offsets, offsets, writeStripe_eq, Nat.succ_mul, range_add, map_append, map_map]
    rfl

lemma assembleWrites_eq (hk : 0 < k) (hk' : k ≤ 254) (hwhole : blockSize / k * k ≤ 2 ^ 31) :
    assembleWrites blockSize k = offsets blockSize := by
  unfold assembleWrites
  rw [(stripes32_eq hk hk' hwhole).1]
  simp only [writeStripes_eq]
  exact range_whole_tail

lemma mem_range_cast {x : ℤ} (hx : x ∈ offsets blockSize) : 0 ≤ x ∧ x < blockSize := by
  obtain ⟨y, hy, rfl⟩ := mem_map.mp hx
  rw [mem_range] at hy
  omega

lemma partIndices_lt (hk : 2 ≤ k) (hk' : k ≤ 254) (hwhole : blockSize / k * k ≤ 2 ^ 31) :
    ∀ j ∈ partIndices blockSize k, 0 ≤ j ∧ j < partSize blockSize k := by
  have hq : blockSize / k * 2 ≤ 2 ^ 31 := (Nat.mul_le_mul_left _ hk).trans hwhole
  unfold partIndices
  rw [(stripes32_eq (by omega) hk' hwhole).1]
  intro j hj
  rw [mem_append] at hj
  unfold partSize
  rcases hj with hj | hj
  · obtain ⟨i, hi, rfl⟩ := mem_map.mp hj
    rw [mem_range] at hi
    rw [intValue_of_lt (by omega)]
    omega
  · split_ifs at hj with htail
    · rw [mem_singleton] at hj
      rw [hj, if_pos htail, intValue_of_lt (by omega)]
      omega
    · exact absurd hj not_mem_nil

lemma stripesOk_of_whole (hk : 2 ≤ k) (hk' : k ≤ 254) (hwhole : blockSize / k * k ≤ 2 ^ 31) :
    StripesOk blockSize k := by
  have hpos : 0 < k := by omega
  obtain ⟨hstripes, hprod⟩ := stripes32_eq hpos hk' hwhole
  have hreads := splitReads_eq hpos hk' hwhole
  have hwrites := assembleWrites_eq hpos hk' hwhole
  refine ⟨hprod, ?_, fun x hx => mem_range_cast (hreads ▸ hx), fun x hx => mem_range_cast (hwrites ▸ hx),
    hreads ▸ List.Perm.refl _, hwrites ▸ List.Perm.refl _, partIndices_lt hk hk' hwhole⟩
  rw [hstripes]
  have hmod := Nat.mod_lt blockSize hpos
  intro htail
  exact ⟨Nat.one_le_iff_ne_zero.mpr htail, Nat.le_sub_one_of_lt hmod⟩

lemma div_le_stripes32 (blockSize k : ℕ) : blockSize / k ≤ (stripes32 blockSize k).1 := by
  unfold stripes32
  by_cases hprod : partSize blockSize k * k % 2 ^ 32 > blockSize
  · have htail : blockSize % k ≠ 0 := fun h0 => by
      have hps : partSize blockSize k = blockSize / k := by simp [partSize, h0]
      rw [hps] at hprod
      exact absurd hprod (not_lt.mpr ((Nat.mod_le _ _).trans (Nat.div_mul_le_self ..)))
    have hps : partSize blockSize k = blockSize / k + 1 := by simp [partSize, htail]
    simp only [hprod, if_true]
    rw [hps, Nat.add_sub_cancel]
  · simp only [hprod, if_false]
    exact Nat.le_add_right ..

/-- Beyond that, the index of the last byte in the whole stripes is negative. -/
lemma whole_of_reads (hk : 0 < k) (hsize : blockSize < 2 ^ 32)
    (hreads : ∀ x ∈ splitReads blockSize k, 0 ≤ x ∧ x < blockSize) : blockSize / k * k ≤ 2 ^ 31 := by
  by_contra hwhole
  rw [not_le] at hwhole
  have hle := Nat.div_mul_le_self blockSize k
  have hq : 0 < blockSize / k := Nat.pos_of_ne_zero fun h0 => by simp [h0] at hwhole
  have hlast : (blockSize / k - 1) * k + (k - 1) = blockSize / k * k - 1 := by
    rw [Nat.sub_mul, one_mul]
    have := Nat.le_mul_of_pos_left k hq
    omega
  have hmem : intValue (intValue ((blockSize / k - 1 : ℕ) * k) + (k - 1 : ℕ)) ∈ splitReads blockSize k := by
    refine mem_append_left _ (mem_flatMap.mpr ⟨blockSize / k - 1, ?_, mem_map.mpr ⟨k - 1, ?_, rfl⟩⟩)
    · have hlt : blockSize / k - 1 < (stripes32 blockSize k).1 :=
        lt_of_lt_of_le (by omega) (div_le_stripes32 blockSize k)
      exact mem_range.mpr hlt
    · exact mem_range.mpr (by omega)
  have hneg : intValue ((blockSize / k - 1 : ℕ) * k + (k - 1 : ℕ)) < 0 := by
    rw [← Nat.cast_mul, ← Nat.cast_add, hlast]
    exact intValue_neg (by omega) (by omega)
  have hpos := (hreads _ hmem).1
  rw [intValue_add] at hpos
  omega

/-- **Stripe arithmetic.** It is right exactly while the whole stripes end within the first `2^31` bytes. -/
theorem stripes_ok_iff (blockSize n k : ℕ) (hparams : paramsOk blockSize n k = true) (hsize : blockSize < 2 ^ 32) :
    StripesOk blockSize k ↔ blockSize / k * k ≤ 2 ^ 31 := by
  obtain ⟨-, hk, -, -, -, hk'⟩ := paramsOk_iff.mp hparams
  exact ⟨fun h => whole_of_reads (by omega) hsize h.reads, stripesOk_of_whole hk hk'⟩

theorem stripes_ok_block : paramsOk 70000 3 2 = true ∧ StripesOk 70000 2 :=
  ⟨by decide, (stripes_ok_iff 70000 3 2 (by decide) (by decide)).mpr (by decide)⟩

/-- A block of `2^32 - 1` bytes in parts of 2. -/
theorem not_stripes_ok : ¬ ∀ blockSize n k : ℕ, paramsOk blockSize n k = true → blockSize < 2 ^ 32 →
    StripesOk blockSize k := by
  intro h
  have hok := h (2 ^ 32 - 1) 3 2 (by decide) (by decide)
  exact absurd (whole_of_reads (by decide) (by decide) hok.reads) (by decide)

end

end Nkfs.Nk8
