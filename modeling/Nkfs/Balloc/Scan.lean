import Nkfs.Balloc.Bitmap

/-!
# The scan of a bitmap cluster

`St.bit` is the bit of a block number. The scan of a cluster goes over its bits in order:
`Scan.Covers` says what its result tells about a stretch of them, and two stretches in a row compose
(`Scan.Covers.trans`). `St.scan_covers` is the result for the whole cluster. `blockBmBit_scan` and
`blockBmBit_inverse` relate the scan position to `nkfs_balloc_block_bm_bit`.
-/

namespace Nkfs.Balloc

open Function

/-! ### Bits of a cluster -/

/-- Bit `p` of a cluster. -/
def bitAt (longs : ℕ → BitVec 64) (p : ℕ) : Bool := (longs (p / 64)).getLsbD (p % 64)

/-- Number of blocks that one cluster of the bitmap describes. -/
def Geometry.perClu (g : Geometry) : ℕ := 8 * g.bsize

/-- The bit of a block. -/
def St.bit (s : St) (block : ℕ) : Bool :=
  bitAt (s.longs (s.geo.bmBlock + block / s.geo.perClu)) (block % s.geo.perClu)

/-- What a result of the scan tells about the bits from `p₀` to `p₁` of a cluster with `stop` bits, the first
of which is that of block `base`. -/
def Scan.Covers (bits : ℕ → Bool) (base nrBlocks stop p₀ p₁ : ℕ) : Scan → Prop
  | .found i bit => 8 ∣ i ∧ bit < 64 ∧ p₀ ≤ 8 * i + bit ∧ 8 * i + bit < p₁ ∧ base + (8 * i + bit) < nrBlocks ∧
      bits (8 * i + bit) = false ∧ ∀ q, p₀ ≤ q → q < 8 * i + bit → bits q = true
  | .nospace => ∀ q, p₀ ≤ q → q < stop → base + q < nrBlocks → bits q = true
  | .next => ∀ q, p₀ ≤ q → q < p₁ → bits q = true

section

variable {bits : ℕ → Bool} {base nrBlocks stop p₀ p₁ p₂ : ℕ} {r : Scan}

/-- A stretch without a result, then the next one. -/
lemma Scan.Covers.trans (h : Scan.Covers bits base nrBlocks stop p₀ p₁ .next)
    (h' : r.Covers bits base nrBlocks stop p₁ p₂) (hle : p₀ ≤ p₁) : r.Covers bits base nrBlocks stop p₀ p₂ := by
  -- a bit before `p₁` is set by the first stretch
  have hsplit : ∀ {P : ℕ → Prop}, (∀ q, p₁ ≤ q → P q → bits q = true) → ∀ q, p₀ ≤ q → P q → bits q = true := by
    intro P hP q hq hPq
    rcases Nat.lt_or_ge q p₁ with hlt | hge
    · exact h q hq hlt
    · exact hP q hge hPq
  cases r with
  | found i bit =>
    obtain ⟨hdvd, hbit, hle', hlt, hnr, hclear, hset⟩ := h'
    exact ⟨hdvd, hbit, hle.trans hle', hlt, hnr, hclear, hsplit hset⟩
  | nospace =>
    have hset := hsplit (P := fun q => q < stop ∧ base + q < nrBlocks) fun q hq hP => h' q hq hP.1 hP.2
    exact fun q hq hstop hnr => hset q hq ⟨hstop, hnr⟩
  | next => exact hsplit h'

lemma Scan.Covers.mono (h : r.Covers bits base nrBlocks stop p₀ p₁) (hr : r ≠ .next) (hle : p₁ ≤ p₂) :
    r.Covers bits base nrBlocks stop p₀ p₂ := by
  cases r with
  | found i bit =>
    obtain ⟨hdvd, hbit, hle', hlt, hnr, hclear, hset⟩ := h
    exact ⟨hdvd, hbit, hle', hlt.trans_le hle, hnr, hclear, hset⟩
  | nospace => exact h
  | next => exact absurd rfl hr

end

/-! ### The loops -/

section

variable {g : Geometry} (longs : ℕ → BitVec 64) {k i : ℕ}

lemma bitAt_long (hdvd : 8 ∣ i) {bit : ℕ} (hbit : bit < 64) :
    bitAt longs (8 * i + bit) = (longs (i / 8)).getLsbD bit := by
  obtain ⟨l, rfl⟩ := hdvd
  rw [bitAt, show (8 * (8 * l) + bit) / 64 = 8 * l / 8 by omega, show (8 * (8 * l) + bit) % 64 = bit by omega]

/-- The bits that are left of the long at byte `i`. -/
lemma scanBits_covers (base nrBlocks stop : ℕ) {left : ℕ} (hdvd : 8 ∣ i) (hleft : left ≤ 64) :
    (scanBits nrBlocks (base + 8 * i) (longs (i / 8)) i left).Covers (bitAt longs) base nrBlocks stop
      (8 * i + (64 - left)) (8 * i + 64) := by
  induction left with
  | zero => exact fun q hq hlt => absurd hlt (by omega)
  | succ left ih =>
    rw [scanBits]
    have hbit := bitAt_long longs hdvd (show 64 - (left + 1) < 64 by omega)
    split_ifs with hnr hclear
    · exact fun q hq _ hlt => absurd hlt (by omega)
    · rw [Bool.not_eq_true', ← hbit] at hclear
      exact ⟨hdvd, by omega, le_refl _, by omega, by omega, hclear, fun q hq hlt => absurd hlt (by omega)⟩
    · rw [Bool.not_eq_true', ← hbit, Bool.not_eq_false] at hclear
      have hone : Scan.Covers (bitAt longs) base nrBlocks stop (8 * i + (64 - (left + 1))) (8 * i + (64 - left))
          .next := by
        intro q hq hlt
        obtain rfl : q = 8 * i + (64 - (left + 1)) := by omega
        exact hclear
      exact hone.trans (ih (by omega)) (by omega)

/-- The longs that are left of a page. -/
lemma scanLongs_covers (left stop : ℕ) (hk : k < g.bmBlocks) (hdvd : 8 ∣ i) (hroom : i + 8 * left ≤ g.bsize) :
    (scanLongs g longs k left i).Covers (bitAt longs) (8 * k * g.bsize) g.nrBlocks stop (8 * i) (8 * (i + 8 * left)) := by
  induction left generalizing i with
  | zero => exact fun q hq hlt => absurd hlt (by omega)
  | succ left ih =>
    -- block numbers do not wrap
    have hmod : (8 * k * g.bsize + 8 * i) % 2 ^ 64 = 8 * k * g.bsize + 8 * i := by
      have hbits : 8 * g.bsize * g.bmBlocks ≤ 2 ^ 64 := g.bits_lt
      have hmul : 8 * g.bsize * (k + 1) ≤ 8 * g.bsize * g.bmBlocks := Nat.mul_le_mul_left _ hk
      rw [show 8 * g.bsize * (k + 1) = 8 * k * g.bsize + 8 * g.bsize by ring] at hmul
      exact Nat.mod_eq_of_lt (by omega)
    have hrest := ih (i := i + 8) (by omega) (by omega)
    rw [show 8 * (i + 8 + 8 * left) = 8 * (i + 8 * (left + 1)) by ring, show 8 * (i + 8) = 8 * i + 64 by ring] at hrest
    have hbits := scanBits_covers longs (8 * k * g.bsize) g.nrBlocks stop hdvd (le_refl 64)
    rw [Nat.sub_self, add_zero] at hbits
    rw [scanLongs, hmod]
    split_ifs with hnr hfull
    · exact fun q hq _ hlt => absurd hlt (by omega)
    · -- a long with all bits set
      refine Scan.Covers.trans (fun q hq hlt => ?_) hrest (by omega)
      obtain ⟨bit, rfl⟩ := Nat.exists_eq_add_of_le hq
      rw [bitAt_long longs hdvd (by omega), hfull, BitVec.getLsbD_not]
      simp only [BitVec.getLsbD_zero, Bool.not_false, Bool.and_true, decide_eq_true_eq]
      omega
    · split
      next hnext =>
        rw [hnext] at hbits
        exact hbits.trans hrest (by omega)
      next hr => exact hbits.mono hr (by omega)

lemma scanPages_covers_from {left stop : ℕ} (hk : k < g.bmBlocks) (hi : i + left * pageSize = g.bsize)
    (hdvd : 8 ∣ i) (hstop : stop = 8 * g.bsize) :
    (scanPages g longs k left i).Covers (bitAt longs) (8 * k * g.bsize) g.nrBlocks stop (8 * i) stop := by
  induction left generalizing i with
  | zero => exact fun q hq hlt => absurd hlt (by omega)
  | succ left ih =>
    rw [Nat.add_mul, one_mul] at hi
    have hpage : 8 * (pageSize / 8) = pageSize := rfl
    have hlongs := scanLongs_covers longs (pageSize / 8) stop hk hdvd (by omega)
    rw [hpage] at hlongs
    rw [scanPages]
    split
    next hnext =>
      rw [hnext] at hlongs
      refine hlongs.trans (ih (by omega) ?_) (by omega)
      exact hdvd.add ⟨pageSize / 8, hpage.symm⟩
    next hr => exact hlongs.mono hr (by omega)

end

/-! ### Positions and blocks -/

section

variable {g : Geometry} {k i bit block : ℕ}

lemma Geometry.bsize_eq (g : Geometry) : g.bsize = 8 * (512 * g.pages) := by
  rw [Geometry.bsize, pageSize]
  ring

lemma Geometry.bsize_pos (g : Geometry) : 0 < g.bsize := by
  have := g.pages_pos
  rw [g.bsize_eq]
  omega

lemma Geometry.perClu_pos (g : Geometry) : 0 < g.perClu := by
  rw [Geometry.perClu]
  exact Nat.mul_pos (by decide) g.bsize_pos

/-- The block of a scan position. -/
def Geometry.blockAt (g : Geometry) (k i bit : ℕ) : ℕ := 8 * k * g.bsize + 8 * i + bit

lemma Geometry.blockAt_eq (g : Geometry) : g.blockAt k i bit = g.perClu * k + (8 * i + bit) := by
  rw [Geometry.blockAt, Geometry.perClu]
  ring

lemma Geometry.pos_lt (g : Geometry) (hi : i < g.bsize) (hdvd : 8 ∣ i) (hbit : bit < 64) : 8 * i + bit < g.perClu := by
  have hsize := g.bsize_eq
  rw [Geometry.perClu]
  omega

lemma Geometry.blockAt_div (g : Geometry) (hi : i < g.bsize) (hdvd : 8 ∣ i) (hbit : bit < 64) :
    g.blockAt k i bit / g.perClu = k := by
  rw [g.blockAt_eq, Nat.mul_add_div g.perClu_pos, Nat.div_eq_of_lt (g.pos_lt hi hdvd hbit), add_zero]

lemma Geometry.blockAt_mod (g : Geometry) (hi : i < g.bsize) (hdvd : 8 ∣ i) (hbit : bit < 64) :
    g.blockAt k i bit % g.perClu = 8 * i + bit := by
  rw [g.blockAt_eq, Nat.mul_add_mod, Nat.mod_eq_of_lt (g.pos_lt hi hdvd hbit)]

/-- `nkfs_balloc_block_bm_bit` finds the position of the block of a scan position. -/
lemma blockBmBit_scan (hi : i < g.bsize) (hdvd : 8 ∣ i) (hbit : bit < 64) (hnr : g.blockAt k i bit < g.nrBlocks) :
    blockBmBit g (g.blockAt k i bit) = .ok (g.bmBlock + k, i, bit) := by
  obtain ⟨l, rfl⟩ := hdvd
  have hblock : g.blockAt k (8 * l) bit = 64 * (512 * g.pages * k + l) + bit := by
    rw [Geometry.blockAt, g.bsize_eq]
    ring
  have hlong : g.blockAt k (8 * l) bit / 64 * 8 = g.bsize * k + 8 * l := by
    rw [hblock, Nat.mul_add_div (by decide), Nat.div_eq_of_lt hbit, g.bsize_eq]
    ring
  have hmod : g.blockAt k (8 * l) bit % 64 = bit := by
    rw [hblock, Nat.mul_add_mod, Nat.mod_eq_of_lt hbit]
  rw [blockBmBit, if_neg (not_le.mpr hnr)]
  dsimp only
  rw [hlong, hmod, Nat.mul_add_div g.bsize_pos, Nat.mul_add_mod, Nat.div_eq_of_lt hi, Nat.mod_eq_of_lt hi, add_zero]

/-- The position of a block in its cluster. -/
lemma Geometry.pos_spec (g : Geometry) (block : ℕ) : ∃ k i bit, i < g.bsize ∧ 8 ∣ i ∧ bit < 64 ∧
    block = g.blockAt k i bit := by
  have hlt := Nat.mod_lt block g.perClu_pos
  rw [Geometry.perClu] at hlt
  have hsize := g.bsize_eq
  refine ⟨block / g.perClu, block % g.perClu / 64 * 8, block % g.perClu % 64, ?_, ⟨_, mul_comm _ _⟩,
    Nat.mod_lt _ (by decide), ?_⟩
  · rw [Geometry.perClu]
    omega
  · rw [g.blockAt_eq]
    have hdiv := Nat.div_add_mod block g.perClu
    omega

/-- The two address computations are inverse. -/
lemma blockBmBit_inverse {clu : ℕ} (h : blockBmBit g block = .ok (clu, i, bit)) :
    g.bmBlock ≤ clu ∧ i < g.bsize ∧ 8 ∣ i ∧ bit < 64 ∧ g.blockAt (clu - g.bmBlock) i bit = block := by
  have hnr : block < g.nrBlocks := by
    by_contra hge
    rw [blockBmBit, if_pos (not_lt.mp hge)] at h
    cases h
  obtain ⟨k, i', bit', hi, hdvd, hbit, rfl⟩ := g.pos_spec block
  rw [blockBmBit_scan hi hdvd hbit hnr, Except.ok.injEq, Prod.mk.injEq, Prod.mk.injEq] at h
  obtain ⟨rfl, rfl, rfl⟩ := h
  refine ⟨Nat.le_add_right _ _, hi, hdvd, hbit, ?_⟩
  rw [Nat.add_sub_cancel_left]

end

/-! ### Marking a block -/

section

variable {s : St} {k i bit block : ℕ} {use : Bool}

lemma getLsbD_setBit (w : BitVec 64) {bit j : ℕ} (hj : j < 64) (use : Bool) :
    (setBit w bit use).getLsbD j = if j = bit then use else w.getLsbD j := by
  have hone : (1#64 <<< bit).getLsbD j = decide (j = bit) := by
    rw [← BitVec.twoPow_eq, BitVec.getLsbD_twoPow]
    by_cases hbit : bit = j
    · simp [hbit, hj]
    · simp [hbit, Ne.symm hbit]
  cases use with
  | true =>
    rw [setBit, if_pos rfl, BitVec.getLsbD_or, hone]
    split_ifs with h <;> simp [h]
  | false =>
    rw [setBit, if_neg Bool.false_ne_true, BitVec.getLsbD_and, BitVec.getLsbD_not, hone]
    split_ifs with h <;> simp [h, hj]

/-- A bit set and cleared again. -/
lemma setBit_setBit (w : BitVec 64) {bit : ℕ} (h : w.getLsbD bit = !use) :
    setBit (setBit w bit use) bit (!use) = w := by
  refine BitVec.eq_of_getLsbD_eq fun j hj => ?_
  rw [getLsbD_setBit _ hj, getLsbD_setBit _ hj]
  split_ifs with heq
  · rw [heq, h]
  · rfl

/-- The state with the bit of a block set or cleared and the counter adjusted. -/
def St.mark (s : St) (block : ℕ) (use : Bool) : St :=
  { s with
    longs :=
      let clu := s.geo.bmBlock + block / s.geo.perClu
      let long := block % s.geo.perClu / 64
      Function.update s.longs clu
        (Function.update (s.longs clu) long (setBit (s.longs clu long) (block % s.geo.perClu % 64) use))
    used := if use then s.used + 1 else s.used - 1 }

/-- A bit of the bitmap after a block was marked. -/
lemma St.getLsbD_mark (hi : i < s.geo.bsize) (hdvd : 8 ∣ i) (hbit : bit < 64) (c l : ℕ) {j : ℕ} (hj : j < 64) :
    ((s.mark (s.geo.blockAt k i bit) use).longs c l).getLsbD j =
      if c = s.geo.bmBlock + k ∧ l = i / 8 ∧ j = bit then use else (s.longs c l).getLsbD j := by
  obtain ⟨l', rfl⟩ := hdvd
  rw [St.mark, s.geo.blockAt_div hi ⟨l', rfl⟩ hbit, s.geo.blockAt_mod hi ⟨l', rfl⟩ hbit,
    show (8 * (8 * l') + bit) / 64 = 8 * l' / 8 by omega, show (8 * (8 * l') + bit) % 64 = bit by omega]
  dsimp only
  by_cases hc : c = s.geo.bmBlock + k
  · subst hc
    rw [update_self]
    by_cases hl : l = 8 * l' / 8
    · subst hl
      rw [update_self, getLsbD_setBit _ hj]
      simp only [true_and]
    · rw [update_of_ne hl, if_neg fun h => hl h.2.1]
  · rw [update_of_ne hc, if_neg fun h => hc h.1]

lemma markBit_run (hi : i < s.geo.bsize) (hdvd : 8 ∣ i) (hbit : bit < 64) :
    markBit (s.geo.bmBlock + k) (i / 8) bit use s = .ok ((), s.mark (s.geo.blockAt k i bit) use) := by
  obtain ⟨l, rfl⟩ := hdvd
  rw [St.mark, s.geo.blockAt_div hi ⟨l, rfl⟩ hbit, s.geo.blockAt_mod hi ⟨l, rfl⟩ hbit,
    show (8 * (8 * l) + bit) / 64 = 8 * l / 8 by omega, show (8 * (8 * l) + bit) % 64 = bit by omega]
  rfl

lemma St.bit_blockAt (hi : i < s.geo.bsize) (hdvd : 8 ∣ i) (hbit : bit < 64) :
    s.bit (s.geo.blockAt k i bit) = (s.longs (s.geo.bmBlock + k) (i / 8)).getLsbD bit := by
  rw [St.bit, s.geo.blockAt_div hi hdvd hbit, s.geo.blockAt_mod hi hdvd hbit, bitAt_long _ hdvd hbit]

/-- Marking a block changes its bit and no other. -/
lemma St.bit_mark (s : St) (block b : ℕ) (use : Bool) :
    (s.mark block use).bit b = if b = block then use else s.bit b := by
  have hgeo : (s.mark block use).geo = s.geo := rfl
  rw [St.bit, hgeo, bitAt, St.mark]
  dsimp only
  have hj := Nat.mod_lt (b % s.geo.perClu) (show 0 < 64 by decide)
  by_cases hclu : b / s.geo.perClu = block / s.geo.perClu
  · rw [hclu, update_self]
    by_cases hlong : b % s.geo.perClu / 64 = block % s.geo.perClu / 64
    · rw [hlong, update_self, getLsbD_setBit _ hj]
      have hsame : b % s.geo.perClu % 64 = block % s.geo.perClu % 64 ↔ b = block := by
        have h₁ := Nat.div_add_mod b s.geo.perClu
        have h₂ := Nat.div_add_mod block s.geo.perClu
        rw [hclu] at h₁
        refine ⟨fun h => ?_, fun h => by rw [h]⟩
        have : b % s.geo.perClu = block % s.geo.perClu := by omega
        omega
      rw [if_congr hsame rfl rfl, St.bit, hclu, bitAt, hlong]
    · rw [update_of_ne hlong, if_neg fun h => hlong (by rw [h]), St.bit, hclu, bitAt]
  · rw [update_of_ne fun h => hclu (Nat.add_left_cancel h), if_neg fun h => hclu (by rw [h]), St.bit, bitAt]

/-- Marking a block and undoing it. -/
lemma St.longs_mark_mark (h : s.bit block = !use) : ((s.mark block use).mark block (!use)).longs = s.longs := by
  rw [St.mark, St.mark]
  dsimp only
  rw [update_self, update_self, update_idem, update_idem, setBit_setBit _ h, update_eq_self, update_eq_self]

end

/-! ### The scan of a cluster, by blocks -/

section

variable {s : St} {k i bit : ℕ}

/-- The scan of cluster `k` of the bitmap. -/
def St.scan (s : St) (k : ℕ) : Scan := scanPages s.geo (s.longs (s.geo.bmBlock + k)) k s.geo.pages 0

lemma St.scan_covers (hk : k < s.geo.bmBlocks) : (s.scan k).Covers (bitAt (s.longs (s.geo.bmBlock + k)))
    (8 * k * s.geo.bsize) s.geo.nrBlocks s.geo.perClu 0 s.geo.perClu :=
  scanPages_covers_from _ hk (zero_add _) (dvd_zero 8) rfl

/-- Bit of a block of cluster `k`. -/
lemma St.bit_of_div {b : ℕ} (hb : b / s.geo.perClu = k) : 8 * k * s.geo.bsize + b % s.geo.perClu = b ∧
      bitAt (s.longs (s.geo.bmBlock + k)) (b % s.geo.perClu) = s.bit b := by
  refine ⟨?_, by rw [St.bit, hb]⟩
  have hdiv := Nat.div_add_mod b s.geo.perClu
  rw [hb] at hdiv
  rw [show 8 * k * s.geo.bsize = s.geo.perClu * k by rw [Geometry.perClu]; ring]
  exact hdiv

/-- The scan finds the lowest clear bit of its cluster. -/
lemma St.scan_found (hk : k < s.geo.bmBlocks) (h : s.scan k = .found i bit) :
    i < s.geo.bsize ∧ 8 ∣ i ∧ bit < 64 ∧ s.geo.blockAt k i bit < s.geo.nrBlocks ∧
      s.bit (s.geo.blockAt k i bit) = false ∧
      ∀ b, b / s.geo.perClu = k → b < s.geo.blockAt k i bit → s.bit b = true := by
  have hcov := s.scan_covers hk
  rw [h] at hcov
  obtain ⟨hdvd, hbit, -, hlt, hnr, hclear, hset⟩ := hcov
  rw [Geometry.perClu] at hlt
  have hi : i < s.geo.bsize := by omega
  refine ⟨hi, hdvd, hbit, by rw [Geometry.blockAt]; omega, ?_, fun b hb hlow => ?_⟩
  · rw [St.bit_blockAt hi hdvd hbit, ← bitAt_long _ hdvd hbit]
    exact hclear
  · obtain ⟨hpos, hval⟩ := St.bit_of_div hb
    rw [← hval]
    rw [Geometry.blockAt] at hlow
    exact hset _ (Nat.zero_le _) (by omega)

/-- A scan without a result has seen no clear bit of the device. -/
lemma St.scan_not_found (hk : k < s.geo.bmBlocks) (h : ∀ i bit, s.scan k ≠ .found i bit) {b : ℕ}
    (hb : b / s.geo.perClu = k) (hnr : b < s.geo.nrBlocks) : s.bit b = true := by
  have hcov := s.scan_covers hk
  obtain ⟨hpos, hval⟩ := St.bit_of_div hb
  have hlt := Nat.mod_lt b s.geo.perClu_pos
  rw [← hval]
  cases hr : s.scan k with
  | found i bit => exact absurd hr (h i bit)
  | nospace =>
    rw [hr] at hcov
    exact hcov _ (Nat.zero_le _) hlt (by omega)
  | next =>
    rw [hr] at hcov
    exact hcov _ (Nat.zero_le _) hlt

/-- Cluster `k` of the bitmap has a clear bit of the device. -/
def St.FreeIn (s : St) (k : ℕ) : Prop := ∃ b, b < s.geo.nrBlocks ∧ b / s.geo.perClu = k ∧ s.bit b = false

lemma St.freeIn_iff (hk : k < s.geo.bmBlocks) : s.FreeIn k ↔ ∃ i bit, s.scan k = .found i bit := by
  constructor
  · rintro ⟨b, hnr, hb, hclear⟩
    by_contra hnot
    have hset := St.scan_not_found hk (fun i bit h => hnot ⟨i, bit, h⟩) hb hnr
    rw [hclear] at hset
    cases hset
  · rintro ⟨i, bit, h⟩
    obtain ⟨hi, hdvd, hbit, hnr, hclear, -⟩ := St.scan_found hk h
    exact ⟨_, hnr, s.geo.blockAt_div hi hdvd hbit, hclear⟩

end

end Nkfs.Balloc
