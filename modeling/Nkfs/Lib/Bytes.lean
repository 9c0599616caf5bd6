import Mathlib

/-!
# Byte memory: fixed-width loads and stores in the two byte orders

A memory is a function from byte offsets to bytes. `loadLe m off n` and `loadBe m off n` read the
`n` bytes at `off` as one number, `storeLe` and `storeBe` write a number back, and
`copyIn m off src n` overwrites a range by a buffer. The lemmas say what a store leaves at each
offset, that a load undoes the store of the same order (up to the width), and that storing in one
order what was loaded in the other reverses the bytes.
-/

namespace Lib.Bytes

open List

/-- Bytes by offset. -/
abbrev Mem := ℕ → UInt8

/-- The `n`-byte little-endian number at `off`. -/
def loadLe (m : Mem) : ℕ → ℕ → ℕ
  | _, 0 => 0
  | off, n + 1 => (m off).toNat + 256 * loadLe m (off + 1) n

/-- The `n`-byte big-endian number at `off`. -/
def loadBe (m : Mem) (off : ℕ) : ℕ → ℕ
  | 0 => 0
  | n + 1 => 256 * loadBe m off n + (m (off + n)).toNat

/-- Store the low `n` bytes of `v` at `off`, least significant byte first. -/
def storeLe (m : Mem) (off n v : ℕ) : Mem := fun o =>
  if off ≤ o ∧ o < off + n then UInt8.ofNat (v / 256 ^ (o - off)) else m o

/-- Store the low `n` bytes of `v` at `off`, most significant byte first. -/
def storeBe (m : Mem) (off n v : ℕ) : Mem := fun o =>
  if off ≤ o ∧ o < off + n then UInt8.ofNat (v / 256 ^ (off + n - 1 - o)) else m o

/-- Overwrite the `n` bytes at `off` by the first `n` bytes of `src`. -/
def copyIn (m : Mem) (off : ℕ) (src : Mem) (n : ℕ) : Mem := fun o =>
  if off ≤ o ∧ o < off + n then src (o - off) else m o

/-- The bytes `[off, off + n)` as a list. -/
def slice (m : Mem) (off n : ℕ) : List UInt8 := (List.range n).map fun i => m (off + i)

/-! ### What a store leaves where -/

lemma storeLe_of_lt {m : Mem} {off n v o : ℕ} (h : o < off) : storeLe m off n v o = m o := by
  rw [storeLe, if_neg (by omega)]

lemma storeLe_of_ge {m : Mem} {off n v o : ℕ} (h : off + n ≤ o) : storeLe m off n v o = m o := by
  rw [storeLe, if_neg (by omega)]

lemma storeBe_of_lt {m : Mem} {off n v o : ℕ} (h : o < off) : storeBe m off n v o = m o := by
  rw [storeBe, if_neg (by omega)]

lemma storeBe_of_ge {m : Mem} {off n v o : ℕ} (h : off + n ≤ o) : storeBe m off n v o = m o := by
  rw [storeBe, if_neg (by omega)]

lemma storeLe_add {m : Mem} {off n v i : ℕ} (h : i < n) :
    storeLe m off n v (off + i) = UInt8.ofNat (v / 256 ^ i) := by
  rw [storeLe, if_pos (by omega), Nat.add_sub_cancel_left]

lemma storeBe_add {m : Mem} {off n v i : ℕ} (h : i < n) :
    storeBe m off n v (off + i) = UInt8.ofNat (v / 256 ^ (n - 1 - i)) := by
  rw [storeBe, if_pos (by omega), show off + n - 1 - (off + i) = n - 1 - i by omega]

lemma copyIn_of_lt {m src : Mem} {off n o : ℕ} (h : o < off) : copyIn m off src n o = m o := by
  rw [copyIn, if_neg (by omega)]

lemma copyIn_of_ge {m src : Mem} {off n o : ℕ} (h : off + n ≤ o) : copyIn m off src n o = m o := by
  rw [copyIn, if_neg (by omega)]

lemma copyIn_add {m src : Mem} {off n i : ℕ} (h : i < n) : copyIn m off src n (off + i) = src i := by
  rw [copyIn, if_pos (by omega), Nat.add_sub_cancel_left]

lemma copyIn_zero (m src : Mem) {n i : ℕ} (h : i < n) : copyIn m 0 src n i = src i := by
  rw [copyIn, if_pos (by omega), Nat.sub_zero]

/-- Two copies, one after the other. -/
lemma copyIn_append (m src : Mem) (off a b : ℕ) :
    copyIn (copyIn m off src a) (off + a) (fun i => src (a + i)) b = copyIn m off src (a + b) := by
  funext o
  rcases Nat.lt_or_ge o (off + a) with h | h
  · rw [copyIn_of_lt h]
    by_cases ho : off ≤ o
    · obtain ⟨i, rfl⟩ := Nat.exists_eq_add_of_le ho
      rw [copyIn_add (by omega), copyIn_add (by omega)]
    · rw [copyIn_of_lt (by omega), copyIn_of_lt (by omega)]
  · by_cases ho : o < off + a + b
    · obtain ⟨i, rfl⟩ := Nat.exists_eq_add_of_le h
      rw [copyIn_add (by omega), add_assoc, copyIn_add (by omega)]
    · rw [copyIn_of_ge (by omega), copyIn_of_ge (by omega), copyIn_of_ge (by omega)]

lemma copyIn_congr {m src src' : Mem} {off n : ℕ} (h : ∀ i < n, src i = src' i) :
    copyIn m off src n = copyIn m off src' n := by
  funext o
  by_cases ho : off ≤ o ∧ o < off + n
  · rw [copyIn, copyIn, if_pos ho, if_pos ho, h _ (by omega)]
  · rw [copyIn, copyIn, if_neg ho, if_neg ho]

lemma copyIn_none (m src : Mem) (off : ℕ) : copyIn m off src 0 = m := by
  funext o
  rcases Nat.lt_or_ge o off with h | h
  · exact copyIn_of_lt h
  · exact copyIn_of_ge h

/-! ### Loads -/

lemma loadLe_congr {m m' : Mem} : ∀ {off n : ℕ}, (∀ i < n, m (off + i) = m' (off + i)) →
    loadLe m off n = loadLe m' off n
  | _, 0, _ => rfl
  | off, n + 1, h => by
    have hrest : loadLe m (off + 1) n = loadLe m' (off + 1) n :=
      loadLe_congr fun i hi => by
        have := h (i + 1) (by omega)
        rwa [show off + (i + 1) = off + 1 + i by omega] at this
    rw [loadLe, loadLe, hrest, show m off = m' off from h 0 (by omega)]

lemma loadBe_congr {m m' : Mem} {off : ℕ} : ∀ {n : ℕ}, (∀ i < n, m (off + i) = m' (off + i)) →
    loadBe m off n = loadBe m' off n
  | 0, _ => rfl
  | n + 1, h => by
    rw [loadBe, loadBe, loadBe_congr fun i hi => h i (by omega), h n (by omega)]

lemma loadLe_lt (m : Mem) : ∀ off n : ℕ, loadLe m off n < 256 ^ n
  | _, 0 => by simp [loadLe]
  | off, n + 1 => by
    have ih := loadLe_lt m (off + 1) n
    have hb : (m off).toNat < 256 := (m off).toNat_lt
    rw [loadLe, pow_succ]
    omega

lemma loadBe_lt (m : Mem) (off : ℕ) : ∀ n : ℕ, loadBe m off n < 256 ^ n
  | 0 => by simp [loadBe]
  | n + 1 => by
    have ih := loadBe_lt m off n
    have hb : (m (off + n)).toNat < 256 := (m (off + n)).toNat_lt
    rw [loadBe, pow_succ]
    omega

/-- Byte `i` of a little-endian load is the byte of memory it came from. -/
lemma ofNat_loadLe_div (m : Mem) : ∀ {n off i : ℕ}, i < n →
    UInt8.ofNat (loadLe m off n / 256 ^ i) = m (off + i)
  | n + 1, off, 0, _ => by
    rw [pow_zero, Nat.div_one, loadLe]
    apply UInt8.toNat_inj.mp
    have hb : (m off).toNat < 256 := (m off).toNat_lt
    rw [UInt8.toNat_ofNat', show m (off + 0) = m off from rfl]
    omega
  | n + 1, off, i + 1, h => by
    have hb : (m off).toNat < 256 := (m off).toNat_lt
    have hdiv : loadLe m off (n + 1) / 256 ^ (i + 1) = loadLe m (off + 1) n / 256 ^ i := by
      rw [loadLe, pow_succ', ← Nat.div_div_eq_div_mul]
      congr 1
      omega
    rw [hdiv, ofNat_loadLe_div m (by omega), show off + 1 + i = off + (i + 1) by omega]

/-- Byte `i` of a big-endian load, counted from the low end. -/
lemma ofNat_loadBe_div (m : Mem) (off : ℕ) : ∀ {n i : ℕ}, i < n →
    UInt8.ofNat (loadBe m off n / 256 ^ i) = m (off + (n - 1 - i))
  | n + 1, 0, _ => by
    rw [pow_zero, Nat.div_one, loadBe]
    apply UInt8.toNat_inj.mp
    have hb : (m (off + n)).toNat < 256 := (m (off + n)).toNat_lt
    rw [UInt8.toNat_ofNat', show n + 1 - 1 - 0 = n by omega]
    omega
  | n + 1, i + 1, h => by
    have hb : (m (off + n)).toNat < 256 := (m (off + n)).toNat_lt
    have hdiv : loadBe m off (n + 1) / 256 ^ (i + 1) = loadBe m off n / 256 ^ i := by
      rw [loadBe, pow_succ', ← Nat.div_div_eq_div_mul]
      congr 1
      omega
    rw [hdiv, ofNat_loadBe_div m off (by omega), show n + 1 - 1 - (i + 1) = n - 1 - i by omega]

/-! ### A load undoes a store -/

lemma loadLe_of_bytes {m : Mem} {v : ℕ} : ∀ {off n : ℕ},
    (∀ i < n, m (off + i) = UInt8.ofNat (v / 256 ^ i)) → loadLe m off n = v % 256 ^ n := by
  intro off n
  induction n generalizing off v with
  | zero => intro _; simp [loadLe, Nat.mod_one]
  | succ n ih =>
    intro h
    have h0 : (m off).toNat = v % 256 := by
      have := h 0 (by omega)
      simp only [add_zero, pow_zero, Nat.div_one] at this
      rw [this, UInt8.toNat_ofNat']
    have hrest : loadLe m (off + 1) n = v / 256 % 256 ^ n := by
      apply ih
      intro i hi
      have := h (i + 1) (by omega)
      rw [show off + 1 + i = off + (i + 1) by omega, this, pow_succ', Nat.div_div_eq_div_mul]
    rw [loadLe, h0, hrest, pow_succ', Nat.mod_mul]

lemma loadLe_storeLe (m : Mem) (off n v : ℕ) : loadLe (storeLe m off n v) off n = v % 256 ^ n :=
  loadLe_of_bytes fun _ hi => storeLe_add hi

lemma loadLe_storeLe_of_disjoint {m : Mem} {off n off' n' v : ℕ} (h : off + n ≤ off' ∨ off' + n' ≤ off) :
    loadLe (storeLe m off' n' v) off n = loadLe m off n := by
  apply loadLe_congr
  intro i hi
  rcases h with h | h
  · exact storeLe_of_lt (by omega)
  · exact storeLe_of_ge (by omega)

lemma loadBe_of_bytes {m : Mem} {off v : ℕ} : ∀ {n : ℕ},
    (∀ i < n, m (off + i) = UInt8.ofNat (v / 256 ^ (n - 1 - i))) → loadBe m off n = v % 256 ^ n := by
  intro n
  induction n generalizing v with
  | zero => intro _; simp [loadBe, Nat.mod_one]
  | succ n ih =>
    intro h
    have hlast : (m (off + n)).toNat = v % 256 := by
      rw [h n (by omega), show n + 1 - 1 - n = 0 by omega, pow_zero, Nat.div_one, UInt8.toNat_ofNat']
    have hrest : loadBe m off n = v / 256 % 256 ^ n := by
      apply ih
      intro i hi
      rw [h i (by omega), show n + 1 - 1 - i = n - 1 - i + 1 by omega, pow_succ', Nat.div_div_eq_div_mul]
    rw [loadBe, hlast, hrest, pow_succ', Nat.mod_mul, add_comm]

lemma loadBe_storeBe (m : Mem) (off n v : ℕ) : loadBe (storeBe m off n v) off n = v % 256 ^ n :=
  loadBe_of_bytes fun _ hi => storeBe_add hi

/-! ### Changing the byte order -/

/-- Storing big-endian what was loaded little-endian reverses the bytes. -/
lemma storeBe_loadLe_add {d s : Mem} {off off' n i : ℕ} (h : i < n) :
    storeBe d off n (loadLe s off' n) (off + i) = s (off' + (n - 1 - i)) := by
  rw [storeBe_add h, ofNat_loadLe_div s (by omega)]

/-- And so does storing little-endian what was loaded big-endian. -/
lemma storeLe_loadBe (d s : Mem) (off off' n : ℕ) :
    storeLe d off n (loadBe s off' n) = storeBe d off n (loadLe s off' n) := by
  funext o
  by_cases h : off ≤ o ∧ o < off + n
  · obtain ⟨i, rfl⟩ := Nat.exists_eq_add_of_le h.1
    rw [storeBe_loadLe_add (by omega), storeLe_add (by omega), ofNat_loadBe_div s off' (by omega)]
  · rw [storeLe, storeBe, if_neg h, if_neg h]

/-! ### Slices -/

@[simp] lemma slice_length (m : Mem) (off n : ℕ) : (slice m off n).length = n := by
  simp [slice]

lemma slice_eq_iff {m m' : Mem} {off off' n : ℕ} :
    slice m off n = slice m' off' n ↔ ∀ i < n, m (off + i) = m' (off' + i) := by
  simp [slice]

lemma slice_add (m : Mem) (off a b : ℕ) : slice m off (a + b) = slice m off a ++ slice m (off + a) b := by
  unfold slice
  rw [range_add, map_append, map_map]
  refine congrArg _ (map_congr_left fun i _ => ?_)
  rw [Function.comp_apply, add_assoc]

lemma slice_zero_congr {m m' : Mem} {n : ℕ} (h : ∀ i < n, m i = m' i) : slice m 0 n = slice m' 0 n :=
  slice_eq_iff.mpr fun i hi => by rw [zero_add, h i hi]

/-! ### Fields of a packed structure

A field is read as it was written, whatever is written elsewhere. -/

section fields

variable {m src : Mem} {off n off' n' v : ℕ}

lemma storeBe_apart {o : ℕ} (h : o < off' ∨ off' + n' ≤ o) : storeBe m off' n' v o = m o := by
  rcases h with h | h
  · exact storeBe_of_lt h
  · exact storeBe_of_ge h

lemma storeLe_apart {o : ℕ} (h : o < off' ∨ off' + n' ≤ o) : storeLe m off' n' v o = m o := by
  rcases h with h | h
  · exact storeLe_of_lt h
  · exact storeLe_of_ge h

lemma copyIn_apart {o : ℕ} (h : o < off' ∨ off' + n' ≤ o) : copyIn m off' src n' o = m o := by
  rcases h with h | h
  · exact copyIn_of_lt h
  · exact copyIn_of_ge h

lemma loadBe_storeBe_apart (h : off + n ≤ off' ∨ off' + n' ≤ off) :
    loadBe (storeBe m off' n' v) off n = loadBe m off n := by
  apply loadBe_congr
  intro i hi
  exact storeBe_apart (by omega)

lemma loadBe_storeLe_apart (h : off + n ≤ off' ∨ off' + n' ≤ off) :
    loadBe (storeLe m off' n' v) off n = loadBe m off n := by
  apply loadBe_congr
  intro i hi
  exact storeLe_apart (by omega)

lemma loadBe_copyIn_apart (h : off + n ≤ off' ∨ off' + n' ≤ off) :
    loadBe (copyIn m off' src n') off n = loadBe m off n := by
  apply loadBe_congr
  intro i hi
  exact copyIn_apart (by omega)

lemma slice_storeBe_apart (h : off + n ≤ off' ∨ off' + n' ≤ off) :
    slice (storeBe m off' n' v) off n = slice m off n := by
  apply slice_eq_iff.mpr
  intro i hi
  exact storeBe_apart (by omega)

lemma slice_storeLe_apart (h : off + n ≤ off' ∨ off' + n' ≤ off) :
    slice (storeLe m off' n' v) off n = slice m off n := by
  apply slice_eq_iff.mpr
  intro i hi
  exact storeLe_apart (by omega)

lemma slice_copyIn : slice (copyIn m off src n) off n = slice src 0 n := by
  apply slice_eq_iff.mpr
  intro i hi
  rw [copyIn_add hi, zero_add]

end fields

/-- The `n` bytes of `v`, most significant byte first. -/
def bytesBe (n v : ℕ) : List UInt8 := (List.range n).map fun i => UInt8.ofNat (v / 256 ^ (n - 1 - i))

lemma bytesBe_loadBe (m : Mem) (off n : ℕ) : bytesBe n (loadBe m off n) = slice m off n := by
  unfold bytesBe slice
  apply map_congr_left
  intro i hi
  have hi := mem_range.mp hi
  rw [ofNat_loadBe_div m off (by omega), show n - 1 - (n - 1 - i) = i by omega]

end Lib.Bytes
