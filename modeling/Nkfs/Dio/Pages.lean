import Nkfs.Dio.CacheInvariant

/-!
# A cluster page by page

A cluster is an array of pages, each in a place of its own. `dio_pages_io` cuts a range at page boundaries and
copies piece by piece, and `dio_clu_map` computes the page and the offset of one byte. The cache has a cluster as one
memory; here the pages are apart, and `flat` is the memory they make up.

A round on pages is a round on that memory (`pagesLoop_flat`), so what is known of the loop there holds of the pages:
a write replaces its range and nothing else, a read returns it (`paged_copy_flat`). A copy that would leave its page
is a fault here, and does not happen.
-/

namespace Nkfs.Paged

open Lib.Bytes List

/-! ### The code -/

inductive PageFault where
  /-- An `NKFS_BUG_ON` fired. -/
  | bug
  /-- A copy went over the end of its page. -/
  | oob
  /-- The loop did not end. -/
  | hang
  deriving DecidableEq, Repr

/-- The pages of a cluster and its size, as `dio_clu_alloc` sets them.
Source: `core/dio.h` `struct dio_cluster`, `struct dio_pages` -/
structure Cluster where
  nrPages : ℕ
  cluSize : ℕ
  /-- `page_address(pages[i])`. -/
  pages : ℕ → Mem
  size_eq : cluSize = nrPages * pageSize

/-- The loop of `dio_pages_io`, with the pages and the buffer. -/
def pagesLoop (nrPages : ℕ) (write : Bool) :
    ℕ → ℕ → ℕ → ℕ → ℕ → (ℕ → Mem) → Mem → Except PageFault ((ℕ → Mem) × Mem)
  | 0, _, _, _, _, _, _ => .error .hang
  | fuel + 1, pgIdx, pgOff, read, len, pages, buf =>
    if read < len then
      if pgIdx ≥ nrPages then .error .bug
      else
        let step := if len - read > pageSize - pgOff then pageSize - pgOff else len - read
        if pgOff + step > pageSize then .error .oob
        else if write then
          pagesLoop nrPages write fuel (pgIdx + 1) 0 (read + step) len
            (Function.update pages pgIdx (copyIn (pages pgIdx) pgOff (fun i => buf (read + i)) step)) buf
        else
          pagesLoop nrPages write fuel (pgIdx + 1) 0 (read + step) len pages
            (copyIn buf read (fun i => pages pgIdx (pgOff + i)) step)
    else .ok (pages, buf)

/-- Source: `core/dio.c` `dio_pages_io` -/
def dioPagesIo (clu : Cluster) (write : Bool) (buf : Mem) (off len : ℕ) : Except PageFault ((ℕ → Mem) × Mem) :=
  if off + len > clu.nrPages * pageSize then .error .bug
  else pagesLoop clu.nrPages write (len + 1) (off >>> 12) (off &&& (pageSize - 1)) 0 len clu.pages buf

/-- The page and the offset in it. Source: `core/dio.c` `dio_clu_map` -/
def dioCluMap (clu : Cluster) (off : ℕ) : Except PageFault (ℕ × ℕ) :=
  if off > clu.cluSize then .error .bug
  else
    let pgIdx := off >>> 12
    let pgOff := off &&& (pageSize - 1)
    if pgIdx ≥ clu.nrPages then .error .bug else .ok (pgIdx, pgOff)

/-! ### Pages in a row -/

/-- The pages as one memory. -/
def flat (pages : ℕ → Mem) : Mem := fun o => pages (o / pageSize) (o % pageSize)

/-- The bytes of the first `n` pages, one page after the other. -/
def concat (pages : ℕ → Mem) (n : ℕ) : List UInt8 := (List.range n).flatMap fun p => slice (pages p) 0 pageSize

section flat

variable {pages : ℕ → Mem} {p o : ℕ}

lemma shift_eq (off : ℕ) : off >>> 12 = off / pageSize := Nat.shiftRight_eq_div_pow off 12

lemma and_eq (off : ℕ) : off &&& (pageSize - 1) = off % pageSize := Nat.and_two_pow_sub_one_eq_mod off 12

lemma flat_add (h : o < pageSize) : flat pages (p * pageSize + o) = pages p o := by
  have hpos : 0 < pageSize := by decide
  have hdiv : (p * pageSize + o) / pageSize = p := by
    rw [mul_comm, Nat.mul_add_div hpos, Nat.div_eq_of_lt h, add_zero]
  have hmod : (p * pageSize + o) % pageSize = o := by
    rw [mul_comm, Nat.mul_add_mod, Nat.mod_eq_of_lt h]
  rw [flat, hdiv, hmod]

/-- The bytes in a row are the memory from 0 on. -/
lemma concat_eq (pages : ℕ → Mem) (n : ℕ) : concat pages n = slice (flat pages) 0 (n * pageSize) := by
  induction n with
  | zero =>
    rw [zero_mul]
    rfl
  | succ n ih =>
    have hpage : slice (pages n) 0 pageSize = slice (flat pages) (0 + n * pageSize) pageSize := by
      apply slice_eq_iff.mpr
      intro i hi
      rw [zero_add, zero_add, flat_add hi]
    have hsnoc : concat pages (n + 1) = concat pages n ++ slice (pages n) 0 pageSize := by
      simp [concat, range_succ]
    rw [hsnoc, ih, hpage, Nat.succ_mul, slice_add]

/-- A copy into a page is a copy into the memory. -/
lemma flat_update {src : Mem} {k : ℕ} (h : o + k ≤ pageSize) :
    flat (Function.update pages p (copyIn (pages p) o src k)) = copyIn (flat pages) (p * pageSize + o) src k := by
  have hpos : 0 < pageSize := by decide
  funext x
  have hx : x / pageSize * pageSize + x % pageSize = x := Nat.div_add_mod' x pageSize
  have hlt : x % pageSize < pageSize := Nat.mod_lt x hpos
  unfold flat
  by_cases hp : x / pageSize = p
  · rw [hp, Function.update_self]
    rw [hp] at hx
    unfold copyIn
    simp only [hp]
    by_cases hin : o ≤ x % pageSize ∧ x % pageSize < o + k
    · rw [if_pos hin, if_pos (by omega)]
      congr 1
      omega
    · rw [if_neg hin, if_neg (by omega)]
  · rw [Function.update_of_ne hp, copyIn_apart]
    rcases Nat.lt_or_gt_of_ne hp with hlt' | hgt
    · have hmul : (x / pageSize + 1) * pageSize ≤ p * pageSize := Nat.mul_le_mul_right _ hlt'
      rw [Nat.add_mul] at hmul
      omega
    · have hmul : (p + 1) * pageSize ≤ x / pageSize * pageSize := Nat.mul_le_mul_right _ hgt
      rw [Nat.add_mul] at hmul
      omega

end flat

/-! ### The loop -/

/-- **Rounds on pages are rounds on the memory.** Pages beyond the cluster are left alone. -/
theorem pagesLoop_flat {nrPages len : ℕ} {write : Bool} {m b : Mem} :
    ∀ {fuel pgIdx pgOff read : ℕ} {pages : ℕ → Mem} {buf : Mem}, pgOff < pageSize →
      pagesIoLoop nrPages write fuel pgIdx pgOff read len (flat pages) buf = .ok (m, b) →
      ∃ pages', pagesLoop nrPages write fuel pgIdx pgOff read len pages buf = .ok (pages', b) ∧ flat pages' = m ∧
        ∀ p, nrPages ≤ p → pages' p = pages p := by
  intro fuel
  induction fuel with
  | zero =>
    intro pgIdx pgOff read pages buf _ h
    cases h
  | succ fuel ih =>
    intro pgIdx pgOff read pages buf hoff h
    rw [pagesIoLoop] at h
    rw [pagesLoop]
    by_cases hread : read < len
    · rw [if_pos hread] at h ⊢
      by_cases hidx : pgIdx ≥ nrPages
      · rw [if_pos hidx] at h
        cases h
      rw [if_neg hidx] at h ⊢
      have hstep : pgOff + (if len - read > pageSize - pgOff then pageSize - pgOff else len - read) ≤ pageSize := by
        split_ifs <;> omega
      dsimp only at h ⊢
      rw [if_neg (not_lt.mpr hstep)]
      generalize (if len - read > pageSize - pgOff then pageSize - pgOff else len - read) = step at *
      cases write with
      | true =>
        rw [if_pos rfl] at h ⊢
        rw [← flat_update hstep] at h
        obtain ⟨pages', hrun, hflat, hrest⟩ := ih (by decide) h
        refine ⟨pages', hrun, hflat, fun p hp => ?_⟩
        rw [hrest p hp, Function.update_of_ne (by omega)]
      | false =>
        have hsrc : ∀ i < step, flat pages (pgIdx * pageSize + pgOff + i) = pages pgIdx (pgOff + i) := by
          intro i hi
          rw [Nat.add_assoc, flat_add (by omega)]
        rw [if_neg (by decide)] at h ⊢
        rw [copyIn_congr hsrc] at h
        exact ih (by decide) h
    · rw [if_neg hread] at h ⊢
      cases h
      exact ⟨pages, rfl, rfl, fun _ _ => rfl⟩

section io

variable {clu : Cluster} {buf : Mem} {off len : ℕ}

lemma dioPagesIo_flat {write : Bool} {m b : Mem}
    (h : Nkfs.dioPagesIo clu.nrPages write (flat clu.pages) buf off len = .ok (m, b)) :
    ∃ pages', dioPagesIo clu write buf off len = .ok (pages', b) ∧ flat pages' = m ∧
      ∀ p, clu.nrPages ≤ p → pages' p = clu.pages p := by
  rw [Nkfs.dioPagesIo] at h
  unfold dioPagesIo
  by_cases hsize : off + len > clu.nrPages * pageSize
  · rw [if_pos hsize] at h
    cases h
  · rw [if_neg hsize] at h
    rw [if_neg hsize, shift_eq, and_eq]
    exact pagesLoop_flat (Nat.mod_lt _ (by decide)) h

/-- The bytes before a range, in it and behind it. -/
lemma slice_split (m : Mem) {n : ℕ} (h : off + len ≤ n) :
    slice m 0 n = slice m 0 off ++ (slice m off len ++ slice m (off + len) (n - (off + len))) := by
  have hadd := slice_add m 0 (off + len) (n - (off + len))
  rw [slice_add m 0 off len, zero_add, zero_add, Nat.add_sub_cancel' h, append_assoc] at hadd
  exact hadd

lemma take_drop_slice (m : Mem) {n : ℕ} (h : off + len ≤ n) : ((slice m 0 n).drop off).take len = slice m off len := by
  rw [slice_split m h, drop_left' (slice_length ..), take_left' (slice_length ..)]

/-- The bytes with a range replaced. -/
lemma slice_copyIn_range (m src : Mem) {n : ℕ} (h : off + len ≤ n) :
    slice (copyIn m off src len) 0 n = (slice m 0 n).take off ++ slice src 0 len ++ (slice m 0 n).drop (off + len) := by
  have hleft : slice (copyIn m off src len) 0 off = slice m 0 off := by
    apply slice_zero_congr
    intro i hi
    exact copyIn_of_lt hi
  have hright : slice (copyIn m off src len) (off + len) (n - (off + len)) = slice m (off + len) (n - (off + len)) := by
    apply slice_eq_iff.mpr
    intro i _
    exact copyIn_of_ge (by omega)
  have htake : (slice m 0 n).take off = slice m 0 off := by
    rw [slice_split m h, take_left' (slice_length ..)]
  have hdrop : (slice m 0 n).drop (off + len) = slice m (off + len) (n - (off + len)) := by
    rw [slice_split m h, ← append_assoc, drop_left']
    rw [length_append, slice_length, slice_length]
  rw [slice_split _ h, hleft, slice_copyIn, hright, htake, hdrop, append_assoc]

/-- **Paged and flat copies.** A write puts the buffer over the range of the bytes in a row and leaves every other
byte, a read gives the range, and neither stops. A mapped offset is the byte at that place. -/
theorem paged_copy_flat (clu : Cluster) (buf : Mem) (off len : ℕ) (h : off + len ≤ clu.nrPages * pageSize) :
    (∃ pages', dioPagesIo clu true buf off len = .ok (pages', buf) ∧
      concat pages' clu.nrPages =
        (concat clu.pages clu.nrPages).take off ++ slice buf 0 len ++ (concat clu.pages clu.nrPages).drop (off + len) ∧
      ∀ p, clu.nrPages ≤ p → pages' p = clu.pages p) ∧
    (∃ pages' buf', dioPagesIo clu false buf off len = .ok (pages', buf') ∧
      concat pages' clu.nrPages = concat clu.pages clu.nrPages ∧
      slice buf' 0 len = ((concat clu.pages clu.nrPages).drop off).take len ∧ ∀ i, len ≤ i → buf' i = buf i) ∧
    ∀ o < clu.nrPages * pageSize, ∃ p q, dioCluMap clu o = .ok (p, q) ∧ p < clu.nrPages ∧ q < pageSize ∧
      (concat clu.pages clu.nrPages)[o]? = some (clu.pages p q) := by
  refine ⟨?_, ?_, fun o ho => ?_⟩
  · have hwrite : Nkfs.dioPagesIo clu.nrPages true (flat clu.pages) buf off len =
        .ok (copyIn (flat clu.pages) off buf len, buf) := dioPagesIo_write h
    obtain ⟨pages', hrun, hflat, hrest⟩ := dioPagesIo_flat hwrite
    refine ⟨pages', hrun, ?_, hrest⟩
    rw [concat_eq, concat_eq, hflat, slice_copyIn_range _ _ h]
  · have hread : Nkfs.dioPagesIo clu.nrPages false (flat clu.pages) buf off len =
        .ok (flat clu.pages, copyIn buf 0 (fun i => flat clu.pages (off + i)) len) := dioPagesIo_read h
    obtain ⟨pages', hrun, hflat, -⟩ := dioPagesIo_flat hread
    refine ⟨pages', _, hrun, ?_, ?_, fun i hi => copyIn_of_ge (by omega)⟩
    · rw [concat_eq, concat_eq, hflat]
    · rw [slice_copyIn, concat_eq, take_drop_slice _ h]
      apply slice_eq_iff.mpr
      intro i _
      rw [Nat.zero_add]
  · have hidx : o / pageSize < clu.nrPages := Nat.div_lt_of_lt_mul (by rwa [Nat.mul_comm] at ho)
    have hsize : ¬ o > clu.cluSize := by
      rw [clu.size_eq]
      omega
    refine ⟨o / pageSize, o % pageSize, ?_, hidx, Nat.mod_lt _ (by decide), ?_⟩
    · rw [dioCluMap, if_neg hsize]
      simp only [shift_eq, and_eq]
      rw [if_neg (not_le.mpr hidx)]
    · rw [concat_eq]
      simp [slice, ho, flat]

end io

/-- A page of zeros. -/
theorem paged_copy_flat_single :
    ∃ pages', dioPagesIo ⟨1, pageSize, fun _ _ => 0, (Nat.one_mul _).symm⟩ true (fun _ => 7) 10 20 =
      .ok (pages', fun _ => 7) := by
  obtain ⟨⟨pages', hrun, -⟩, -⟩ := paged_copy_flat ⟨1, pageSize, fun _ _ => 0, (Nat.one_mul _).symm⟩ (fun _ => 7) 10 20
    (by decide)
  exact ⟨pages', hrun⟩

end Nkfs.Paged
