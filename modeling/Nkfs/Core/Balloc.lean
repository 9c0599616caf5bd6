import Nkfs.Core.State

/-!
# The block allocator (`core/balloc.c`)

One bit for each block. `nkfs_balloc_block_alloc` walks the bitmap clusters in order and each
cluster long by long, skips longs with all bits set, and stops a cluster's walk at the first block
beyond the device. `blockAlloc_spec` says all an allocation can do; `blockFree_run` what freeing a
marked block does. Cluster and superblock locks are left out.
-/

namespace Nkfs

open Lib.Program List

/-! ### The scan for a clear bit -/

/-- Outcome of a loop of `nkfs_balloc_block_find_set_free_bit`. -/
inductive Scan where
  | found (block : ℕ)
  | nospace
  | next
  deriving DecidableEq, Repr

/-- The loop over the bits of a long that starts at `block`. -/
def scanBits (bm : ℕ → Bool) (nrBlocks block : ℕ) : List ℕ → Scan
  | [] => .next
  | bit :: bits =>
    if block + bit ≥ nrBlocks then .nospace
    else if !bm (block + bit) then .found (block + bit)
    else scanBits bm nrBlocks block bits

/-- `*addr == ~0`. -/
def longFull (bm : ℕ → Bool) (block : ℕ) : Bool := (List.range 64).all fun bit => bm (block + bit)

/-- The loop over the longs of a cluster whose first bit is that of block `base`. -/
def scanLongs (bm : ℕ → Bool) (nrBlocks base : ℕ) : List ℕ → Scan
  | [] => .next
  | j :: js =>
    let block := base + 64 * j
    if block ≥ nrBlocks then .nospace
    else if longFull bm block then scanLongs bm nrBlocks base js
    else
      match scanBits bm nrBlocks block (List.range 64) with
      | .next => scanLongs bm nrBlocks base js
      | r => r

/-- Source: `core/balloc.c` `nkfs_balloc_block_find_set_free_bit`, on bitmap cluster `i` -/
def findFreeBit (bm : ℕ → Bool) (nrBlocks i : ℕ) : Scan :=
  scanLongs bm nrBlocks (8 * i * blockSize) (List.range (blockSize / 8))

lemma scanBits_found {bm : ℕ → Bool} {nrBlocks block b : ℕ} : ∀ {bits : List ℕ},
    scanBits bm nrBlocks block bits = .found b → bm b = false ∧ b < nrBlocks
  | [], h => nomatch h
  | bit :: bits, h => by
    rw [scanBits] at h
    split_ifs at h with hnr hbit
    · rw [Scan.found.injEq] at h
      subst h
      exact ⟨by simpa using hbit, not_le.mp hnr⟩
    · exact scanBits_found h

lemma scanLongs_found {bm : ℕ → Bool} {nrBlocks base b : ℕ} : ∀ {js : List ℕ},
    scanLongs bm nrBlocks base js = .found b → bm b = false ∧ b < nrBlocks
  | [], h => nomatch h
  | j :: js, h => by
    rw [scanLongs] at h
    split_ifs at h with hnr hfull
    · exact scanLongs_found h
    · split at h
      · exact scanLongs_found h
      · exact scanBits_found h

lemma findFreeBit_found {bm : ℕ → Bool} {nrBlocks i b : ℕ}
    (h : findFreeBit bm nrBlocks i = .found b) : bm b = false ∧ b < nrBlocks := by
  unfold findFreeBit at h
  exact scanLongs_found h

/-- A walk over increasing bits that finds none has seen no clear bit of the device. -/
lemma scanBits_none {bm : ℕ → Bool} {nrBlocks block : ℕ} : ∀ {bits : List ℕ},
    bits.Pairwise (· < ·) → (∀ b, scanBits bm nrBlocks block bits ≠ .found b) →
    ∀ bit ∈ bits, block + bit < nrBlocks → bm (block + bit) = true
  | [], _, _, _, hmem, _ => absurd hmem not_mem_nil
  | bit :: bits, hs, h, bit', hmem, hlt => by
    rw [pairwise_cons] at hs
    by_cases hnr : block + bit ≥ nrBlocks
    · -- the walk stops here, and every later bit is beyond the device as well
      rcases mem_cons.mp hmem with rfl | hmem
      · exact absurd hlt (not_lt.mpr hnr)
      · have := hs.1 bit' hmem
        omega
    · rw [scanBits, if_neg hnr] at h
      by_cases hbit : bm (block + bit) = true
      · rcases mem_cons.mp hmem with rfl | hmem
        · exact hbit
        · rw [hbit, Bool.not_true, if_neg Bool.false_ne_true] at h
          exact scanBits_none hs.2 h bit' hmem hlt
      · rw [Bool.not_eq_true] at hbit
        rw [hbit, Bool.not_false, if_pos rfl] at h
        exact absurd rfl (h _)

lemma scanBits_nospace {bm : ℕ → Bool} {nrBlocks block : ℕ} : ∀ {bits : List ℕ},
    scanBits bm nrBlocks block bits = .nospace → ∃ bit ∈ bits, block + bit ≥ nrBlocks
  | [], h => nomatch h
  | bit :: bits, h => by
    rw [scanBits] at h
    split_ifs at h with hnr hbit
    · exact ⟨bit, mem_cons_self .., hnr⟩
    · obtain ⟨bit', hmem, hge⟩ := scanBits_nospace h
      exact ⟨bit', mem_cons_of_mem _ hmem, hge⟩

lemma scanLongs_none {bm : ℕ → Bool} {nrBlocks base : ℕ} : ∀ {js : List ℕ},
    js.Pairwise (· < ·) → (∀ b, scanLongs bm nrBlocks base js ≠ .found b) →
    ∀ j ∈ js, ∀ bit < 64, base + 64 * j + bit < nrBlocks → bm (base + 64 * j + bit) = true
  | [], _, _, _, hmem, _, _, _ => absurd hmem not_mem_nil
  | j :: js, hs, h, j', hmem, bit, hbit, hlt => by
    rw [pairwise_cons] at hs
    by_cases hnr : base + 64 * j ≥ nrBlocks
    · rcases mem_cons.mp hmem with rfl | hmem
      · omega
      · have := hs.1 j' hmem
        omega
    · have hrange : bit ∈ range 64 := mem_range.mpr hbit
      by_cases hfull : longFull bm (base + 64 * j) = true
      · rw [scanLongs, if_neg hnr, if_pos hfull] at h
        rcases mem_cons.mp hmem with rfl | hmem
        · exact all_eq_true.mp hfull bit hrange
        · exact scanLongs_none hs.2 h j' hmem bit hbit hlt
      · rw [scanLongs, if_neg hnr, if_neg hfull] at h
        have hbits : ∀ b, scanBits bm nrBlocks (base + 64 * j) (range 64) ≠ .found b := by
          intro b hb
          rw [hb] at h
          exact absurd rfl (h b)
        rcases mem_cons.mp hmem with rfl | hmem
        · exact scanBits_none pairwise_lt_range hbits bit hrange hlt
        · cases hscan : scanBits bm nrBlocks (base + 64 * j) (range 64) with
          | found b => exact absurd hscan (hbits b)
          | next =>
            rw [hscan] at h
            exact scanLongs_none hs.2 h j' hmem bit hbit hlt
          | nospace =>
            -- the long reaches over the end of the device
            have hend := scanBits_nospace hscan
            have := hs.1 j' hmem
            obtain ⟨bit', hbit', hge⟩ := hend
            rw [mem_range] at hbit'
            omega

lemma block_split {i b : ℕ} (hi : b / (8 * blockSize) = i) :
    8 * i * blockSize + 64 * (b % 524288 / 64) + b % 64 = b := by
  have hi : b / 524288 = i := hi
  show 8 * i * 65536 + 64 * (b % 524288 / 64) + b % 64 = b
  omega

lemma findFreeBit_none {bm : ℕ → Bool} {nrBlocks i b : ℕ}
    (h : ∀ b, findFreeBit bm nrBlocks i ≠ .found b) (hi : b / (8 * blockSize) = i)
    (hlt : b < nrBlocks) : bm b = true := by
  have hscan := scanLongs_none pairwise_lt_range h (b % 524288 / 64)
    (mem_range.mpr (show b % 524288 / 64 < 65536 / 8 by omega)) (b % 64) (by omega)
  rw [block_split hi] at hscan
  exact hscan hlt

/-- A walk over increasing bits finds the first clear one. -/
lemma scanBits_first {bm : ℕ → Bool} {nrBlocks block b : ℕ} : ∀ {bits : List ℕ}, bits.Pairwise (· < ·) →
    scanBits bm nrBlocks block bits = .found b →
    (∃ bit ∈ bits, b = block + bit) ∧ ∀ bit ∈ bits, block + bit < b → bm (block + bit) = true
  | [], _, h => nomatch h
  | bit :: bits, hs, h => by
    rw [pairwise_cons] at hs
    rw [scanBits] at h
    split_ifs at h with hnr hbit
    · rw [Scan.found.injEq] at h
      refine ⟨⟨bit, mem_cons_self, h.symm⟩, fun bit' hmem hlt => ?_⟩
      rcases mem_cons.mp hmem with rfl | hmem
      · omega
      · have := hs.1 bit' hmem
        omega
    · obtain ⟨⟨bit₁, hmem₁, hb⟩, hfirst⟩ := scanBits_first hs.2 h
      refine ⟨⟨bit₁, mem_cons_of_mem _ hmem₁, hb⟩, fun bit' hmem hlt => ?_⟩
      rcases mem_cons.mp hmem with rfl | hmem
      · simpa using hbit
      · exact hfirst bit' hmem hlt

lemma scanLongs_first {bm : ℕ → Bool} {nrBlocks base b : ℕ} : ∀ {js : List ℕ}, js.Pairwise (· < ·) →
    scanLongs bm nrBlocks base js = .found b →
    (∃ j ∈ js, base + 64 * j ≤ b ∧ b < base + 64 * j + 64) ∧
      ∀ j ∈ js, ∀ bit < 64, base + 64 * j + bit < b → bm (base + 64 * j + bit) = true
  | [], _, h => nomatch h
  | j :: js, hs, h => by
    rw [pairwise_cons] at hs
    rw [scanLongs] at h
    split_ifs at h with hnr hfull
    · obtain ⟨⟨j₁, hmem₁, hle⟩, hfirst⟩ := scanLongs_first hs.2 h
      refine ⟨⟨j₁, mem_cons_of_mem _ hmem₁, hle⟩, fun j' hmem bit hbit hlt => ?_⟩
      rcases mem_cons.mp hmem with rfl | hmem
      · exact all_eq_true.mp hfull bit (mem_range.mpr hbit)
      · exact hfirst j' hmem bit hbit hlt
    · split at h
      · rename_i hnext
        have hnone : ∀ b, scanBits bm nrBlocks (base + 64 * j) (range 64) ≠ .found b := by simp [hnext]
        obtain ⟨⟨j₁, hmem₁, hle⟩, hfirst⟩ := scanLongs_first hs.2 h
        have hdev := (scanLongs_found h).2
        refine ⟨⟨j₁, mem_cons_of_mem _ hmem₁, hle⟩, fun j' hmem bit hbit hlt => ?_⟩
        rcases mem_cons.mp hmem with rfl | hmem
        · exact scanBits_none pairwise_lt_range hnone bit (mem_range.mpr hbit) (hlt.trans hdev)
        · exact hfirst j' hmem bit hbit hlt
      · obtain ⟨⟨bit₁, hbit₁, rfl⟩, hfirst⟩ := scanBits_first pairwise_lt_range h
        rw [mem_range] at hbit₁
        refine ⟨⟨j, mem_cons_self, by omega⟩, fun j' hmem bit hbit hlt => ?_⟩
        rcases mem_cons.mp hmem with rfl | hmem
        · exact hfirst bit (mem_range.mpr hbit) hlt
        · have := hs.1 j' hmem
          omega

lemma findFreeBit_first {bm : ℕ → Bool} {nrBlocks i b : ℕ} (h : findFreeBit bm nrBlocks i = .found b) :
    b / (8 * blockSize) = i ∧ ∀ b' < b, b' / (8 * blockSize) = i → bm b' = true := by
  unfold findFreeBit at h
  obtain ⟨⟨j, hj, hle, hlt⟩, hfirst⟩ := scanLongs_first pairwise_lt_range h
  have hcluster : b / 524288 = i := by
    have hj : j < 65536 / 8 := mem_range.mp hj
    have hle : 8 * i * 65536 + 64 * j ≤ b := hle
    have hlt : b < 8 * i * 65536 + 64 * j + 64 := hlt
    omega
  refine ⟨hcluster, fun b' hlt hi => ?_⟩
  have hscan := hfirst (b' % 524288 / 64) (mem_range.mpr (show b' % 524288 / 64 < 65536 / 8 by omega)) (b' % 64)
    (by omega)
  rw [block_split hi] at hscan
  exact hscan hlt

attribute [irreducible] findFreeBit

/-- The loop of `nkfs_balloc_block_alloc` over the bitmap clusters. -/
def findFreeBlock (bm : ℕ → Bool) (nrBlocks : ℕ) : List ℕ → Option ℕ
  | [] => none
  | i :: is =>
    match findFreeBit bm nrBlocks i with
    | .found block => some block
    | _ => findFreeBlock bm nrBlocks is

/-- A block that the scan finds lies on the device and is free. -/
lemma findFreeBlock_some {bm : ℕ → Bool} {nrBlocks b : ℕ} {is : List ℕ}
    (h : findFreeBlock bm nrBlocks is = some b) : bm b = false ∧ b < nrBlocks := by
  induction is with
  | nil => cases h
  | cons i is ih =>
    rw [findFreeBlock] at h
    cases hfound : findFreeBit bm nrBlocks i with
    | found b' =>
      rw [hfound, Option.some.injEq] at h
      subst h
      exact findFreeBit_found hfound
    | nospace =>
      rw [hfound] at h
      exact ih h
    | next =>
      rw [hfound] at h
      exact ih h

/-- The scan misses no free block of the bitmap clusters it walks. -/
lemma findFreeBlock_none {bm : ℕ → Bool} {nrBlocks b : ℕ} {is : List ℕ}
    (h : findFreeBlock bm nrBlocks is = none) (hb : b / (8 * blockSize) ∈ is) (hlt : b < nrBlocks) :
    bm b = true := by
  induction is with
  | nil => exact absurd hb not_mem_nil
  | cons i is ih =>
    rw [findFreeBlock] at h
    have hnot : ∀ b, findFreeBit bm nrBlocks i ≠ .found b := by
      intro b hfound
      rw [hfound] at h
      cases h
    rcases mem_cons.mp hb with hi | hmem
    · exact findFreeBit_none hnot hi hlt
    · refine ih ?_ hmem
      cases hscan : findFreeBit bm nrBlocks i with
      | found b => exact absurd hscan (hnot b)
      | nospace => rwa [hscan] at h
      | next => rwa [hscan] at h

/-- It is the lowest free block. -/
lemma findFreeBlock_first {bm : ℕ → Bool} {nrBlocks b : ℕ} {is : List ℕ} (hs : is.Pairwise (· < ·))
    (h : findFreeBlock bm nrBlocks is = some b) : ∀ b' < b, b' / (8 * blockSize) ∈ is → bm b' = true := by
  induction is with
  | nil => cases h
  | cons i is ih =>
    rw [pairwise_cons] at hs
    rw [findFreeBlock] at h
    intro b' hlt hmem
    by_cases hfound : ∃ b₁, findFreeBit bm nrBlocks i = .found b₁
    · obtain ⟨b₁, hb₁⟩ := hfound
      rw [hb₁, Option.some.injEq] at h
      subst h
      obtain ⟨hcluster, hfirst⟩ := findFreeBit_first hb₁
      rcases mem_cons.mp hmem with hi | hmem
      · exact hfirst b' hlt hi
      · -- a later cluster has later blocks
        have hle : b' / (8 * blockSize) ≤ b₁ / (8 * blockSize) := Nat.div_le_div_right hlt.le
        exact absurd (hs.1 _ hmem) (not_lt.mpr (hcluster ▸ hle))
    · rw [not_exists] at hfound
      have hrest : findFreeBlock bm nrBlocks is = some b := by
        cases hscan : findFreeBit bm nrBlocks i with
        | found b₁ => exact absurd hscan (hfound b₁)
        | nospace => rwa [hscan] at h
        | next => rwa [hscan] at h
      rcases mem_cons.mp hmem with hi | hmem
      · exact findFreeBit_none hfound hi (hlt.trans (findFreeBlock_some hrest).2)
      · exact ih hs.2 hrest b' hlt hmem

/-! ### Marking and allocating -/

/-- The state with the bit of `block` set or cleared and the counter adjusted. -/
def Sb.mark (s : Sb) (block : ℕ) (use : Bool) : Sb :=
  { s with
    bm := Function.update s.bm block use
    usedBlocks := if use then s.usedBlocks + 1 else s.usedBlocks - 1 }

/-- Source: `core/balloc.c` `nkfs_balloc_block_mark` -/
def blockMark (block : ℕ) (use : Bool) : M (Except Errno Unit) := do
  let s ← get
  if block ≥ s.env.nrBlocks then return .error .einval
  else if s.bm block = use then stop .bug
  else
    set (s.mark block use)
    return .ok ()

/-- Source: `core/balloc.c` `nkfs_balloc_block_free` -/
def blockFree (block : ℕ) : M (Except Errno Unit) := blockMark block false

/-- Source: `core/balloc.c` `nkfs_balloc_block_alloc` -/
def blockAlloc : M (Except Errno ℕ) := do
  if ← nextAlloc then
    let s ← get
    match findFreeBlock s.bm s.env.nrBlocks (List.range s.env.bmBlocks) with
    | some block =>
      set (s.mark block true)
      return .ok block
    | none =>
      set { s with allocFails := s.allocFails + 1 }
      return .error .enospc
  else return .error .enospc

/-- The state after one more allocation was tried, with the given outcome. -/
def Sb.tried (s : Sb) (ok : Bool) : Sb :=
  { s with
    tick := s.tick + 1
    allocFails := if ok then s.allocFails else s.allocFails + 1 }

lemma nextAlloc_run (s : Sb) : nextAlloc s = .ok (!s.env.fails s.tick, s.tried (!s.env.fails s.tick)) := rfl

/-- The free blocks of the device. -/
def Sb.freeSet (s : Sb) : Finset ℕ := (Finset.range s.env.nrBlocks).filter fun b => s.bm b = false

/-- Allocations do not fail by themselves, the bitmap covers the device, and at least `n` blocks are
free. -/
structure Sb.Ample (s : Sb) (n : ℕ) : Prop where
  fails : ∀ i, s.env.fails i = false
  covers : s.env.nrBlocks ≤ 8 * blockSize * s.env.bmBlocks
  free : n ≤ s.freeSet.card

lemma Sb.Ample.mono {s : Sb} {m n : ℕ} (h : s.Ample n) (hmn : m ≤ n) : s.Ample m :=
  ⟨h.fails, h.covers, hmn.trans h.free⟩

/-- A free block is found. -/
lemma Sb.Ample.findFreeBlock_ne_none {s : Sb} (h : s.Ample 1) :
    findFreeBlock s.bm s.env.nrBlocks (range s.env.bmBlocks) ≠ none := by
  intro hnone
  obtain ⟨b, hb⟩ := Finset.card_pos.mp h.free
  rw [Sb.freeSet, Finset.mem_filter, Finset.mem_range] at hb
  have hcl : b / (8 * blockSize) ∈ range s.env.bmBlocks :=
    mem_range.mpr (Nat.div_lt_of_lt_mul (hb.1.trans_le h.covers))
  rw [findFreeBlock_none hnone hcl hb.1] at hb
  exact absurd hb.2 (by decide)

/-- All that an allocation can do: take a free block of the device, or fail and change nothing; it
does not fail while blocks are free. -/
lemma blockAlloc_spec (s : Sb) : Runs blockAlloc s fun r s' =>
    (∃ block, r = .ok block ∧ s.bm block = false ∧ block < s.env.nrBlocks ∧
      s' = (s.tried true).mark block true) ∨
    (r = .error .enospc ∧ s' = s.tried false ∧ ¬ s.Ample 1) := by
  unfold blockAlloc
  refine Runs.bind (Runs.intro (nextAlloc_run s)
    (Q := fun ok s' => ok = !s.env.fails s.tick ∧ s' = s.tried ok) ⟨rfl, rfl⟩) ?_
  rintro ok _ ⟨hok, rfl⟩
  cases ok with
  | false =>
    refine Runs.pure (Or.inr ⟨rfl, rfl, fun hample => ?_⟩)
    rw [hample.fails] at hok
    cases hok
  | true =>
    refine Runs.get ?_
    cases hfind : findFreeBlock (s.tried true).bm (s.tried true).env.nrBlocks
        (range (s.tried true).env.bmBlocks) with
    | some block =>
      obtain ⟨hbm, hlt⟩ := findFreeBlock_some hfind
      exact Runs.set (Runs.pure (Or.inl ⟨block, rfl, hbm, hlt, rfl⟩))
    | none =>
      exact Runs.set (Runs.pure (Or.inr ⟨rfl, rfl, fun hample =>
        hample.findFreeBlock_ne_none hfind⟩))

/-- An allocation takes the lowest free block. -/
lemma blockAlloc_first {s s' : Sb} {block b : ℕ} (hrun : blockAlloc s = .ok (.ok block, s')) (hb : b < block)
    (hcovered : b / (8 * blockSize) < s.env.bmBlocks) : s.bm b = true := by
  unfold blockAlloc at hrun
  rw [run_bind_ok (nextAlloc_run s)] at hrun
  split_ifs at hrun
  · rw [run_get] at hrun
    cases hfind : findFreeBlock (s.tried (!s.env.fails s.tick)).bm (s.tried (!s.env.fails s.tick)).env.nrBlocks
        (range (s.tried (!s.env.fails s.tick)).env.bmBlocks) with
    | none =>
      rw [hfind] at hrun
      cases hrun
    | some found =>
      rw [hfind] at hrun
      cases hrun
      exact findFreeBlock_first pairwise_lt_range hfind b hb (mem_range.mpr hcovered)
  · cases hrun

lemma blockFree_eq {s : Sb} {block : ℕ} (hlt : block < s.env.nrBlocks) : blockFree block s =
    if s.bm block = false then .error (.bug, s) else .ok (.ok (), s.mark block false) := by
  show (do
    let s ← get
    if block ≥ s.env.nrBlocks then return .error .einval
    else if s.bm block = false then stop .bug
    else
      set (s.mark block false)
      return .ok () : M (Except Errno Unit)) s = _
  rw [run_get, if_neg (not_le.mpr hlt)]
  split_ifs <;> rfl

lemma blockFree_run {s : Sb} {block : ℕ} (hlt : block < s.env.nrBlocks)
    (hbm : s.bm block = true) : blockFree block s = .ok (.ok (), s.mark block false) := by
  rw [blockFree_eq hlt, if_neg (by rw [hbm]; decide)]

end Nkfs
