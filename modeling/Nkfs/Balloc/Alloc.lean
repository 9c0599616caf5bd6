import Nkfs.Balloc.Scan

/-!
# Allocation without I/O errors

What one call of each function does, by the outcome of its device calls; from this, that the
allocator takes the lowest free block and that freeing the block undoes it (`alloc_lowest_free`).
-/

namespace Nkfs.Balloc

open Lib.Program Function

section

variable {s : St} {k i bit block clu left : ℕ} {use : Bool} {e : Errno} {sem : Sem} {mode : Mode}

/-! ### Semaphores and device calls -/

/-- A semaphore taken and released. -/
lemma Locks.up_down (l : Locks) (sem : Sem) (mode : Mode) : (l.down sem mode).up sem mode = l := by
  have hheld : (l.down sem mode).holds sem mode = l.holds sem mode + 1 := by
    simp only [Locks.down, update_self]
  rw [Locks.up, if_neg (by rw [hheld]; omega), hheld, Locks.down]
  simp only [update_self, update_idem, Nat.add_sub_cancel, update_eq_self]

/-- The state after one more device call. -/
def St.tock (s : St) : St := { s with tick := s.tick + 1 }

/-- The state with the `DIO_CLU_DIRTY` flag of a cluster set or cleared. -/
def St.setDirty (s : St) (clu : ℕ) (dirty : Bool) : St := { s with dirty := Function.update s.dirty clu dirty }

lemma dioCluGet_ok (h : s.io s.tick = none) : dioCluGet s = .ok (true, s.tock) := by
  refine (run_bind_ok (show nextIo s = .ok (s.io s.tick, s.tock) from rfl)).trans ?_
  rw [h]
  rfl

lemma dioCluGet_error (h : s.io s.tick = some e) : dioCluGet s = .ok (false, s.tock) := by
  refine (run_bind_ok (show nextIo s = .ok (s.io s.tick, s.tock) from rfl)).trans ?_
  rw [h]
  rfl

lemma dioCluSetDirty_run : dioCluSetDirty clu s = .ok ((), s.setDirty clu true) := by
  have hrun : dioCluSetDirty clu s = .ok ((), { s.setDirty clu true with
    locks := (s.locks.down (.sync clu) .read).up (.sync clu) .read }) := rfl
  rw [hrun, Locks.up_down]
  rfl

lemma up_down_run (s : St) (sem : Sem) (mode : Mode) :
    up sem mode { s with locks := s.locks.down sem mode } = .ok ((), s) := by
  have hrun : up sem mode { s with locks := s.locks.down sem mode } =
    .ok ((), { s with locks := (s.locks.down sem mode).up sem mode }) := rfl
  rw [hrun, Locks.up_down]

/-- The flag of a dirty cluster is cleared if the device call succeeds. -/
lemma dioCluSync_run (hdirty : s.dirty clu = true) : dioCluSync clu s = match s.io s.tick with
    | none => .ok (.ok (), (s.setDirty clu false).tock)
    | some e => .ok (.error e, s.tock) := by
  refine run_get.trans ?_
  rw [hdirty]
  have hio : nextIo { s with locks := s.locks.down (.sync clu) .write } =
      .ok (s.io s.tick, { s.tock with locks := s.locks.down (.sync clu) .write }) := rfl
  refine (run_bind_ok (show down (.sync clu) .write s = .ok ((), _) from rfl)).trans ((run_bind_ok hio).trans ?_)
  cases s.io s.tick with
  | none =>
    exact (run_bind_ok rfl).trans (run_bind_ok (up_down_run (s.setDirty clu false).tock (.sync clu) .write))
  | some e => exact run_bind_ok (up_down_run s.tock (.sync clu) .write)

lemma dioCluSync_ok (hdirty : s.dirty clu = true) (h : s.io s.tick = none) :
    dioCluSync clu s = .ok (.ok (), (s.setDirty clu false).tock) := by
  rw [dioCluSync_run hdirty, h]

lemma dioCluSync_error (hdirty : s.dirty clu = true) (h : s.io s.tick = some e) :
    dioCluSync clu s = .ok (.error e, s.tock) := by
  rw [dioCluSync_run hdirty, h]

/-! ### Marking -/

/-- The state with a hold of a cluster more. -/
def St.locked (s : St) (clu : ℕ) : St := { s with locks := s.locks.down (.rw clu) .read }

/-- The state after `sb->rw_lock` was released. -/
def St.sbUp (s : St) : St := { s with locks := s.locks.up .sb .write }

lemma dioCluMap_run (hi : i < s.geo.bsize) : dioCluMap i s = .ok (i / 8, s) := by
  refine run_get.trans ?_
  have hpage : i / pageSize < s.geo.pages := Nat.div_lt_of_lt_mul (by rw [mul_comm]; exact hi)
  rw [if_neg (by omega), if_neg (not_le.mpr hpage)]
  rfl

lemma blockMark_einval (h : s.geo.nrBlocks ≤ block) : blockMark block use s = .ok (.error .einval, s) := by
  refine run_get.trans ?_
  rw [blockBmBit, if_pos h]
  rfl

lemma blockMark_eio (hnr : block < s.geo.nrBlocks) (h : s.io s.tick = some e) :
    blockMark block use s = .ok (.error .eio, s.tock.sbUp) := by
  refine run_get.trans ?_
  rw [blockBmBit, if_neg (not_le.mpr hnr)]
  exact (run_bind_ok (dioCluGet_error h)).trans rfl

/-- What `nkfs_balloc_block_mark` does once it has the cluster: the bit must differ, and it changes whether or
not the sync succeeds. -/
lemma blockMark_run (hnr : block < s.geo.nrBlocks) (h : s.io s.tick = none) (hbit : s.bit block = !use) :
    ∃ clu, blockMark block use s = match s.io (s.tick + 1) with
      | none => .ok (.ok (), ((((s.tock.mark block use).setDirty clu true).setDirty clu false).tock).sbUp)
      | some e => .ok (.error e, (((s.tock.mark block use).setDirty clu true).tock).sbUp) := by
  obtain ⟨k, i, bit, hi, hdvd, hlt, rfl⟩ := s.geo.pos_spec block
  have hval : s.bit (s.geo.blockAt k i bit) = (s.longs (s.geo.bmBlock + k) (i / 8)).getLsbD bit :=
    St.bit_blockAt hi hdvd hlt
  refine ⟨s.geo.bmBlock + k, run_get.trans ?_⟩
  rw [blockBmBit_scan hi hdvd hlt hnr]
  refine (run_bind_ok (dioCluGet_ok h)).trans ?_
  refine (run_bind_ok (show down (.rw (s.geo.bmBlock + k)) .read s.tock =
    .ok ((), s.tock.locked (s.geo.bmBlock + k)) from rfl)).trans ?_
  refine (run_bind_ok (dioCluMap_run (show i < (s.tock.locked (s.geo.bmBlock + k)).geo.bsize from hi))).trans
    (run_get.trans ?_)
  have hne : ¬ ((s.tock.locked (s.geo.bmBlock + k)).longs (s.geo.bmBlock + k) (i / 8)).getLsbD bit = use := by
    intro heq
    rw [show (s.tock.locked (s.geo.bmBlock + k)).longs = s.longs from rfl, ← hval, hbit] at heq
    exact absurd heq (Bool.not_ne_self use)
  rw [if_neg hne]
  refine (run_bind_ok (markBit_run (s := s.tock.locked (s.geo.bmBlock + k)) hi hdvd hlt)).trans ?_
  -- the cluster is unlocked before the sync
  have hunlock : up (.rw (s.geo.bmBlock + k)) .read ((s.tock.locked (s.geo.bmBlock + k)).mark
      (s.geo.blockAt k i bit) use) = .ok ((), s.tock.mark (s.geo.blockAt k i bit) use) :=
    up_down_run (s.tock.mark (s.geo.blockAt k i bit) use) _ _
  refine (run_bind_ok hunlock).trans ((run_bind_ok dioCluSetDirty_run).trans ?_)
  have hdirty : ((s.tock.mark (s.geo.blockAt k i bit) use).setDirty (s.geo.bmBlock + k) true).dirty
      (s.geo.bmBlock + k) = true := update_self ..
  cases hsync : s.io (s.tick + 1) with
  | none => exact (run_bind_ok (dioCluSync_ok hdirty hsync)).trans rfl
  | some e => exact (run_bind_ok (dioCluSync_error hdirty hsync)).trans rfl

lemma blockMark_bug (hnr : block < s.geo.nrBlocks) (h : s.io s.tick = none) (hbit : s.bit block = use) :
    ∃ s', blockMark block use s = .error (.bug, s') := by
  obtain ⟨k, i, bit, hi, hdvd, hlt, rfl⟩ := s.geo.pos_spec block
  refine ⟨s.tock.locked (s.geo.bmBlock + k), run_get.trans ?_⟩
  rw [blockBmBit_scan hi hdvd hlt hnr]
  refine (run_bind_ok (dioCluGet_ok h)).trans ?_
  refine (run_bind_ok (show down (.rw (s.geo.bmBlock + k)) .read s.tock =
    .ok ((), s.tock.locked (s.geo.bmBlock + k)) from rfl)).trans ?_
  refine (run_bind_ok (dioCluMap_run (show i < (s.tock.locked (s.geo.bmBlock + k)).geo.bsize from hi))).trans
    (run_get.trans ?_)
  rw [St.bit_blockAt hi hdvd hlt] at hbit
  rw [show (s.tock.locked (s.geo.bmBlock + k)).longs = s.longs from rfl, if_pos hbit]
  rfl

/-! ### The search for a free block -/

lemma findSetFreeBit_none (h : ∀ i bit, s.scan k ≠ .found i bit) :
    findSetFreeBit k (s.geo.bmBlock + k) s = .ok (.error .enoent, s) := by
  refine (run_bind_ok (show down (.rw (s.geo.bmBlock + k)) .read s =
    .ok ((), s.locked (s.geo.bmBlock + k)) from rfl)).trans (run_get.trans ?_)
  have hunlock : up (.rw (s.geo.bmBlock + k)) .read (s.locked (s.geo.bmBlock + k)) = .ok ((), s) := up_down_run s _ _
  have hscan : scanPages (s.locked (s.geo.bmBlock + k)).geo ((s.locked (s.geo.bmBlock + k)).longs (s.geo.bmBlock + k)) k
      (s.locked (s.geo.bmBlock + k)).geo.pages 0 = s.scan k := rfl
  rw [hscan]
  cases hr : s.scan k with
  | found i bit => exact absurd hr (h i bit)
  | nospace => exact (run_bind_ok hunlock).trans rfl
  | next => exact (run_bind_ok hunlock).trans rfl

/-- A bit that was found is set whether or not the sync succeeds, and the cluster stays locked. -/
lemma findSetFreeBit_found (hk : k < s.geo.bmBlocks) (h : s.scan k = .found i bit) :
    findSetFreeBit k (s.geo.bmBlock + k) s =
      let marked := (s.mark (s.geo.blockAt k i bit) true).locked (s.geo.bmBlock + k)
      match s.io s.tick with
      | none => .ok (.ok (i, bit), ((marked.setDirty (s.geo.bmBlock + k) true).setDirty (s.geo.bmBlock + k) false).tock)
      | some e => .ok (.error e, (marked.setDirty (s.geo.bmBlock + k) true).tock) := by
  obtain ⟨hi, hdvd, hbit, -⟩ := St.scan_found hk h
  refine (run_bind_ok (show down (.rw (s.geo.bmBlock + k)) .read s =
    .ok ((), s.locked (s.geo.bmBlock + k)) from rfl)).trans (run_get.trans ?_)
  have hscan : scanPages (s.locked (s.geo.bmBlock + k)).geo ((s.locked (s.geo.bmBlock + k)).longs (s.geo.bmBlock + k)) k
      (s.locked (s.geo.bmBlock + k)).geo.pages 0 = .found i bit := h
  rw [hscan]
  refine (run_bind_ok (markBit_run (s := s.locked (s.geo.bmBlock + k)) hi hdvd hbit)).trans
    ((run_bind_ok dioCluSetDirty_run).trans ?_)
  have hdirty : (((s.locked (s.geo.bmBlock + k)).mark (s.geo.blockAt k i bit) true).setDirty (s.geo.bmBlock + k)
      true).dirty (s.geo.bmBlock + k) = true := update_self ..
  dsimp only
  cases hsync : s.io s.tick with
  | none => exact (run_bind_ok (dioCluSync_ok hdirty hsync)).trans rfl
  | some e => exact (run_bind_ok (dioCluSync_error hdirty hsync)).trans rfl

/-- A cluster without a free bit is passed. -/
lemma allocLoop_skip (left : ℕ) (hget : s.io s.tick = none) (h : ∀ i bit, s.scan k ≠ .found i bit) :
    allocLoop (left + 1) k s = allocLoop left (k + 1) s.tock := by
  refine run_get.trans ((run_bind_ok (dioCluGet_ok hget)).trans ?_)
  exact (run_bind_ok (findSetFreeBit_none (s := s.tock) h)).trans rfl

/-- Passing several clusters. -/
def St.after (s : St) (n : ℕ) : St := { s with tick := s.tick + n }

lemma allocLoop_skips (n : ℕ) (hget : ∀ j < n, s.io (s.tick + j) = none)
    (h : ∀ j < n, ∀ i bit, s.scan (k + j) ≠ .found i bit) :
    allocLoop (left + n) k s = allocLoop left (k + n) (s.after n) := by
  induction n generalizing s k with
  | zero => rfl
  | succ n ih =>
    have hskip := allocLoop_skip (left + n) (hget 0 (Nat.succ_pos n)) (h 0 (Nat.succ_pos n))
    refine hskip.trans ?_
    rw [add_zero, ih (s := s.tock) (k := k + 1)]
    · rw [show k + 1 + n = k + (n + 1) by omega]
      have hafter : s.tock.after n = s.after (n + 1) := by
        rw [St.after, St.tock, St.after]
        simp only [St.mk.injEq, true_and]
        omega
      rw [hafter]
    · intro j hj
      have := hget (j + 1) (by omega)
      rwa [show s.tick + (j + 1) = s.tock.tick + j by show _ = s.tick + 1 + j; omega] at this
    · intro j hj
      have := h (j + 1) (by omega)
      rwa [show k + (j + 1) = k + 1 + j by omega] at this

/-- The number of the block that was found. -/
lemma blockAt_mod_two_pow (hk : k < s.geo.bmBlocks) (hi : i < s.geo.bsize) (hdvd : 8 ∣ i) (hbit : bit < 64) :
    (8 * k * s.geo.bsize + 8 * i + bit) % 2 ^ 64 = s.geo.blockAt k i bit := by
  refine Nat.mod_eq_of_lt ?_
  have hpos := s.geo.pos_lt hi hdvd hbit
  have hbits : s.geo.perClu * s.geo.bmBlocks ≤ 2 ^ 64 := s.geo.bits_lt
  have hmul : s.geo.perClu * (k + 1) ≤ s.geo.perClu * s.geo.bmBlocks := Nat.mul_le_mul_left _ hk
  have hblock : s.geo.blockAt k i bit = _ := s.geo.blockAt_eq
  rw [Geometry.blockAt] at hblock
  rw [Nat.mul_add, mul_one] at hmul
  omega

/-- The cluster with a free bit. -/
lemma allocLoop_found (left : ℕ) (hk : k < s.geo.bmBlocks) (hget : s.io s.tick = none) (h : s.scan k = .found i bit) :
    allocLoop (left + 1) k s =
      let marked := (s.tock.mark (s.geo.blockAt k i bit) true).locked (s.geo.bmBlock + k)
      match s.io (s.tick + 1) with
      | none => .ok (.ok (s.geo.blockAt k i bit),
          ((marked.setDirty (s.geo.bmBlock + k) true).setDirty (s.geo.bmBlock + k) false).tock)
      | some _ => allocLoop left (k + 1) (marked.setDirty (s.geo.bmBlock + k) true).tock := by
  obtain ⟨hi, hdvd, hbit, -⟩ := St.scan_found hk h
  have hfind := findSetFreeBit_found (s := s.tock) hk h
  refine run_get.trans ((run_bind_ok (dioCluGet_ok hget)).trans ?_)
  dsimp only at hfind ⊢
  rw [show s.tock.io s.tock.tick = s.io (s.tick + 1) from rfl] at hfind
  cases hsync : s.io (s.tick + 1) with
  | none =>
    rw [hsync] at hfind
    refine (run_bind_ok hfind).trans ?_
    dsimp only
    rw [blockAt_mod_two_pow hk hi hdvd hbit]
    rfl
  | some e =>
    rw [hsync] at hfind
    exact (run_bind_ok hfind).trans rfl

lemma allocLoop_eio (hget : s.io s.tick = some e) : allocLoop (left + 1) k s = .ok (.error .eio, s.tock) := by
  refine run_get.trans ((run_bind_ok (dioCluGet_error hget)).trans ?_)
  rfl

/-- The state after the bit that was found in cluster `k` was set, whether or not the sync succeeded. -/
structure Took (s : St) (k i bit : ℕ) (s' : St) : Prop where
  geo : s'.geo = s.geo
  longs : s'.longs = (s.mark (s.geo.blockAt k i bit) true).longs
  used : s'.used = s.used + 1
  locks : s'.locks = s.locks.down (.rw (s.geo.bmBlock + k)) .read

/-- What the loop can do, cluster by cluster. -/
inductive AllocRun : ℕ → ℕ → St → Except Errno ℕ → St → Prop
  | full (k : ℕ) (s : St) : AllocRun 0 k s (.error .enospc) s
  | eio {left k : ℕ} {s : St} {e : Errno} (hget : s.io s.tick = some e) : AllocRun (left + 1) k s (.error .eio) s.tock
  | skip {left k : ℕ} {s s' : St} {r : Except Errno ℕ} (hget : s.io s.tick = none) (hfull : ¬ s.FreeIn k)
      (hrest : AllocRun left (k + 1) s.tock r s') : AllocRun (left + 1) k s r s'
  | found {left k i bit : ℕ} {s s' : St} (hget : s.io s.tick = none) (hfound : s.scan k = .found i bit)
      (hsync : s.io (s.tick + 1) = none) (htook : Took s k i bit s') :
      AllocRun (left + 1) k s (.ok (s.geo.blockAt k i bit)) s'
  | lost {left k i bit : ℕ} {s s₁ s' : St} {e : Errno} {r : Except Errno ℕ} (hget : s.io s.tick = none)
      (hfound : s.scan k = .found i bit) (hsync : s.io (s.tick + 1) = some e) (htook : Took s k i bit s₁)
      (hrest : AllocRun left (k + 1) s₁ r s') : AllocRun (left + 1) k s r s'

lemma allocLoop_run (hk : k + left = s.geo.bmBlocks) :
    ∃ r s', allocLoop left k s = .ok (r, s') ∧ AllocRun left k s r s' := by
  induction left generalizing k s with
  | zero => exact ⟨_, s, rfl, .full k s⟩
  | succ left ih =>
    have hlt : k < s.geo.bmBlocks := by omega
    cases hget : s.io s.tick with
    | some e => exact ⟨_, _, allocLoop_eio hget, .eio hget⟩
    | none =>
      by_cases hin : s.FreeIn k
      · obtain ⟨i, bit, hfound⟩ := (St.freeIn_iff hlt).mp hin
        have hrun := allocLoop_found left hlt hget hfound
        dsimp only at hrun
        cases hsync : s.io (s.tick + 1) with
        | none =>
          rw [hsync] at hrun
          exact ⟨_, _, hrun, .found hget hfound hsync ⟨rfl, rfl, rfl, rfl⟩⟩
        | some e =>
          rw [hsync] at hrun
          obtain ⟨s₁, hs₁, htook⟩ : ∃ s₁, allocLoop (left + 1) k s = allocLoop left (k + 1) s₁ ∧ Took s k i bit s₁ :=
            ⟨_, hrun, rfl, rfl, rfl, rfl⟩
          obtain ⟨r, s', hrest, hlost⟩ := ih (k := k + 1) (s := s₁) (by rw [htook.geo]; omega)
          exact ⟨r, s', hs₁.trans hrest, .lost hget hfound hsync htook hlost⟩
      · have hskip := allocLoop_skip left hget fun i bit h => hin ((St.freeIn_iff hlt).mpr ⟨i, bit, h⟩)
        obtain ⟨r, s', hrest, hrun⟩ := ih (k := k + 1) (s := s.tock) (show k + 1 + left = s.geo.bmBlocks by omega)
        exact ⟨r, s', hskip.trans hrest, .skip hget hin hrun⟩

/-! ### Without I/O errors -/

/-- `s'` is `s` with the bit of the free block set, no other bit changed and the counter one higher. -/
structure Takes (s : St) (block : ℕ) (s' : St) : Prop where
  lt : block < s.geo.nrBlocks
  clear : s.bit block = false
  only : ∃ clu longOff bit, blockBmBit s.geo block = .ok (clu, longOff, bit) ∧ ∀ c l j, j < 64 →
    (s'.longs c l).getLsbD j = if c = clu ∧ l = longOff / 8 ∧ j = bit then true else (s.longs c l).getLsbD j
  used : s'.used = s.used + 1

lemma takes_mark {s' : St} (hk : k < s.geo.bmBlocks) (h : s.scan k = .found i bit)
    (hlongs : s'.longs = (s.mark (s.geo.blockAt k i bit) true).longs) (hused : s'.used = s.used + 1) :
    Takes s (s.geo.blockAt k i bit) s' := by
  obtain ⟨hi, hdvd, hbit, hnr, hclear, -⟩ := St.scan_found hk h
  refine ⟨hnr, hclear, ⟨s.geo.bmBlock + k, i, bit, blockBmBit_scan hi hdvd hbit hnr, fun c l j hj => ?_⟩, hused⟩
  rw [hlongs]
  exact St.getLsbD_mark hi hdvd hbit c l hj

/-- Every cluster below the first one with a free bit is full. -/
lemma lowest_of_found (hk : k < s.geo.bmBlocks) (hlow : ∀ j < k, ¬ s.FreeIn j) (h : s.scan k = .found i bit)
    {b : ℕ} (hb : b < s.geo.blockAt k i bit) : s.bit b = true := by
  obtain ⟨hi, hdvd, hbit, hnr, -, hset⟩ := St.scan_found hk h
  have hdiv : b / s.geo.perClu ≤ k := by
    rw [← s.geo.blockAt_div (k := k) hi hdvd hbit]
    exact Nat.div_le_div_right hb.le
  rcases Nat.lt_or_eq_of_le hdiv with hlt | heq
  · by_contra hfalse
    rw [Bool.not_eq_true] at hfalse
    exact hlow _ hlt ⟨b, hb.trans hnr, rfl, hfalse⟩
  · exact hset b heq hb

/-- Freeing the block that an allocation took. -/
lemma blockFree_undoes {s' : St} (hnr : block < s.geo.nrBlocks) (hclear : s.bit block = false)
    (hgeo : s'.geo = s.geo) (hlongs : s'.longs = (s.mark block true).longs) (hused : s'.used = s.used + 1)
    (hio : ∀ n, s'.io n = none) :
    ∃ s'', blockFree block s' = .ok (.ok (), s'') ∧ s''.longs = s.longs ∧ s''.used = s.used := by
  have hbit : s'.bit block = !false := by
    rw [St.bit, hgeo, hlongs]
    exact (s.bit_mark block block true).trans (if_pos rfl)
  obtain ⟨clu, hrun⟩ := blockMark_run (hgeo ▸ hnr) (hio _) hbit
  rw [hio] at hrun
  refine ⟨_, hrun, ?_, ?_⟩
  · have hundo : ((s.mark block true).mark block false).longs = s.longs := St.longs_mark_mark hclear
    rw [← hundo]
    show (s'.mark block false).longs = _
    rw [St.mark, St.mark, hgeo, hlongs]
    rfl
  · show s'.used - 1 = s.used
    rw [hused, Int.add_sub_cancel]

/-- **The allocator takes the lowest free block.** With device calls succeeding it returns the lowest block whose
bit is clear and takes it, and freeing the block undoes that; it returns `-ENOSPC`, with nothing changed, if
there is none. The position that `nkfs_balloc_block_bm_bit` computes for a block is inverse to the block that
the scan computes for a position. -/
theorem alloc_lowest_free (s : St) (hcovers : s.geo.nrBlocks ≤ 8 * s.geo.bsize * s.geo.bmBlocks)
    (hio : ∀ n, s.io n = none) :
    (∃ r s', blockAlloc s = .ok (r, s') ∧
      match r with
      | .ok block => Takes s block s' ∧ (∀ b < block, s.bit b = true) ∧
          ∃ s'', blockFree block s' = .ok (.ok (), s'') ∧ s''.longs = s.longs ∧ s''.used = s.used
      | .error e => e = .enospc ∧ (∀ b < s.geo.nrBlocks, s.bit b = true) ∧ s'.longs = s.longs ∧ s'.used = s.used) ∧
    (∀ block < s.geo.nrBlocks, ∃ clu longOff bit, blockBmBit s.geo block = .ok (clu, longOff, bit) ∧
      8 * (clu - s.geo.bmBlock) * s.geo.bsize + 8 * longOff + bit = block) ∧
    ∀ k i bit, i < s.geo.bsize → 8 ∣ i → bit < 64 → 8 * k * s.geo.bsize + 8 * i + bit < s.geo.nrBlocks →
      blockBmBit s.geo (8 * k * s.geo.bsize + 8 * i + bit) = .ok (s.geo.bmBlock + k, i, bit) := by
  refine ⟨?_, fun block hnr => ?_, fun k i bit hi hdvd hbit hnr => blockBmBit_scan hi hdvd hbit hnr⟩
  · by_cases hfree : ∃ k, k < s.geo.bmBlocks ∧ s.FreeIn k
    · -- the first cluster with a free bit
      classical
      obtain ⟨hk, hin⟩ := Nat.find_spec hfree
      have hlow : ∀ j < Nat.find hfree, ¬ s.FreeIn j := fun j hj hin =>
        Nat.find_min hfree hj ⟨hj.trans hk, hin⟩
      generalize Nat.find hfree = k at hk hin hlow
      obtain ⟨i, bit, hfound⟩ := (St.freeIn_iff hk).mp hin
      obtain ⟨left, hleft⟩ : ∃ left, s.geo.bmBlocks = left + 1 + k := ⟨s.geo.bmBlocks - k - 1, by omega⟩
      have hskip : allocLoop (left + 1 + k) 0 s = allocLoop (left + 1) (0 + k) (s.after k) :=
        allocLoop_skips k (fun _ _ => hio _) fun j hj i bit h => hlow j hj
          ((St.freeIn_iff (by omega)).mpr ⟨i, bit, by rwa [Nat.zero_add] at h⟩)
      have hrun := allocLoop_found (s := s.after k) left hk (hio _) hfound
      rw [show (s.after k).io ((s.after k).tick + 1) = none from hio _] at hrun
      refine ⟨_, _, run_get.trans (hleft ▸ (hskip.trans (by rw [Nat.zero_add]; exact hrun))), ?_⟩
      have htakes : ∀ s', s'.longs = (s.mark (s.geo.blockAt k i bit) true).longs → s'.used = s.used + 1 →
          Takes s (s.geo.blockAt k i bit) s' := fun s' => takes_mark hk hfound
      obtain ⟨hi, hdvd, hbit, hnr, hclear, -⟩ := St.scan_found hk hfound
      exact ⟨htakes _ rfl rfl, fun b => lowest_of_found hk hlow hfound,
        blockFree_undoes hnr hclear rfl rfl rfl hio⟩
    · have hfull : ∀ b < s.geo.nrBlocks, s.bit b = true := by
        intro b hb
        by_contra hclear
        rw [Bool.not_eq_true] at hclear
        exact hfree ⟨b / s.geo.perClu, Nat.div_lt_of_lt_mul (hb.trans_le hcovers), b, hb, rfl, hclear⟩
      have hskip : allocLoop (0 + s.geo.bmBlocks) 0 s = allocLoop 0 (0 + s.geo.bmBlocks) (s.after s.geo.bmBlocks) :=
        allocLoop_skips s.geo.bmBlocks (fun _ _ => hio _) fun j hj i bit h => hfree
          ⟨j, hj, (St.freeIn_iff hj).mpr ⟨i, bit, by rwa [Nat.zero_add] at h⟩⟩
      rw [Nat.zero_add] at hskip
      exact ⟨.error .enospc, s.after s.geo.bmBlocks, run_get.trans hskip, rfl, hfull, rfl, rfl⟩
  · obtain ⟨k, i, bit, hi, hdvd, hbit, rfl⟩ := s.geo.pos_spec block
    refine ⟨_, _, _, blockBmBit_scan hi hdvd hbit hnr, ?_⟩
    rw [Nat.add_sub_cancel_left]
    rfl

/-- Five blocks on one bitmap cluster of one page, the first three of them in use. -/
def fiveBlocks : St where
  geo :=
    { pages := 1, nrBlocks := 5, bmBlock := 1, bmBlocks := 1, pages_pos := by decide, pages_le := by decide,
      bits_lt := by decide }
  longs := fun c l => if c = 1 ∧ l = 0 then 7#64 else 0#64
  used := 3
  dirty := fun _ => false
  locks := { holds := fun _ _ => 0, unheld := false }
  io := fun _ => none
  tick := 0

/-- The fourth block is taken. -/
theorem alloc_lowest_free_five : ∃ s', blockAlloc fiveBlocks = .ok (.ok 3, s') ∧ s'.used = 4 := by
  obtain ⟨⟨r, s', hrun, hr⟩, -⟩ := alloc_lowest_free fiveBlocks (by decide) fun _ => rfl
  cases r with
  | error e => exact absurd (hr.2.1 3 (by decide)) (by decide)
  | ok block =>
    obtain ⟨htakes, hlow, -⟩ := hr
    obtain rfl : block = 3 := by
      have hlt : block < 5 := htakes.lt
      rcases Nat.lt_trichotomy block 3 with h | h | h
      · have hclear := htakes.clear
        interval_cases block <;> exact absurd hclear (by decide)
      · exact h
      · exact absurd (hlow 3 h) (by decide)
    exact ⟨s', hrun, htakes.used⟩

end

end Nkfs.Balloc
