import Nkfs.Balloc.Alloc

/-!
# Allocation with I/O errors

Bit and counter change before the sync that can fail, and nothing is undone: the functions keep the
bitmap on their error paths exactly if that sync does not fail (`errors_keep_bitmap`). After a failed
sync the loop of `nkfs_balloc_block_alloc` goes on, and bits are only ever set (`AllocRun.grows`), so
that no later success makes up for it.
-/

namespace Nkfs.Balloc

open Lib.Program

section

variable {s s' : St} {k i bit block left : ℕ} {use : Bool}

/-! ### Bits are only set -/

/-- Every set bit stays set. -/
def Grows (s s' : St) : Prop := s'.geo = s.geo ∧ ∀ b, s.bit b = true → s'.bit b = true

lemma Grows.trans {s'' : St} (h : Grows s s') (h' : Grows s' s'') : Grows s s'' :=
  ⟨h'.1.trans h.1, fun b hb => h'.2 b (h.2 b hb)⟩

lemma grows_of_longs (hgeo : s'.geo = s.geo) (hlongs : s'.longs = s.longs) : Grows s s' :=
  ⟨hgeo, fun b hb => by rwa [St.bit, hgeo, hlongs]⟩

lemma grows_mark (hgeo : s'.geo = s.geo) (hlongs : s'.longs = (s.mark block true).longs) : Grows s s' := by
  refine ⟨hgeo, fun b hb => ?_⟩
  have hbit : s'.bit b = (s.mark block true).bit b := by
    rw [St.bit, hgeo, hlongs]
    rfl
  rw [hbit, St.bit_mark, hb, ite_self]

/-- The loop sets bits only, and a block it returns was free. -/
lemma AllocRun.grows {r : Except Errno ℕ} (h : AllocRun left k s r s') (hk : k + left = s.geo.bmBlocks) :
    Grows s s' ∧ ∀ block, r = .ok block → s.bit block = false := by
  induction h with
  | full k s => exact ⟨grows_of_longs rfl rfl, nofun⟩
  | eio hget => exact ⟨grows_of_longs rfl rfl, nofun⟩
  | @skip left k s s' r hget hfull hrest ih =>
    obtain ⟨hgrows, hr⟩ := ih (show k + 1 + left = s.geo.bmBlocks by omega)
    exact ⟨(grows_of_longs rfl rfl : Grows s s.tock).trans hgrows, hr⟩
  | found hget hfound hsync htook =>
    refine ⟨grows_mark htook.geo htook.longs, fun b hb => ?_⟩
    obtain ⟨-, -, -, -, hclear, -⟩ := St.scan_found (by omega) hfound
    exact Except.ok.inj hb ▸ hclear
  | lost hget hfound hsync htook hrest ih =>
    obtain ⟨hgrows, hr⟩ := ih (by rw [htook.geo]; omega)
    have hmark := grows_mark htook.geo htook.longs
    refine ⟨hmark.trans hgrows, fun b hb => ?_⟩
    by_contra hset
    rw [Bool.not_eq_false] at hset
    exact absurd (hmark.2 b hset) (by rw [hr b hb]; decide)

/-! ### Error paths -/

/-- What an allocation with this outcome must leave. -/
def AllocLeaves (s : St) (r : Except Errno ℕ) (s' : St) : Prop :=
  match r with
  | .ok block => Takes s block s'
  | .error _ => s'.longs = s.longs ∧ s'.used = s.used

/-- The first cluster from `k` on with a free bit can be read, but its sync fails. -/
def SyncFailsFrom (s : St) (k : ℕ) : Prop := ∃ n, k + n < s.geo.bmBlocks ∧ (∀ j ≤ n, s.io (s.tick + j) = none) ∧
  (∀ j < n, ¬ s.FreeIn (k + j)) ∧ s.FreeIn (k + n) ∧ s.io (s.tick + n + 1) ≠ none

/-- One cluster on, whatever is asked of the first one with a free bit. -/
lemma firstFree_tock {Q : ℕ → Prop} (hget : s.io s.tick = none) (hfull : ¬ s.FreeIn k) :
    (∃ n, k + 1 + n < s.geo.bmBlocks ∧ (∀ j ≤ n, s.io (s.tick + 1 + j) = none) ∧ (∀ j < n, ¬ s.FreeIn (k + 1 + j)) ∧
        s.FreeIn (k + 1 + n) ∧ Q (s.tick + 1 + n)) ↔
      ∃ n, k + n < s.geo.bmBlocks ∧ (∀ j ≤ n, s.io (s.tick + j) = none) ∧ (∀ j < n, ¬ s.FreeIn (k + j)) ∧
        s.FreeIn (k + n) ∧ Q (s.tick + n) := by
  simp only [add_assoc, add_comm 1]
  constructor
  · rintro ⟨n, hn, hgets, hbefore, hin⟩
    refine ⟨n + 1, hn, fun j hj => ?_, fun j hj => ?_, hin⟩
    · cases j with
      | zero => exact hget
      | succ j => exact hgets j (by omega)
    · cases j with
      | zero => exact hfull
      | succ j => exact hbefore j (by omega)
  · rintro ⟨n, hn, hgets, hbefore, hin⟩
    cases n with
    | zero => exact absurd hin.1 hfull
    | succ n => exact ⟨n, hn, fun j hj => hgets (j + 1) (by omega), fun j hj => hbefore (j + 1) (by omega), hin⟩

lemma syncFailsFrom_tock (hget : s.io s.tick = none) (hfull : ¬ s.FreeIn k) :
    SyncFailsFrom s.tock (k + 1) ↔ SyncFailsFrom s k :=
  firstFree_tock (Q := fun t => s.io (t + 1) ≠ none) hget hfull

/-- A free bit in the cluster itself. -/
lemma syncFailsFrom_iff (hk : k < s.geo.bmBlocks) (hget : s.io s.tick = none) (hin : s.FreeIn k) :
    SyncFailsFrom s k ↔ s.io (s.tick + 1) ≠ none := by
  constructor
  · rintro ⟨n, -, -, hbefore, -, hsync⟩
    cases n with
    | zero => exact hsync
    | succ n => exact absurd hin (hbefore 0 (Nat.succ_pos n))
  · refine fun hsync => ⟨0, hk, fun j hj => ?_, fun j hj => absurd hj (Nat.not_lt_zero j), hin, hsync⟩
    obtain rfl : j = 0 := by omega
    exact hget

lemma allocLeaves_tock {r : Except Errno ℕ} : AllocLeaves s.tock r s' ↔ AllocLeaves s r s' := by
  cases r with
  | error e => exact Iff.rfl
  | ok block =>
    exact ⟨fun ⟨hlt, hclear, honly, hused⟩ => ⟨hlt, hclear, honly, hused⟩,
      fun ⟨hlt, hclear, honly, hused⟩ => ⟨hlt, hclear, honly, hused⟩⟩

/-- After a failed sync the bit of a free block stays set, and another block, or none, is returned. -/
lemma AllocRun.breaks {s₁ : St} {r : Except Errno ℕ} (h : AllocRun left (k + 1) s₁ r s')
    (hk : k + 1 + left = s.geo.bmBlocks) (hfound : s.scan k = .found i bit) (htook : Took s k i bit s₁) :
    ¬ AllocLeaves s r s' := by
  intro hleaves
  obtain ⟨hi, hdvd, hbit, -, hclear, -⟩ := St.scan_found (by omega) hfound
  obtain ⟨hgrows, hr⟩ := h.grows (by rw [htook.geo]; exact hk)
  have hset : s₁.bit (s.geo.blockAt k i bit) = true := by
    rw [St.bit, htook.geo, htook.longs]
    exact (s.bit_mark _ _ true).trans (if_pos rfl)
  have hstill := hgrows.2 _ hset
  cases r with
  | error e =>
    rw [St.bit, hgrows.1, htook.geo, hleaves.1] at hstill
    exact absurd (hclear.symm.trans hstill) (by decide)
  | ok block =>
    -- only the bit of the returned block may have changed, but that one was clear after the failed sync
    obtain ⟨clu, longOff, bit', hpos, hbits⟩ := hleaves.only
    have hold := hbits (s.geo.bmBlock + k) (i / 8) bit hbit
    rw [St.bit, hgrows.1, htook.geo, s.geo.blockAt_div hi hdvd hbit, s.geo.blockAt_mod hi hdvd hbit,
      bitAt_long _ hdvd hbit] at hstill
    rw [hstill] at hold
    split_ifs at hold with hsame
    · obtain ⟨hclu, hlong, hbit'⟩ := hsame
      obtain ⟨hle, hi', hdvd', hbit'', hblock⟩ := blockBmBit_inverse hpos
      have hsame : block = s.geo.blockAt k i bit := by
        rw [← hblock, ← hclu, ← hbit', Nat.add_sub_cancel_left, show longOff = i by omega]
      have hfree := hr block rfl
      rw [hsame, hset] at hfree
      cases hfree
    · rw [St.bit_blockAt hi hdvd hbit] at hclear
      exact absurd (hold.trans hclear) (by decide)

lemma AllocRun.leaves_iff {r : Except Errno ℕ} (h : AllocRun left k s r s') (hk : k + left = s.geo.bmBlocks) :
    AllocLeaves s r s' ↔ ¬ SyncFailsFrom s k := by
  induction h with
  | full k s => exact iff_of_true ⟨rfl, rfl⟩ fun ⟨n, hn, _⟩ => absurd hn (by omega)
  | eio hget =>
    refine iff_of_true ⟨rfl, rfl⟩ fun ⟨n, _, hgets, _⟩ => ?_
    cases hget.symm.trans (hgets 0 (Nat.zero_le n))
  | @skip left k s s' r hget hfull hrest ih =>
    rw [← allocLeaves_tock, ← syncFailsFrom_tock hget hfull]
    exact ih (show k + 1 + left = s.geo.bmBlocks by omega)
  | found hget hfound hsync htook =>
    rw [syncFailsFrom_iff (by omega) hget ((St.freeIn_iff (by omega)).mpr ⟨_, _, hfound⟩), hsync]
    exact iff_of_true (takes_mark (by omega) hfound htook.longs htook.used) fun hne => hne rfl
  | lost hget hfound hsync htook hrest ih =>
    rw [syncFailsFrom_iff (by omega) hget ((St.freeIn_iff (by omega)).mpr ⟨_, _, hfound⟩), hsync]
    exact iff_of_false (hrest.breaks (by omega) hfound htook) fun hno => hno (Option.some_ne_none _)

/-- What a failed mark must leave. -/
def MarkLeaves (s : St) (block : ℕ) (use : Bool) : Prop := ∀ e s', blockMark block use s = .ok (.error e, s') →
  s'.bit block = s.bit block ∧ s'.used = s.used

lemma markLeaves_iff (block : ℕ) (use : Bool) : MarkLeaves s block use ↔
    ¬ (block < s.geo.nrBlocks ∧ s.bit block ≠ use ∧ s.io s.tick = none ∧ s.io (s.tick + 1) ≠ none) := by
  by_cases hnr : block < s.geo.nrBlocks
  swap
  · refine ⟨fun _ h => hnr h.1, fun _ e s' hrun => ?_⟩
    rw [blockMark_einval (not_lt.mp hnr), Except.ok.injEq, Prod.mk.injEq] at hrun
    rw [← hrun.2]
    exact ⟨rfl, rfl⟩
  cases hget : s.io s.tick with
  | some e =>
    refine ⟨fun _ h => absurd h.2.2.1 (Option.some_ne_none e), fun _ e s' hrun => ?_⟩
    rw [blockMark_eio hnr hget, Except.ok.injEq, Prod.mk.injEq] at hrun
    rw [← hrun.2]
    exact ⟨rfl, rfl⟩
  | none =>
    by_cases hbit : s.bit block = use
    · obtain ⟨s₁, hbug⟩ := blockMark_bug hnr hget hbit
      refine ⟨fun _ h => h.2.1 hbit, fun _ e s' hrun => ?_⟩
      rw [hbug] at hrun
      cases hrun
    · obtain ⟨clu, hrun⟩ := blockMark_run hnr hget (Bool.eq_not.mpr hbit)
      cases hsync : s.io (s.tick + 1) with
      | none =>
        rw [hsync] at hrun
        refine ⟨fun _ h => h.2.2.2 rfl, fun _ e s' h => ?_⟩
        rw [hrun] at h
        cases h
      | some e =>
        -- the bit has changed
        rw [hsync] at hrun
        refine ⟨fun hleaves => ?_, fun h => absurd ⟨hnr, hbit, rfl, Option.some_ne_none e⟩ h⟩
        have hsame := (hleaves e _ hrun).1
        have hmark : (s.mark block use).bit block = s.bit block := hsame
        rw [St.bit_mark, if_pos rfl] at hmark
        exact absurd hmark.symm hbit

/-- **Error paths keep the bitmap exactly if the sync after a change of a bit does not fail**: for an allocation
the sync of the first cluster with a free bit, for a mark its own. -/
theorem errors_keep_bitmap (s : St) :
    ((∃ r s', blockAlloc s = .ok (r, s') ∧ AllocLeaves s r s') ↔ ¬ SyncFailsFrom s 0) ∧
    ∀ block use, MarkLeaves s block use ↔
      ¬ (block < s.geo.nrBlocks ∧ s.bit block ≠ use ∧ s.io s.tick = none ∧ s.io (s.tick + 1) ≠ none) := by
  obtain ⟨r, s', hrun, halloc⟩ := allocLoop_run (Nat.zero_add s.geo.bmBlocks)
  have hiff := halloc.leaves_iff (Nat.zero_add s.geo.bmBlocks)
  refine ⟨⟨fun ⟨r', s'', hrun', hleaves⟩ => ?_, fun hno => ⟨r, s', run_get.trans hrun, hiff.mpr hno⟩⟩, markLeaves_iff⟩
  have hsame : Except.ok (r', s'') = Except.ok (r, s') := hrun'.symm.trans (run_get.trans hrun)
  rw [Except.ok.injEq, Prod.mk.injEq] at hsame
  rw [hsame.1, hsame.2] at hleaves
  exact hiff.mp hleaves

/-- `fiveBlocks` with a second device call that fails: the sync of an allocation. -/
def fiveBlocksFailing : St := { fiveBlocks with io := fun n => if n = 1 then some .eio else none }

/-- There the allocation fails and the bit of the fourth block is set. -/
theorem not_errors_keep_bitmap : ¬ ∀ s : St, (∀ r s', blockAlloc s = .ok (r, s') → AllocLeaves s r s') ∧
    ∀ block use, MarkLeaves s block use := by
  intro hall
  obtain ⟨r, s', hrun, halloc⟩ := allocLoop_run (Nat.zero_add fiveBlocksFailing.geo.bmBlocks)
  refine (halloc.leaves_iff (Nat.zero_add _)).mp ((hall fiveBlocksFailing).1 r s' (run_get.trans hrun)) ?_
  exact (syncFailsFrom_iff (by decide) rfl ⟨3, by decide, by decide, by decide⟩).mpr (by decide)

end

end Nkfs.Balloc
