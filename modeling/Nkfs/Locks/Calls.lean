import Nkfs.Locks.Balance

/-!
# Which calls are balanced

Every call rises in the order of `Nkfs.Locks.Balance` (`Rises`), so a call is balanced exactly if none of
its steps rises strictly. `BlockOk` is the condition on the read or write of one block; `BufOk` and
`PagesOk` carry it along the loops of `nkfs_inode_io_buf` and `nkfs_inode_io_pages`, `EffectsOk` along the
calls to the allocator inside a tree. `lock_balance` puts the four calls together.
-/

namespace Nkfs.Locks

open Lib.Program Balloc

/-! ### Calls that rise -/

section

variable {α β : Type} {x : L α} {f : α → L β}

/-- Whenever the call returns, the semaphores are at or above where they were. -/
def Rises (x : L α) : Prop := ∀ s a s', x s = .ok (a, s') → s.bal.locks ≤ s'.bal.locks ∧ s'.bal.geo = s.bal.geo

lemma Rises.bind (hx : Rises x) (hf : ∀ a, Rises (f a)) : Rises (x >>= f) := by
  intro s b s' h
  obtain ⟨a, s₁, hrun, hrest⟩ := run_bind_inv h
  obtain ⟨hle, hgeo⟩ := hx s a s₁ hrun
  obtain ⟨hle', hgeo'⟩ := hf a s₁ b s' hrest
  exact ⟨hle.trans hle', hgeo'.trans hgeo⟩

lemma Calm.rises (hx : Calm x) : Rises x := by
  intro s a s' h
  rcases hx s.bal.locks s rfl with ⟨a', s₁, hrun, hlocks, -, hgeo⟩ | ⟨-, e, he⟩
  · rw [hrun, Except.ok.injEq, Prod.mk.injEq] at h
    rw [← h.2, hlocks]
    exact ⟨le_refl _, hgeo⟩
  · rw [he] at h
    cases h

lemma Rises.pure (a : α) : Rises (Pure.pure a : L α) := (Calm.pure a).rises

end

lemma rises_bal {α : Type} {x : B α} (h : ∀ b a b', x b = .ok (a, b') → b.locks ≤ b'.locks ∧ b'.geo = b.geo) :
    Rises (bal x) := by
  intro s a s' hrun
  exact h _ _ _ (bal_inv hrun).1

lemma rises_blockFree (block : ℕ) : Rises (bal (Balloc.blockFree block)) := rises_bal fun _ _ _ => blockMark_rises

lemma rises_blockAlloc : Rises (bal Balloc.blockAlloc) := rises_bal fun b r b' h => by
  obtain ⟨r', b₁, hrun, halloc⟩ := allocLoop_run (s := b) (k := 0) (zero_add b.geo.bmBlocks)
  obtain ⟨hle, hgeo, -⟩ := halloc.balance (zero_add b.geo.bmBlocks)
  rw [Balloc.blockAlloc, run_get, hrun, Except.ok.injEq, Prod.mk.injEq] at h
  rw [← h.2]
  exact ⟨hle, hgeo⟩

lemma calm_nodeWrite (clu : ℕ) : Calm (nodeWrite clu) := calm_dioCluGet.bind fun r => by
  cases r with
  | false => exact Calm.pure _
  | true => exact (calm_dioCluSetDirty clu).bind fun _ => (calm_dioCluSync clu).bind fun _ => Calm.pure _

lemma rises_treeEffect (e : TreeEffect) : Rises (treeEffect e) := by
  cases e with
  | read => exact (calm_dioCluGet.bind fun _ => Calm.pure _).rises
  | write clu => exact (calm_nodeWrite clu).rises
  | alloc => exact rises_blockAlloc.bind fun _ => Rises.pure _
  | free block => exact (rises_blockFree block).bind fun _ => Rises.pure _

lemma rises_treeEffects (es : List TreeEffect) : Rises (treeEffects es) := by
  induction es with
  | nil => exact Rises.pure _
  | cons e es ih => exact (rises_treeEffect e).bind fun _ => ih

/-- The state in which the effects of the next change of a tree start. -/
def St.treeNext (s : St) : St := { s with treeTick := s.treeTick + 1 }

lemma treeChange_run (s : St) : treeChange s =
    (treeEffects (s.trees s.treeTick).1 >>= fun _ => pure (s.trees s.treeTick).2) s.treeNext := rfl

lemma rises_treeChange : Rises treeChange := fun s a s' h => by
  rw [treeChange_run] at h
  exact ((rises_treeEffects _).bind fun _ => Rises.pure _) s.treeNext a s' h

lemma rises_runIf {α : Type} {x : L α} (cond : Bool) (hx : Rises x) : Rises (runIf cond x) := by
  cases cond with
  | false => exact Rises.pure _
  | true => exact hx.bind fun _ => Rises.pure _

/-! ### Mapping a block -/

lemma rises_inodeBlockAllocFail (ib : IBlock) (allocated inserted : Bool) (e : Errno) :
    Rises (inodeBlockAllocFail ib allocated inserted e) :=
  (rises_runIf inserted rises_treeChange).bind fun _ => (rises_runIf allocated (rises_blockFree _)).bind fun _ =>
    (rises_blockFree _).bind fun _ => Rises.pure _

lemma rises_inodeBlockAllocMap (ib : IBlock) (fresh : Bool) : Rises (inodeBlockAllocMap ib fresh) :=
  calm_openClus.rises.bind fun r => by
    cases r with
    | error e => exact rises_inodeBlockAllocFail ib fresh fresh e
    | ok _ =>
      refine rises_treeChange.bind fun r => ?_
      cases r with
      | error e => exact rises_inodeBlockAllocFail ib fresh fresh e
      | ok _ => exact Rises.pure _

lemma rises_inodeBlockAllocRest (block : ℕ) : Rises (inodeBlockAllocRest block) :=
  calm_findKey.rises.bind fun r => by
    cases r with
    | ok sumBlock => exact rises_inodeBlockAllocMap _ _
    | error e =>
      refine rises_blockAlloc.bind fun r => ?_
      cases r with
      | error e => exact rises_inodeBlockAllocFail _ _ _ _
      | ok sumBlock =>
        refine rises_treeChange.bind fun r => ?_
        cases r with
        | error e => exact rises_inodeBlockAllocFail _ _ _ _
        | ok _ => exact rises_inodeBlockAllocMap _ _

/-- What `nkfs_inode_block_read_create` does with the result of the mapping. -/
def inodeBlockCreated (r : Except Errno IBlock) : L (Except Errno IBlock) :=
  match r with
  | .error e => return .error e
  | .ok ib => do
    match ← inodeBlockWrite ib with
    | .error e =>
      inodeBlockErase ib
      return .error e
    | .ok () => return .ok ib

lemma rises_inodeBlockCreated (r : Except Errno IBlock) : Rises (inodeBlockCreated r) := by
  cases r with
  | error e => exact Rises.pure _
  | ok ib =>
    refine (calm_inodeBlockWrite ib).rises.bind fun r => ?_
    cases r with
    | error e =>
      exact (rises_treeChange.bind fun _ => (rises_blockFree _).bind fun _ => Rises.pure _).bind
        fun _ => Rises.pure _
    | ok _ => exact Rises.pure _

lemma rises_inodeBlockCreate : Rises inodeBlockCreate :=
  (rises_blockAlloc.bind fun r => by
    cases r with
    | error e => exact Rises.pure _
    | ok block => exact rises_inodeBlockAllocRest block).bind rises_inodeBlockCreated

section

variable {s : St}

lemma blockAlloc_run : ∃ r s', bal Balloc.blockAlloc s = .ok (r, s') ∧ Alike s s' ∧
    (¬ TakesBitFrom s.bal 0 → s'.bal.locks = s.bal.locks ∧ ∃ e, r = .error e) ∧
      (TakesBitFrom s.bal 0 → s.bal.locks < s'.bal.locks) := by
  obtain ⟨r, b, hrun, halloc⟩ := allocLoop_run (s := s.bal) (k := 0) (zero_add s.bal.geo.bmBlocks)
  obtain ⟨-, hgeo, hsame, hmore⟩ := halloc.balance (zero_add s.bal.geo.bmBlocks)
  exact ⟨r, _, bal_ok (show Balloc.blockAlloc s.bal = _ from hrun), ⟨rfl, hgeo⟩, hsame, hmore⟩

/-- A mapping that gets no block changes nothing. -/
lemma inodeBlockCreate_ok (h : ¬ TakesBitFrom s.bal 0) :
    Runs inodeBlockCreate s (fun _ s' => s'.bal.locks = s.bal.locks ∧ Alike s s') := by
  obtain ⟨r, s', hrun, halike, hsame, -⟩ := blockAlloc_run (s := s)
  obtain ⟨hlocks, e, rfl⟩ := hsame h
  have halloc : inodeBlockAlloc s = .ok (.error e, s') := run_bind_ok hrun
  exact Runs.step halloc (Runs.pure ⟨hlocks, halike⟩)

/-- A mapping that gets a block leaves a hold on a cluster of the bitmap, whatever comes after. -/
lemma inodeBlockCreate_lt {a : Except Errno IBlock} {s' : St} (h : TakesBitFrom s.bal 0)
    (hrun : inodeBlockCreate s = .ok (a, s')) : s.bal.locks < s'.bal.locks := by
  obtain ⟨r, s₁, halloc, hcreated⟩ := run_bind_inv (f := inodeBlockCreated) hrun
  obtain ⟨r₀, s₀, hblock, hrest⟩ := run_bind_inv halloc
  obtain ⟨r₀', s₀', hblock', -, -, hmore⟩ := blockAlloc_run (s := s)
  rw [hblock', Except.ok.injEq, Prod.mk.injEq] at hblock
  have hlt : s.bal.locks < s₀.bal.locks := hblock.2 ▸ hmore h
  have hle : s₀.bal.locks ≤ s₁.bal.locks := by
    cases r₀ with
    | error e => exact (Rises.pure _ _ _ _ hrest).1
    | ok block => exact (rises_inodeBlockAllocRest block _ _ _ hrest).1
  exact hlt.trans_le (hle.trans (rises_inodeBlockCreated r _ _ _ hcreated).1)

/-! ### One block -/

/-- The block is mapped, or the allocator takes no bit for it. -/
def WriteOk (s : St) : Prop := ∀ e s₁, inodeBlockRead s = .ok (.error e, s₁) → ¬ TakesBitFrom s₁.bal 0

lemma rises_inodeBlockReadCreate : Rises inodeBlockReadCreate := calm_inodeBlockRead.rises.bind fun r => by
  cases r with
  | error e => exact rises_inodeBlockCreate
  | ok ib =>
    refine calm_inodeBlockCheckSum.rises.bind fun r => ?_
    cases r with
    | error e => exact Rises.pure _
    | ok _ => exact Rises.pure _

/-- A calm program on an inode that has a block returns. -/
lemma Calm.runs {α : Type} {x : L α} (hx : Calm x) (hblock : s.block ≠ 0) :
    Runs x s (fun _ s' => s'.bal.locks = s.bal.locks ∧ Alike s s') := by
  rcases hx s.bal.locks s rfl with h | ⟨h0, -⟩
  · exact h
  · exact absurd h0 hblock

lemma inodeBlockReadCreate_ok (hblock : s.block ≠ 0) (h : WriteOk s) :
    Runs inodeBlockReadCreate s (fun _ s' => s'.bal.locks = s.bal.locks ∧ Alike s s') := by
  obtain ⟨r, s₁, hread, hlocks, halike⟩ := calm_inodeBlockRead.runs hblock
  refine Runs.step hread ?_
  cases r with
  | error e =>
    refine (inodeBlockCreate_ok (h e s₁ hread)).mono fun _ s₂ h₂ => ?_
    exact ⟨h₂.1.trans hlocks, halike.trans h₂.2⟩
  | ok ib =>
    refine (calm_inodeBlockCheckSum.runs (s := s₁) (halike.1.symm ▸ hblock)).bind fun r s₂ h₂ => ?_
    cases r with
    | error e => exact Runs.pure ⟨h₂.1.trans hlocks, halike.trans h₂.2⟩
    | ok _ => exact Runs.pure ⟨h₂.1.trans hlocks, halike.trans h₂.2⟩

lemma inodeBlockReadCreate_lt {a : Except Errno IBlock} {s' : St} (h : ¬ WriteOk s)
    (hrun : inodeBlockReadCreate s = .ok (a, s')) : s.bal.locks < s'.bal.locks := by
  simp only [WriteOk, not_forall, not_not] at h
  obtain ⟨e, s₁, hread, htakes⟩ := h
  obtain ⟨r, s₁', hread', hrest⟩ := run_bind_inv hrun
  obtain ⟨rfl, rfl⟩ : Except.error e = r ∧ s₁ = s₁' := by
    rw [hread, Except.ok.injEq, Prod.mk.injEq] at hread'
    exact hread'
  exact (calm_inodeBlockRead.rises _ _ _ hread).1.trans_lt (inodeBlockCreate_lt htakes hrest)

/-- When the read or write of `len` bytes of a block is balanced: reads that reach a block of the file are
not. -/
def BlockOk (write : Bool) (s : St) (vblock off len : ℕ) : Prop :=
  off + len ≤ s.bal.geo.bsize ∧ if write then WriteOk s else s.size ≤ dataOff s vblock off

variable {write : Bool} {vblock off len : ℕ}

lemma rises_writeBlockBuf : Rises (writeBlockBuf vblock off len) := by
  intro s a s' h
  rw [writeBlockBuf, run_get] at h
  split at h
  · cases h
  · refine (rises_inodeBlockReadCreate.bind fun r => ?_) s a s' h
    cases r with
    | error e => exact Rises.pure _
    | ok ib => exact (calm_writeBlockRest _ _ _).rises

lemma writeBlockRest_len {ib : IBlock} {dataEnd n : ℕ} {eof : Bool} {s s' : St}
    (h : writeBlockRest ib dataEnd len s = .ok (.ok (n, eof), s')) : n = len := by
  obtain ⟨r, s₁, -, h⟩ := run_bind_inv h
  cases r with
  | error e => cases h
  | ok _ =>
    obtain ⟨r, s₂, -, h⟩ := run_bind_inv h
    cases r with
    | error e => cases h
    | ok _ =>
      obtain ⟨r, s₃, -, h⟩ := run_bind_inv h
      cases r with
      | error e => cases h
      | ok _ =>
        cases h
        rfl

lemma hold_run {α : Type} (r : α) : (do bal (down .inode .read); bal (up .inode .read); return r : L α) s =
    .ok (r, s) := by
  show Except.ok (r, { s with bal := { s.bal with locks := (s.bal.locks.down .inode .read).up .inode .read } }) = _
  rw [Locks.up_down]

/-- Below the end of the file a read keeps the first hold; at and above it gives the hold back. -/
lemma readBlockBuf_cases (vblock : ℕ) (hlen : off + len ≤ s.bal.geo.bsize) :
    (s.size ≤ dataOff s vblock off ∧ ∃ r, readBlockBuf vblock off len s = .ok (r, s) ∧ ∀ n, r ≠ .ok (n, false)) ∨
    (dataOff s vblock off < s.size ∧ readBlockBuf vblock off len s = readBlockRest (dataOff s vblock off) len
      { s with bal := { s.bal with locks := s.bal.locks.down .inode .read } }) := by
  have hrun : readBlockBuf vblock off len s = _ := run_get
  rw [if_neg (not_lt.mpr hlen)] at hrun
  rw [hrun]
  rcases lt_trichotomy s.size (dataOff s vblock off) with h | h | h
  · refine Or.inl ⟨h.le, .error .erange, ?_, fun n => nofun⟩
    rw [if_pos h]
    exact hold_run _
  · refine Or.inl ⟨h.le, .ok (0, true), ?_, fun n heq => ?_⟩
    · rw [if_neg h.symm.not_gt, if_pos h.symm]
      exact hold_run _
    · cases heq
  · refine Or.inr ⟨h, ?_⟩
    rw [if_neg h.not_gt, if_neg h.ne]
    rfl

lemma ioBlockBuf_ok (hblock : s.block ≠ 0) (h : BlockOk write s vblock off len) :
    Runs (ioBlockBuf write vblock off len) s fun r s' =>
      s'.bal.locks = s.bal.locks ∧ Alike s s' ∧ ∀ n, r = .ok (n, false) → n = len := by
  obtain ⟨hlen, h⟩ := h
  cases write with
  | false =>
    rcases readBlockBuf_cases vblock hlen with ⟨-, r, hrun, hr⟩ | ⟨hlt, -⟩
    · exact Runs.intro hrun ⟨rfl, ⟨rfl, rfl⟩, fun n hn => absurd hn (hr n)⟩
    · exact absurd h (not_le.mpr hlt)
  | true =>
    have hrun : writeBlockBuf vblock off len s = _ := run_get
    rw [if_neg (not_lt.mpr hlen)] at hrun
    obtain ⟨r, s₁, hcreate, hlocks, halike⟩ := inodeBlockReadCreate_ok hblock h
    rw [run_bind_ok hcreate] at hrun
    cases r with
    | error e => exact Runs.intro hrun ⟨hlocks, halike, fun n => nofun⟩
    | ok ib =>
      obtain ⟨r, s₂, hrest, hlocks₂, halike₂⟩ := (calm_writeBlockRest ib
        ((vblock * s.bal.geo.bsize + off + len) % 2 ^ 64) len).runs (s := s₁) (halike.1.symm ▸ hblock)
      refine Runs.intro (hrun.trans hrest) ⟨hlocks₂.trans hlocks, halike.trans halike₂, fun n hn => ?_⟩
      exact writeBlockRest_len (hn ▸ hrest)

lemma ioBlockBuf_lt {r : Except Errno (ℕ × Bool)} {s' : St} (h : ¬ BlockOk write s vblock off len)
    (hrun : ioBlockBuf write vblock off len s = .ok (r, s')) : s.bal.locks < s'.bal.locks := by
  by_cases hlen : off + len ≤ s.bal.geo.bsize
  swap
  · -- the `NKFS_BUG_ON` on the length
    cases write with
    | false =>
      have hbug : readBlockBuf vblock off len s = _ := run_get
      rw [if_pos (not_le.mp hlen)] at hbug
      exact nomatch hbug.symm.trans hrun
    | true =>
      have hbug : writeBlockBuf vblock off len s = _ := run_get
      rw [if_pos (not_le.mp hlen)] at hbug
      exact nomatch hbug.symm.trans hrun
  · cases write with
    | false =>
      rcases readBlockBuf_cases vblock hlen with ⟨hle, -⟩ | ⟨-, heq⟩
      · exact absurd ⟨hlen, hle⟩ h
      · have hrest := heq.symm.trans hrun
        exact s.bal.locks.lt_down_inode.trans_le ((calm_readBlockRest _ _).rises _ _ _ hrest).1
    | true =>
      have hwrite : ¬ WriteOk s := fun hw => h ⟨hlen, hw⟩
      have heq : writeBlockBuf vblock off len s = _ := run_get
      rw [if_neg (not_lt.mpr hlen)] at heq
      obtain ⟨r, s₁, hcreate, hrest⟩ := run_bind_inv (heq.symm.trans hrun)
      have hlt := inodeBlockReadCreate_lt hwrite hcreate
      cases r with
      | error e => exact hlt.trans_le (Rises.pure _ _ _ _ hrest).1
      | ok ib => exact hlt.trans_le ((calm_writeBlockRest _ _ _).rises _ _ _ hrest).1

lemma rises_ioBlockBuf : Rises (ioBlockBuf write vblock off len) := by
  cases write with
  | true => exact rises_writeBlockBuf
  | false =>
    intro s r s' hrun
    by_cases hlen : off + len ≤ s.bal.geo.bsize
    · rcases readBlockBuf_cases vblock hlen with ⟨-, r', heq, -⟩ | ⟨-, heq⟩
      · cases heq.symm.trans hrun
        exact ⟨le_refl _, rfl⟩
      · obtain ⟨hle, hgeo⟩ := (calm_readBlockRest _ _).rises _ _ _ (heq.symm.trans hrun)
        exact ⟨s.bal.locks.lt_down_inode.le.trans hle, hgeo⟩
    · have hbug : readBlockBuf vblock off len s = _ := run_get
      rw [if_pos (not_le.mp hlen)] at hbug
      exact nomatch hbug.symm.trans hrun

end

/-! ### The loops -/

/-- Every block that the loop of `nkfs_inode_io_buf` comes to is read or written in balance. -/
def BufOk (write : Bool) : ℕ → ℕ → ℕ → ℕ → St → Prop
  | 0, _, _, _, _ => True
  | fuel + 1, vblock, loff, res, s => res = 0 ∨
      (BlockOk write s vblock loff (bufLen s.bal.geo.bsize loff res) ∧
        ∀ n s', ioBlockBuf write vblock loff (bufLen s.bal.geo.bsize loff res) s = .ok (.ok (n, false), s') →
          BufOk write fuel ((vblock + 1) % 2 ^ 64) 0 (res - bufLen s.bal.geo.bsize loff res) s')

/-- Every block that `nkfs_inode_io_pages` comes to is read or written in balance. -/
def PagesOk (write : Bool) : ℕ → ℕ → ℕ → ℕ → St → Prop
  | 0, _, _, _, _ => True
  | nrPages + 1, off, pgOff, len, s => len = 0 ∨
      (BufOk write (pageLen pgOff len) (off / s.bal.geo.bsize) (off % s.bal.geo.bsize) (pageLen pgOff len) s ∧
        ∀ n s', ioBuf write off (pageLen pgOff len) s = .ok (.ok (n, false), s') →
          PagesOk write nrPages ((off + pageLen pgOff len) % 2 ^ 64) 0
            ((len + 2 ^ 32 - pageLen pgOff len) % 2 ^ 32) s')

section

variable {s : St} {write : Bool} {fuel vblock loff res sum off pgOff len nrPages : ℕ}

lemma bufLen_le {bsize : ℕ} : bufLen bsize loff res ≤ res := by
  unfold bufLen
  split
  · have : (res + loff) % 2 ^ 32 ≤ res + loff := Nat.mod_le _ _
    omega
  · exact le_refl _

lemma bufLen_pos {bsize : ℕ} (hloff : loff < bsize) (hres : res ≠ 0) : 0 < bufLen bsize loff res := by
  unfold bufLen
  split <;> omega

lemma ioBufLoop_ok (hblock : s.block ≠ 0) (hloff : loff < s.bal.geo.bsize) (hres : res ≤ fuel)
    (h : BufOk write fuel vblock loff res s) : Runs (ioBufLoop write fuel vblock loff res sum) s fun r s' =>
      s'.bal.locks = s.bal.locks ∧ Alike s s' ∧ ∀ n, r = .ok (n, false) → n = sum + res := by
  -- the fuel covers the bytes left, and a round takes at least one
  induction fuel generalizing s vblock loff res sum with
  | zero =>
    obtain rfl : res = 0 := Nat.le_zero.mp hres
    refine Runs.pure ⟨rfl, ⟨rfl, rfl⟩, fun n hn => ?_⟩
    cases hn
    rfl
  | succ fuel ih =>
    apply Runs.get
    split
    · rename_i h0
      refine Runs.pure ⟨rfl, ⟨rfl, rfl⟩, fun n hn => ?_⟩
      cases hn
      rw [h0, add_zero]
    · rename_i h0
      obtain ⟨hone, hrest⟩ := h.resolve_left h0
      have hpos := bufLen_pos hloff h0
      have hle : bufLen s.bal.geo.bsize loff res ≤ res := bufLen_le
      obtain ⟨r, s₁, hrun, hlocks, halike, hcount⟩ := ioBlockBuf_ok hblock hone
      refine Runs.step hrun ?_
      match r with
      | .error e => exact Runs.pure ⟨hlocks, halike, fun n => nofun⟩
      | .ok (n, true) => exact Runs.pure ⟨hlocks, halike, fun n hn => nomatch hn⟩
      | .ok (n, false) =>
        obtain rfl := hcount n rfl
        dsimp only
        rw [if_neg Bool.false_ne_true, if_neg (not_not.mpr rfl)]
        refine (ih (halike.1.symm ▸ hblock) (halike.2 ▸ s.bal.geo.bsize_pos) (by omega)
          (hrest _ s₁ hrun)).mono fun r s₂ h₂ => ?_
        refine ⟨h₂.1.trans hlocks, halike.trans h₂.2.1, fun n hn => ?_⟩
        have := h₂.2.2 n hn
        omega

lemma rises_ioBufLoop : Rises (ioBufLoop write fuel vblock loff res sum) := by
  induction fuel generalizing vblock loff res sum with
  | zero => exact Rises.pure _
  | succ fuel ih =>
    intro s r s' hrun
    rw [ioBufLoop, run_get] at hrun
    split at hrun
    · exact Rises.pure _ _ _ _ hrun
    · refine (rises_ioBlockBuf.bind fun r => ?_) s _ _ hrun
      match r with
      | .error e => exact Rises.pure _
      | .ok (n, true) => exact Rises.pure _
      | .ok (n, false) =>
        dsimp only
        rw [if_neg Bool.false_ne_true]
        split
        · exact fun _ _ _ h => nomatch h
        · exact ih

lemma ioBufLoop_lt {r : Except Errno (ℕ × Bool)} {s' : St} (h : ¬ BufOk write fuel vblock loff res s)
    (hrun : ioBufLoop write fuel vblock loff res sum s = .ok (r, s')) : s.bal.locks < s'.bal.locks := by
  induction fuel generalizing s vblock loff res sum with
  | zero => exact absurd trivial h
  | succ fuel ih =>
    rw [BufOk, not_or, not_and_or] at h
    obtain ⟨h0, h⟩ := h
    rw [ioBufLoop, run_get, if_neg h0] at hrun
    obtain ⟨r₁, s₁, hone, hrest⟩ := run_bind_inv hrun
    rcases h with h | h
    · -- this block leaks
      refine (ioBlockBuf_lt h hone).trans_le ?_
      match r₁ with
      | .error e => exact (Rises.pure _ _ _ _ hrest).1
      | .ok (n, true) => exact (Rises.pure _ _ _ _ hrest).1
      | .ok (n, false) =>
        dsimp only at hrest
        rw [if_neg Bool.false_ne_true] at hrest
        split at hrest
        · cases hrest
        · exact (rises_ioBufLoop _ _ _ hrest).1
    · -- a later one does, so this one was read or written whole
      simp only [not_forall] at h
      obtain ⟨n, s₂, hone', hlater⟩ := h
      cases hone.symm.trans hone'
      dsimp only at hrest
      rw [if_neg Bool.false_ne_true] at hrest
      split at hrest
      · cases hrest
      · exact (rises_ioBlockBuf _ _ _ hone).1.trans_lt (ih hlater hrest)

lemma rises_ioBuf : Rises (ioBuf write off len) := fun s r s' hrun => by
  rw [ioBuf, run_get] at hrun
  exact rises_ioBufLoop _ _ _ hrun

lemma ioPagesLoop_ok (hblock : s.block ≠ 0) (h : PagesOk write nrPages off pgOff len s) :
    Runs (ioPagesLoop write nrPages off pgOff len sum) s fun _ s' => s'.bal.locks = s.bal.locks ∧ Alike s s' := by
  induction nrPages generalizing s off pgOff len sum with
  | zero => exact Runs.pure ⟨rfl, rfl, rfl⟩
  | succ nrPages ih =>
    rw [ioPagesLoop]
    split
    · exact Runs.pure ⟨rfl, rfl, rfl⟩
    · rename_i h0
      obtain ⟨hbuf, hrest⟩ := h.resolve_left h0
      obtain ⟨r, s₁, hrun, hlocks, halike, hcount⟩ : Runs (ioBuf write off (pageLen pgOff len)) s _ :=
        Runs.get (ioBufLoop_ok hblock (Nat.mod_lt _ s.bal.geo.bsize_pos) le_rfl hbuf)
      refine Runs.step hrun ?_
      match r with
      | .error e => exact Runs.pure ⟨hlocks, halike⟩
      | .ok (n, true) => exact Runs.pure ⟨hlocks, halike⟩
      | .ok (n, false) =>
        have hn : n = pageLen pgOff len := (hcount n rfl).trans (zero_add _)
        subst hn
        dsimp only
        rw [if_neg Bool.false_ne_true, if_neg (not_not.mpr rfl)]
        exact (ih (halike.1.symm ▸ hblock) (hrest _ s₁ hrun)).mono fun _ _ h₂ =>
          ⟨h₂.1.trans hlocks, halike.trans h₂.2⟩

lemma rises_ioPagesLoop : Rises (ioPagesLoop write nrPages off pgOff len sum) := by
  induction nrPages generalizing off pgOff len sum with
  | zero => exact Rises.pure _
  | succ nrPages ih =>
    rw [ioPagesLoop]
    split
    · exact Rises.pure _
    · refine rises_ioBuf.bind fun r => ?_
      match r with
      | .error e => exact Rises.pure _
      | .ok (n, true) => exact Rises.pure _
      | .ok (n, false) =>
        dsimp only
        rw [if_neg Bool.false_ne_true]
        split
        · exact fun _ _ _ h => nomatch h
        · exact ih

lemma ioPagesLoop_lt {r : Except Errno ℕ} {s' : St} (h : ¬ PagesOk write nrPages off pgOff len s)
    (hrun : ioPagesLoop write nrPages off pgOff len sum s = .ok (r, s')) : s.bal.locks < s'.bal.locks := by
  induction nrPages generalizing s off pgOff len sum with
  | zero => exact absurd trivial h
  | succ nrPages ih =>
    rw [PagesOk, not_or, not_and_or] at h
    obtain ⟨h0, h⟩ := h
    rw [ioPagesLoop, if_neg h0] at hrun
    obtain ⟨r₁, s₁, hbuf, hrest⟩ := run_bind_inv hrun
    rcases h with h | h
    · -- a block of this page leaks
      have hlt : s.bal.locks < s₁.bal.locks := by
        rw [ioBuf, run_get] at hbuf
        exact ioBufLoop_lt h hbuf
      refine hlt.trans_le ?_
      match r₁ with
      | .error e => exact (Rises.pure _ _ _ _ hrest).1
      | .ok (n, true) => exact (Rises.pure _ _ _ _ hrest).1
      | .ok (n, false) =>
        dsimp only at hrest
        rw [if_neg Bool.false_ne_true] at hrest
        split at hrest
        · cases hrest
        · exact (rises_ioPagesLoop _ _ _ hrest).1
    · simp only [not_forall] at h
      obtain ⟨n, s₂, hbuf', hlater⟩ := h
      cases hbuf.symm.trans hbuf'
      dsimp only at hrest
      rw [if_neg Bool.false_ne_true] at hrest
      split at hrest
      · cases hrest
      · exact (rises_ioBuf _ _ _ hbuf).1.trans_lt (ih hlater hrest)

end

/-! ### Deleting -/

/-- The allocator is left alone, or refuses. -/
def EffectOk (e : TreeEffect) (s : St) : Prop :=
  match e with
  | .read => True
  | .write _ => True
  | .alloc => ¬ TakesBitFrom s.bal 0
  | .free block => s.bal.geo.nrBlocks ≤ block

def EffectsOk : List TreeEffect → St → Prop
  | [], _ => True
  | e :: es, s => EffectOk e s ∧ ∀ s', treeEffect e s = .ok ((), s') → EffectsOk es s'

/-- The call that changes a tree, if it is made, is balanced. -/
def ChangeOk (cond : Bool) (s : St) : Prop := cond = true → EffectsOk (s.trees s.treeTick).1 s.treeNext

/-- The state in which `nkfs_inode_delete` holds the inode. -/
def St.deleting (s : St) : St := { s with bal := { s.bal with locks := s.bal.locks.down .inode .write } }

/-- Both trees are erased in balance and the block of the inode is not one of the device. -/
def DeleteOk (s : St) : Prop :=
  ChangeOk s.blocksTree s.deleting ∧
    ∀ s₁, runIf s.blocksTree treeChange s.deleting = .ok ((), s₁) → ChangeOk s.sumTree s₁ ∧
      s.bal.geo.nrBlocks ≤ s.block

section

variable {s : St}

lemma treeEffect_ok {e : TreeEffect} (hblock : s.block ≠ 0) (h : EffectOk e s) :
    Runs (treeEffect e) s fun _ s' => s'.bal.locks = s.bal.locks ∧ Alike s s' := by
  cases e with
  | read => exact (calm_dioCluGet.bind fun _ => Calm.pure _).runs hblock
  | write clu => exact (calm_nodeWrite clu).runs hblock
  | alloc =>
    obtain ⟨r, s', hrun, halike, hsame, -⟩ := blockAlloc_run (s := s)
    exact Runs.step hrun (Runs.pure ⟨(hsame h).1, halike⟩)
  | free block => exact Runs.step (bal_ok (blockMark_einval h)) (Runs.pure ⟨rfl, rfl, rfl⟩)

lemma treeEffect_lt {e : TreeEffect} {s' : St} (hu : s.bal.locks.unheld = false) (h : ¬ EffectOk e s)
    (hrun : treeEffect e s = .ok ((), s')) : s.bal.locks < s'.bal.locks := by
  cases e with
  | read => exact absurd trivial h
  | write clu => exact absurd trivial h
  | alloc =>
    obtain ⟨r, s₁, halloc, hpure⟩ := run_bind_inv hrun
    obtain ⟨r', s₁', halloc', -, -, hmore⟩ := blockAlloc_run (s := s)
    cases halloc.symm.trans halloc'
    cases hpure
    exact hmore (not_not.mp h)
  | free block =>
    obtain ⟨r, s₁, hfree, hpure⟩ := run_bind_inv hrun
    cases hpure
    exact blockMark_lt hu (not_le.mp h) (bal_inv hfree).1

lemma treeEffects_ok {es : List TreeEffect} (hblock : s.block ≠ 0) (h : EffectsOk es s) :
    Runs (treeEffects es) s fun _ s' => s'.bal.locks = s.bal.locks ∧ Alike s s' := by
  induction es generalizing s with
  | nil => exact Runs.pure ⟨rfl, rfl, rfl⟩
  | cons e es ih =>
    obtain ⟨u, s₁, hrun, hlocks, halike⟩ := treeEffect_ok hblock h.1
    refine Runs.step hrun ((ih (halike.1.symm ▸ hblock) (h.2 s₁ hrun)).mono fun _ s₂ h₂ => ?_)
    exact ⟨h₂.1.trans hlocks, halike.trans h₂.2⟩

lemma treeEffects_lt {es : List TreeEffect} {s' : St} (hblock : s.block ≠ 0) (hu : s.bal.locks.unheld = false)
    (h : ¬ EffectsOk es s) (hrun : treeEffects es s = .ok ((), s')) : s.bal.locks < s'.bal.locks := by
  induction es generalizing s with
  | nil => exact absurd trivial h
  | cons e es ih =>
    obtain ⟨u, s₁, hone, hrest⟩ := run_bind_inv hrun
    by_cases he : EffectOk e s
    · -- balanced so far, so the state is still one without a release too many
      obtain ⟨hlocks, halike⟩ := (treeEffect_ok hblock he).result hone
      have hlater : ¬ EffectsOk es s₁ := fun hes => h ⟨he, fun s₂ hone' => by
        cases hone.symm.trans hone'
        exact hes⟩
      exact hlocks ▸ ih (halike.1.symm ▸ hblock) (hlocks.symm ▸ hu) hlater hrest
    · exact (treeEffect_lt hu he hone).trans_le (rises_treeEffects es _ _ _ hrest).1

lemma runIf_ok {cond : Bool} (hblock : s.block ≠ 0) (h : ChangeOk cond s) :
    Runs (runIf cond treeChange) s fun _ s' => s'.bal.locks = s.bal.locks ∧ Alike s s' := by
  cases cond with
  | false => exact Runs.pure ⟨rfl, rfl, rfl⟩
  | true =>
    obtain ⟨u, s₁, hrun, hlocks, halike⟩ := treeEffects_ok (s := s.treeNext) hblock (h rfl)
    have hchange : treeChange s = .ok ((s.trees s.treeTick).2, s₁) :=
      (treeChange_run s).trans (run_bind_ok hrun)
    exact Runs.step hchange (Runs.pure ⟨hlocks, halike⟩)

lemma runIf_lt {cond : Bool} {s' : St} (hblock : s.block ≠ 0) (hu : s.bal.locks.unheld = false)
    (h : ¬ ChangeOk cond s) (hrun : runIf cond treeChange s = .ok ((), s')) : s.bal.locks < s'.bal.locks := by
  simp only [ChangeOk, Classical.not_imp] at h
  obtain ⟨rfl, h⟩ := h
  obtain ⟨r, s₁, hchange, hpure⟩ := run_bind_inv hrun
  cases hpure
  rw [treeChange_run] at hchange
  obtain ⟨u, s₂, heffects, hpure⟩ := run_bind_inv hchange
  cases hpure
  exact treeEffects_lt (s := s.treeNext) hblock hu h heffects

lemma inodeDelete_run : inodeDelete s = (do
    runIf s.blocksTree treeChange
    runIf s.sumTree treeChange
    let _ ← bal (Balloc.blockFree s.block)
    modify fun s => { s with block := 0, size := 0 }
    bal (up .inode .write) : L Unit) s.deleting := rfl

lemma inodeDelete_ok (hblock : s.block ≠ 0) (h : DeleteOk s) :
    ∃ s', inodeDelete s = .ok ((), s') ∧ s'.bal.locks = s.bal.locks := by
  obtain ⟨u, s₁, hblocks, hlocks₁, halike₁⟩ := runIf_ok (s := s.deleting) hblock h.1
  obtain ⟨hsum, hnr⟩ := h.2 s₁ hblocks
  have hblock₁ : s₁.block ≠ 0 := halike₁.1.symm ▸ hblock
  obtain ⟨u, s₂, hsums, hlocks₂, halike₂⟩ := runIf_ok hblock₁ hsum
  have hgeo : s₂.bal.geo.nrBlocks ≤ s.block := by rwa [(halike₁.trans halike₂).2]
  have hfree : bal (Balloc.blockFree s.block) s₂ = _ := bal_ok (blockMark_einval hgeo)
  refine ⟨_, inodeDelete_run.trans ((run_bind_ok hblocks).trans ((run_bind_ok hsums).trans
    ((run_bind_ok hfree).trans rfl))), ?_⟩
  show s₂.bal.locks.up .inode .write = _
  rw [hlocks₂, hlocks₁]
  exact Locks.up_down _ _ _

lemma inodeDelete_lt {s' : St} (hblock : s.block ≠ 0) (hu : s.bal.locks.unheld = false) (h : ¬ DeleteOk s)
    (hrun : inodeDelete s = .ok ((), s')) : s.bal.locks < s'.bal.locks := by
  rw [inodeDelete_run] at hrun
  obtain ⟨u, s₁, hblocks, hrun⟩ := run_bind_inv hrun
  obtain ⟨u, s₂, hsums, hrun⟩ := run_bind_inv hrun
  obtain ⟨r, s₃, hfree, hrun⟩ := run_bind_inv hrun
  have hrest : s₃.bal.locks ≤ s'.bal.locks := by
    cases hrun
    exact s₃.bal.locks.le_up_inode
  have hle₁ := (rises_runIf _ rises_treeChange _ _ _ hblocks).1
  have hle₂ := (rises_runIf _ rises_treeChange _ _ _ hsums).1
  have hle₃ := (rises_blockFree _ _ _ _ hfree).1
  have hdown : s.bal.locks ≤ s.deleting.bal.locks := s.bal.locks.le_down_inode
  refine lt_of_le_of_lt hdown (lt_of_lt_of_le ?_ hrest)
  by_cases hc₁ : ChangeOk s.blocksTree s.deleting
  swap
  · exact (runIf_lt (s := s.deleting) hblock hu hc₁ hblocks).trans_le (hle₂.trans hle₃)
  obtain ⟨hlocks₁, halike₁⟩ := (runIf_ok (s := s.deleting) hblock hc₁).result hblocks
  have hblock₁ : s₁.block ≠ 0 := halike₁.1.symm ▸ hblock
  have hu₁ : s₁.bal.locks.unheld = false := hlocks₁.symm ▸ hu
  by_cases hc₂ : ChangeOk s.sumTree s₁
  swap
  · exact hle₁.trans_lt ((runIf_lt hblock₁ hu₁ hc₂ hsums).trans_le hle₃)
  obtain ⟨hlocks₂, halike₂⟩ := (runIf_ok hblock₁ hc₂).result hsums
  -- the trees were erased in balance: it is the block of the inode
  have hnr : s.block < s₂.bal.geo.nrBlocks := by
    rw [(halike₁.trans halike₂).2]
    by_contra hnr
    refine h ⟨hc₁, fun s₁' hblocks' => ?_⟩
    cases hblocks.symm.trans hblocks'
    exact ⟨hc₂, not_lt.mp hnr⟩
  exact hle₁.trans_lt (hle₂.trans_lt (blockMark_lt (hlocks₂.symm ▸ hu₁) hnr (bal_inv hfree).1))

end

/-! ### The four calls -/

/-- The call returns with every semaphore as it found it, and releases none that is not held. -/
def Balanced {α : Type} (x : L α) (s : St) : Prop := ∃ a s', x s = .ok (a, s') ∧ s'.bal.locks = s.bal.locks

/-- A mark is balanced exactly on a block outside of the device, an allocation exactly if it takes no bit,
the input and output of an inode exactly if each block is, and a delete exactly if the trees and the
inode give no block back. -/
theorem lock_balance (s : St) (hu : s.bal.locks.unheld = false) :
    (∀ block use, Balanced (bal (Balloc.blockMark block use)) s ↔ s.bal.geo.nrBlocks ≤ block) ∧
    (Balanced (bal Balloc.blockAlloc) s ↔ ¬ TakesBitFrom s.bal 0) ∧
    (s.block ≠ 0 → ∀ write off pgOff len nrPages,
      Balanced (ioPages write off pgOff len nrPages) s ↔ PagesOk write nrPages off pgOff len s) ∧
    (s.block ≠ 0 → (Balanced inodeDelete s ↔ DeleteOk s)) := by
  refine ⟨fun block use => ?_, ?_, fun hblock write off pgOff len nrPages => ?_, fun hblock => ?_⟩
  · refine Iff.trans (b := ∃ r b, Balloc.blockMark block use s.bal = .ok (r, b) ∧ b.locks = s.bal.locks) ?_
      (blockMark_balance hu)
    constructor
    · rintro ⟨r, s', hrun, hlocks⟩
      exact ⟨r, s'.bal, (bal_inv hrun).1, hlocks⟩
    · rintro ⟨r, b, hrun, hlocks⟩
      exact ⟨r, _, bal_ok hrun, hlocks⟩
  · obtain ⟨r, s', hrun, -, hsame, hmore⟩ := blockAlloc_run (s := s)
    constructor
    · rintro ⟨r', s₁, hrun', hlocks⟩ htakes
      cases hrun.symm.trans hrun'
      exact (hmore htakes).ne hlocks.symm
    · intro h
      exact ⟨r, s', hrun, (hsame h).1⟩
  · constructor
    · rintro ⟨r, s', hrun, hlocks⟩
      by_contra h
      exact (ioPagesLoop_lt h hrun).ne hlocks.symm
    · intro h
      obtain ⟨r, s', hrun, hlocks, -⟩ : Runs (ioPages write off pgOff len nrPages) s _ := ioPagesLoop_ok hblock h
      exact ⟨r, s', hrun, hlocks⟩
  · constructor
    · rintro ⟨u, s', hrun, hlocks⟩
      by_contra h
      exact (inodeDelete_lt hblock hu h hrun).ne hlocks.symm
    · intro h
      obtain ⟨s', hrun, hlocks⟩ := inodeDelete_ok hblock h
      exact ⟨(), s', hrun, hlocks⟩

/-- An inode of 100 bytes in block 2 of `fiveBlocks`, without trees. -/
def smallInode : St where
  bal := fiveBlocks
  size := 100
  block := 2
  dirty := false
  blocksTree := false
  sumTree := false
  finds := fun _ => (0, .error .enoent)
  findTick := 0
  trees := fun _ => ([], .ok ())
  treeTick := 0
  sums := fun _ => true
  sumTick := 0
  ready := fun _ => true

/-- A read at the end of the file is balanced, one of its first byte is not. -/
theorem lock_balance_smallInode : Balanced (ioPages false 100 0 1 1) smallInode ∧
    ¬ Balanced (ioPages false 0 0 1 1) smallInode := by
  obtain ⟨-, -, hio, -⟩ := lock_balance smallInode rfl
  constructor
  · refine (hio (by decide) _ _ _ _ _).mpr (Or.inr ⟨Or.inr ⟨⟨by decide, ?_⟩, fun n s' hrun => ?_⟩, fun n s' hrun => ?_⟩)
    · show smallInode.size ≤ dataOff smallInode (100 / 4096) (100 % 4096)
      decide
    · exact trivial
    · exact trivial
  · intro h
    rcases (hio (by decide) _ _ _ _ _).mp h with h | ⟨h | ⟨⟨-, h⟩, -⟩, -⟩
    · exact absurd h (by decide)
    · exact absurd h (by decide)
    · have hsize : smallInode.size ≤ dataOff smallInode (0 / 4096) (0 % 4096) := h
      exact absurd hsize (by decide)

/-- A free block of the device is marked: `sb->rw_lock` is released without a hold. -/
theorem not_lock_balance : ¬ ∀ s : St, s.bal.locks.unheld = false →
    (∀ block use, Balanced (bal (Balloc.blockMark block use)) s) ∧ Balanced (bal Balloc.blockAlloc) s ∧
      (∀ write off pgOff len nrPages, Balanced (ioPages write off pgOff len nrPages) s) ∧ Balanced inodeDelete s := by
  intro h
  obtain ⟨hmark, -⟩ := h smallInode rfl
  obtain ⟨r, s', hrun, hlocks⟩ := hmark 3 true
  exact (blockMark_lt rfl (by decide) (bal_inv hrun).1).ne hlocks.symm

end Nkfs.Locks
