import Nkfs.Balloc.Errors
import Nkfs.Locks.Inode

/-!
# Lock balance

Which calls return with every semaphore as they found it. A read hold on a bitmap cluster is left
behind by every allocation that takes a bit, a read hold on the inode by every block read that passes
the tests of the size, and `sb->rw_lock` is released without a hold by every mark of a block of the
device. What was lost is never given back: `≤` on `Locks` orders states by these holds. Of the calls of
`core/inode.c` those that neither allocate, free nor read a block return with the semaphores as they
were (`Calm`).
-/

namespace Nkfs.Balloc

open Function

/-- More leaked read holds, fewer holds of `sb->rw_lock`. -/
instance : Preorder Locks where
  le l l' := (∀ c, l.holds (.rw c) .read ≤ l'.holds (.rw c) .read) ∧ l.holds .inode .read ≤ l'.holds .inode .read ∧
    l'.holds .sb .write ≤ l.holds .sb .write ∧ (l.unheld = true → l'.unheld = true)
  le_refl l := ⟨fun _ => le_refl _, le_refl _, le_refl _, id⟩
  le_trans l₁ l₂ l₃ h h' :=
    ⟨fun c => (h.1 c).trans (h'.1 c), h.2.1.trans h'.2.1, h'.2.2.1.trans h.2.2.1, fun hu => h'.2.2.2 (h.2.2.2 hu)⟩

lemma Locks.le_def {l l' : Locks} : l ≤ l' ↔
    (∀ c, l.holds (.rw c) .read ≤ l'.holds (.rw c) .read) ∧ l.holds .inode .read ≤ l'.holds .inode .read ∧
      l'.holds .sb .write ≤ l.holds .sb .write ∧ (l.unheld = true → l'.unheld = true) := Iff.rfl

lemma Locks.holds_down (l : Locks) (sem sem' : Sem) (mode mode' : Mode) : (l.down sem mode).holds sem' mode' =
    if sem' = sem ∧ mode' = mode then l.holds sem mode + 1 else l.holds sem' mode' := by
  simp only [Locks.down]
  by_cases hs : sem' = sem
  · subst hs
    rw [update_self]
    by_cases hm : mode' = mode
    · subst hm
      rw [update_self, if_pos ⟨rfl, rfl⟩]
    · rw [update_of_ne hm, if_neg fun h => hm h.2]
  · rw [update_of_ne hs, if_neg fun h => hs h.1]

/-- A read hold on a bitmap cluster more. -/
lemma Locks.lt_down_rw (l : Locks) (c : ℕ) : l < l.down (.rw c) .read := by
  refine lt_of_le_not_ge (Locks.le_def.mpr ⟨fun c' => ?_, le_of_eq ?_, le_of_eq ?_, id⟩) fun h => ?_
  · rw [Locks.holds_down]
    split_ifs with heq
    · rw [heq.1]
      exact Nat.le_succ _
    · exact le_refl _
  · rw [Locks.holds_down, if_neg (by simp)]
  · rw [Locks.holds_down, if_neg (by simp)]
  · have := (Locks.le_def.mp h).1 c
    rw [Locks.holds_down, if_pos ⟨rfl, rfl⟩] at this
    omega

/-- A read hold on the inode more. -/
lemma Locks.lt_down_inode (l : Locks) : l < l.down .inode .read := by
  refine lt_of_le_not_ge (Locks.le_def.mpr ⟨fun c' => le_of_eq ?_, ?_, le_of_eq ?_, id⟩) fun h => ?_
  · rw [Locks.holds_down, if_neg (by simp)]
  · rw [Locks.holds_down, if_pos ⟨rfl, rfl⟩]
    exact Nat.le_succ _
  · rw [Locks.holds_down, if_neg (by simp)]
  · have := (Locks.le_def.mp h).2.1
    rw [Locks.holds_down, if_pos ⟨rfl, rfl⟩] at this
    omega

lemma Locks.holds_up (l : Locks) (sem sem' : Sem) (mode mode' : Mode) : (l.up sem mode).holds sem' mode' =
    if sem' = sem ∧ mode' = mode then l.holds sem mode - 1 else l.holds sem' mode' := by
  rw [Locks.up]
  split_ifs with h0 hsame hsame
  · rw [hsame.1, hsame.2, h0]
  · rfl
  · simp only [hsame.1, hsame.2, update_self]
  · dsimp only
    by_cases hs : sem' = sem
    · subst hs
      rw [update_self, update_of_ne fun hm => hsame ⟨rfl, hm⟩]
    · rw [update_of_ne hs]

lemma Locks.unheld_up (l : Locks) (sem : Sem) (mode : Mode) :
    (l.up sem mode).unheld = (l.unheld || decide (l.holds sem mode = 0)) := by
  rw [Locks.up]
  split_ifs with h0 <;> simp [h0]

/-- `sb->rw_lock` released. -/
lemma Locks.le_up_sb (l : Locks) : l ≤ l.up .sb .write := by
  refine Locks.le_def.mpr ⟨fun c => le_of_eq ?_, le_of_eq ?_, ?_, fun hu => ?_⟩
  · rw [Locks.holds_up, if_neg (by simp)]
  · rw [Locks.holds_up, if_neg (by simp)]
  · rw [Locks.holds_up, if_pos ⟨rfl, rfl⟩]
    exact Nat.sub_le _ _
  · rw [Locks.unheld_up, hu, Bool.true_or]

/-- Either it was not held, or a hold of the caller is gone. -/
lemma Locks.lt_up_sb (l : Locks) (hl : l.unheld = false) : l < l.up .sb .write := by
  refine lt_of_le_not_ge l.le_up_sb fun h => ?_
  obtain ⟨-, -, hsb, hunheld⟩ := Locks.le_def.mp h
  rw [Locks.unheld_up, hl, Bool.false_or, decide_eq_true_eq] at hunheld
  rw [Locks.holds_up, if_pos ⟨rfl, rfl⟩] at hsb
  exact absurd (hunheld (by omega)) (by decide)

/-- A write hold on the inode does not count. -/
lemma Locks.le_down_inode (l : Locks) : l ≤ l.down .inode .write := by
  refine Locks.le_def.mpr ⟨fun c => le_of_eq ?_, le_of_eq ?_, le_of_eq ?_, id⟩ <;>
    rw [Locks.holds_down, if_neg (by simp)]

lemma Locks.le_up_inode (l : Locks) : l ≤ l.up .inode .write := by
  refine Locks.le_def.mpr ⟨fun c => le_of_eq ?_, le_of_eq ?_, le_of_eq ?_, fun hu => ?_⟩
  · rw [Locks.holds_up, if_neg (by simp)]
  · rw [Locks.holds_up, if_neg (by simp)]
  · rw [Locks.holds_up, if_neg (by simp)]
  · rw [Locks.unheld_up, hu, Bool.true_or]

/-! ### The allocator -/

section

variable {s : St} {k left block : ℕ} {use : Bool}

/-- The first cluster from `k` on with a free bit can be read: an allocation takes the bit. -/
def TakesBitFrom (s : St) (k : ℕ) : Prop := ∃ n, k + n < s.geo.bmBlocks ∧ (∀ j ≤ n, s.io (s.tick + j) = none) ∧
  (∀ j < n, ¬ s.FreeIn (k + j)) ∧ s.FreeIn (k + n)

/-- A full cluster is passed. -/
lemma takesBitFrom_tock (hget : s.io s.tick = none) (hfull : ¬ s.FreeIn k) :
    TakesBitFrom s.tock (k + 1) ↔ TakesBitFrom s k := by
  have hiff := firstFree_tock (Q := fun _ => True) hget hfull
  simp only [and_true] at hiff
  exact hiff

/-- On a block of the device every path that returns releases `sb->rw_lock`. -/
lemma blockMark_up {r : Except Errno Unit} {s' : St} (hnr : block < s.geo.nrBlocks)
    (h : blockMark block use s = .ok (r, s')) : s'.locks = s.locks.up .sb .write ∧ s'.geo = s.geo := by
  cases hget : s.io s.tick with
  | some e =>
    rw [blockMark_eio hnr hget, Except.ok.injEq, Prod.mk.injEq] at h
    rw [← h.2]
    exact ⟨rfl, rfl⟩
  | none =>
    by_cases hbit : s.bit block = use
    · obtain ⟨s₁, hbug⟩ := blockMark_bug hnr hget hbit
      rw [hbug] at h
      cases h
    · obtain ⟨clu, hmark⟩ := blockMark_run hnr hget (Bool.eq_not.mpr hbit)
      rw [hmark] at h
      split at h <;> rw [Except.ok.injEq, Prod.mk.injEq] at h <;> rw [← h.2] <;> exact ⟨rfl, rfl⟩

lemma blockMark_lt {r : Except Errno Unit} {s' : St} (hu : s.locks.unheld = false) (hnr : block < s.geo.nrBlocks)
    (h : blockMark block use s = .ok (r, s')) : s.locks < s'.locks := by
  rw [(blockMark_up hnr h).1]
  exact s.locks.lt_up_sb hu

lemma blockMark_rises {r : Except Errno Unit} {s' : St} (h : blockMark block use s = .ok (r, s')) :
    s.locks ≤ s'.locks ∧ s'.geo = s.geo := by
  by_cases hnr : block < s.geo.nrBlocks
  · obtain ⟨hlocks, hgeo⟩ := blockMark_up hnr h
    exact ⟨hlocks ▸ s.locks.le_up_sb, hgeo⟩
  · rw [blockMark_einval (not_lt.mp hnr), Except.ok.injEq, Prod.mk.injEq] at h
    rw [← h.2]
    exact ⟨le_refl _, rfl⟩

/-- A mark returns with the semaphores as they were exactly if the block is not one of the device. -/
lemma blockMark_balance (hu : s.locks.unheld = false) :
    (∃ r s', blockMark block use s = .ok (r, s') ∧ s'.locks = s.locks) ↔ s.geo.nrBlocks ≤ block := by
  constructor
  · rintro ⟨r, s', hrun, hlocks⟩
    by_contra hnr
    exact (blockMark_lt hu (not_le.mp hnr) hrun).ne hlocks.symm
  · intro hnr
    exact ⟨_, s, blockMark_einval hnr, rfl⟩

/-- The loop of an allocation rises, and stays where it is exactly if it takes no bit. -/
lemma AllocRun.balance {r : Except Errno ℕ} {s' : St} (h : AllocRun left k s r s') (hk : k + left = s.geo.bmBlocks) :
    s.locks ≤ s'.locks ∧ s'.geo = s.geo ∧ (¬ TakesBitFrom s k → s'.locks = s.locks ∧ ∃ e, r = .error e) ∧
      (TakesBitFrom s k → s.locks < s'.locks) := by
  have htakes : ∀ {s k i bit}, k < s.geo.bmBlocks → s.io s.tick = none → s.scan k = .found i bit → TakesBitFrom s k := by
    intro s k i bit hlt hget hfound
    refine ⟨0, hlt, fun j hj => ?_, fun j hj => absurd hj (Nat.not_lt_zero j), (St.freeIn_iff hlt).mpr ⟨i, bit, hfound⟩⟩
    obtain rfl : j = 0 := by omega
    exact hget
  induction h with
  | full k s => exact ⟨le_refl _, rfl, fun _ => ⟨rfl, _, rfl⟩, fun ⟨n, hn, _⟩ => absurd hn (by omega)⟩
  | eio hget =>
    refine ⟨le_refl _, rfl, fun _ => ⟨rfl, _, rfl⟩, fun ⟨n, _, hgets, _⟩ => ?_⟩
    cases hget.symm.trans (hgets 0 (Nat.zero_le n))
  | @skip left k s s' r hget hfull hrest ih =>
    rw [← takesBitFrom_tock hget hfull]
    exact ih (show k + 1 + left = s.geo.bmBlocks by omega)
  | @found left k i bit s s' hget hfound hsync htook =>
    -- whatever the sync does, the hold on the cluster stays
    have hlock := htook.locks ▸ s.locks.lt_down_rw (s.geo.bmBlock + k)
    exact ⟨hlock.le, htook.geo, fun h => absurd (htakes (by omega) hget hfound) h, fun _ => hlock⟩
  | @lost left k i bit s s₁ s' e r hget hfound hsync htook hrest ih =>
    obtain ⟨hle, hgeo, -⟩ := ih (by rw [htook.geo]; omega)
    have hlock := htook.locks ▸ s.locks.lt_down_rw (s.geo.bmBlock + k)
    exact ⟨hlock.le.trans hle, hgeo.trans htook.geo, fun h => absurd (htakes (by omega) hget hfound) h,
      fun _ => lt_of_lt_of_le hlock hle⟩

end

end Nkfs.Balloc

namespace Nkfs.Locks

open Lib.Program Balloc

/-! ### Programs that give back what they take -/

section

variable {α β : Type} {l l₁ l₂ : Balloc.Locks} {x : L α} {f : α → L β}

/-- Block of the inode and geometry are the same. -/
def Alike (s s' : St) : Prop := s'.block = s.block ∧ s'.bal.geo = s.bal.geo

lemma Alike.trans {s s' s'' : St} (h : Alike s s') (h' : Alike s' s'') : Alike s s'' :=
  ⟨h'.1.trans h.1, h'.2.trans h.2⟩

/-- From locks `l` the program returns with locks `l'` and the block of the inode as before; only the
`NKFS_BUG_ON` on an inode without a block can stop it. -/
def Lifts (x : L α) (l l' : Balloc.Locks) : Prop := ∀ s : St, s.bal.locks = l →
  Runs x s (fun _ s' => s'.bal.locks = l' ∧ Alike s s') ∨ (s.block = 0 ∧ ∃ e, x s = .error e)

lemma Lifts.bind (hx : Lifts x l l₁) (hf : ∀ a, Lifts (f a) l₁ l₂) : Lifts (x >>= f) l l₂ := by
  intro s hs
  rcases hx s hs with ⟨a, s₁, hrun, hlocks, halike⟩ | ⟨h0, e, he⟩
  · rcases hf a s₁ hlocks with ⟨b, s₂, hrun', hlocks', halike'⟩ | ⟨h0, e, he⟩
    · exact Or.inl (Runs.intro ((run_bind_ok hrun).trans hrun') ⟨hlocks', halike.trans halike'⟩)
    · exact Or.inr ⟨halike.1 ▸ h0, e, (run_bind_ok hrun).trans he⟩
  · exact Or.inr ⟨h0, e, run_bind_error he⟩

lemma Lifts.pure (a : α) : Lifts (Pure.pure a : L α) l l := fun _ hs =>
  Or.inl (Runs.pure ⟨hs, rfl, rfl⟩)

lemma Lifts.get {f : St → L β} (h : ∀ s, Lifts (f s) l l₁) : Lifts (MonadState.get >>= f) l l₁ := fun s hs =>
  h s s hs

lemma Lifts.set {f : St → St} {y : L β} (hlocks : ∀ s, (f s).bal.locks = s.bal.locks)
    (halike : ∀ s, Alike s (f s)) (hy : Lifts y l l₁) : Lifts (modify f >>= fun _ => y) l l₁ := by
  have hf : Lifts (modify f : L PUnit) l l := fun s hs =>
    Or.inl (Runs.intro (a := ⟨⟩) rfl ⟨(hlocks s).trans hs, halike s⟩)
  exact hf.bind fun _ => hy

lemma Lifts.ite {c : Prop} [Decidable c] {y : L α} (hx : Lifts x l l₁) (hy : Lifts y l l₁) :
    Lifts (if c then x else y) l l₁ := by
  split
  · exact hx
  · exact hy

/-- A program that leaves the semaphores as they were. -/
def Calm (x : L α) : Prop := ∀ l, Lifts x l l

lemma Calm.bind (hx : Calm x) (hf : ∀ a, Calm (f a)) : Calm (x >>= f) := fun l => (hx l).bind fun a => hf a l

lemma Calm.pure (a : α) : Calm (Pure.pure a : L α) := fun _ => Lifts.pure a

end

lemma lifts_down (l : Balloc.Locks) (sem : Sem) (mode : Mode) : Lifts (bal (down sem mode)) l (l.down sem mode) :=
  fun s hs => Or.inl (Runs.intro (a := ()) rfl ⟨show s.bal.locks.down sem mode = _ by rw [hs], rfl, rfl⟩)

lemma lifts_up (l : Balloc.Locks) (sem : Sem) (mode : Mode) : Lifts (bal (up sem mode)) (l.down sem mode) l :=
  fun s hs => Or.inl (Runs.intro (a := ()) rfl ⟨show s.bal.locks.up sem mode = _ by rw [hs, Locks.up_down], rfl, rfl⟩)

section

variable {α : Type} {x : B α}

lemma bal_ok {s : St} {a : α} {b : Balloc.St} (h : x s.bal = .ok (a, b)) : bal x s = .ok (a, { s with bal := b }) := by
  rw [bal, h]

lemma bal_inv {s s' : St} {a : α} (h : bal x s = .ok (a, s')) : x s.bal = .ok (a, s'.bal) ∧ s' = { s with bal := s'.bal } := by
  rw [bal] at h
  split at h
  · cases h
  · rename_i heq
    rw [Except.ok.injEq, Prod.mk.injEq] at h
    rw [← h.1, ← h.2]
    exact ⟨heq, rfl⟩

lemma calm_bal (h : ∀ b, ∃ a b', x b = .ok (a, b') ∧ b'.locks = b.locks ∧ b'.geo = b.geo) : Calm (bal x) := by
  intro l s hs
  obtain ⟨a, b, hrun, hlocks, hgeo⟩ := h s.bal
  exact Or.inl (Runs.intro (bal_ok hrun) ⟨hlocks.trans hs, rfl, hgeo⟩)

end

/-! ### Clusters, lookups and writes -/

lemma calm_nextIo : Calm (bal nextIo) := calm_bal fun _ => ⟨_, _, rfl, rfl, rfl⟩

lemma calm_dioCluGet : Calm (bal Balloc.dioCluGet) := calm_bal fun b => by
  cases h : b.io b.tick with
  | none => exact ⟨_, _, dioCluGet_ok h, rfl, rfl⟩
  | some e => exact ⟨_, _, dioCluGet_error h, rfl, rfl⟩

lemma calm_dioCluSetDirty (clu : ℕ) : Calm (bal (dioCluSetDirty clu)) := calm_bal fun _ =>
  ⟨_, _, dioCluSetDirty_run, rfl, rfl⟩

lemma calm_dioCluSync (clu : ℕ) : Calm (bal (Balloc.dioCluSync clu)) := calm_bal fun b => by
  cases hdirty : b.dirty clu with
  | false =>
    refine ⟨.ok (), b, run_get.trans ?_, rfl, rfl⟩
    rw [hdirty]
    rfl
  | true =>
    cases h : b.io b.tick with
    | none => exact ⟨_, _, dioCluSync_ok hdirty h, rfl, rfl⟩
    | some e => exact ⟨_, _, dioCluSync_error hdirty h, rfl, rfl⟩

lemma calm_dioCluWaitRead : Calm dioCluWaitRead := calm_nextIo.bind fun r => by
  cases r with
  | none => exact Calm.pure _
  | some e => exact Calm.pure _

lemma calm_dioCluReady (clu : ℕ) : Calm (dioCluReady clu) := fun l => Lifts.get fun _ =>
  Lifts.ite (calm_dioCluWaitRead l) (Lifts.pure _)

lemma calm_dioCluRead (clu : ℕ) : Calm (dioCluRead clu) := fun l =>
  (calm_dioCluReady clu l).bind fun r => by
    cases r with
    | error e => exact Lifts.pure _
    | ok _ => exact (lifts_down l _ _).bind fun _ => (lifts_up l _ _).bind fun _ => Lifts.pure _

lemma calm_dioCluWrite (clu : ℕ) : Calm (dioCluWrite clu) := fun l =>
  (lifts_down l (.sync clu) .read).bind fun _ => (calm_dioCluReady clu _).bind fun r => by
    cases r with
    | error e => exact (lifts_up l _ _).bind fun _ => Lifts.pure _
    | ok _ =>
      exact (lifts_down _ _ _).bind fun _ => Lifts.set (fun _ => rfl) (fun _ => ⟨rfl, rfl⟩)
        ((lifts_up _ _ _).bind fun _ => (lifts_up l _ _).bind fun _ => Lifts.pure _)

lemma calm_findKey : Calm findKey := fun _ _ hs => Or.inl (Runs.intro rfl ⟨hs, rfl, rfl⟩)

lemma calm_openClus : Calm openClus := calm_dioCluGet.bind fun r => by
  cases r with
  | false => exact Calm.pure _
  | true =>
    refine calm_dioCluGet.bind fun r => ?_
    cases r with
    | false => exact Calm.pure _
    | true => exact Calm.pure _

lemma calm_inodeBlockRead : Calm inodeBlockRead := calm_findKey.bind fun r => by
  cases r with
  | error e => exact Calm.pure _
  | ok block =>
    refine calm_findKey.bind fun r => ?_
    cases r with
    | error e => exact Calm.pure _
    | ok sumBlock =>
      refine calm_openClus.bind fun r => ?_
      cases r with
      | error e => exact Calm.pure _
      | ok _ => exact Calm.pure _

lemma calm_inodeBlockCheckSum : Calm inodeBlockCheckSum := fun _ _ hs =>
  Or.inl (Runs.intro rfl ⟨hs, rfl, rfl⟩)

lemma calm_inodeBlockWrite (ib : IBlock) : Calm (inodeBlockWrite ib) :=
  (calm_dioCluSetDirty _).bind fun _ => (calm_dioCluSetDirty _).bind fun _ => (calm_dioCluSync _).bind fun r => by
    cases r with
    | error e => exact Calm.pure _
    | ok _ => exact calm_dioCluSync _

lemma calm_inodeWriteTo (block : ℕ) : Calm (inodeWriteTo block) := calm_dioCluGet.bind fun r => by
  cases r with
  | false => exact Calm.pure _
  | true =>
    refine calm_nextIo.bind fun r => ?_
    cases r with
    | some e => exact Calm.pure _
    | none =>
      refine (calm_dioCluWrite _).bind fun r => ?_
      cases r with
      | error e => exact Calm.pure _
      | ok _ => exact calm_dioCluSync _

lemma calm_inodeWrite : Calm inodeWrite := by
  intro l s hs
  by_cases h0 : s.block = 0
  · refine Or.inr ⟨h0, (.bug, s), run_get.trans ?_⟩
    rw [if_pos h0]
    rfl
  · have heq : inodeWrite s = inodeWriteTo s.block s := run_get.trans (by rw [if_neg h0])
    rw [Runs, heq]
    exact calm_inodeWriteTo s.block l s hs

lemma calm_inodeSetSize (size : ℕ) : Calm (inodeSetSize size) := fun l =>
  Lifts.set (fun s => by split <;> rfl) (fun s => by split <;> exact ⟨rfl, rfl⟩)
    (Lifts.get fun _ => Lifts.ite (Lifts.pure _) ((calm_inodeWrite l).bind fun r => by
      cases r with
      | error e => exact Lifts.pure _
      | ok _ => exact Lifts.set (fun _ => rfl) (fun _ => ⟨rfl, rfl⟩) (Lifts.pure _)))

lemma calm_sizeUpdate (dataEnd : ℕ) : Calm (sizeUpdate dataEnd) := fun l =>
  (lifts_down l .inode .write).bind fun _ => Lifts.get fun _ => Lifts.ite
    ((calm_inodeSetSize _ _).bind fun r => by
      cases r with
      | error e => exact (lifts_up l _ _).bind fun _ => Lifts.pure _
      | ok _ => exact (lifts_up l _ _).bind fun _ => Lifts.pure _)
    ((lifts_up l _ _).bind fun _ => Lifts.pure _)

lemma calm_writeBlockRest (ib : IBlock) (dataEnd len : ℕ) : Calm (writeBlockRest ib dataEnd len) :=
  (calm_dioCluWrite _).bind fun r => by
    cases r with
    | error e => exact Calm.pure _
    | ok _ =>
      refine (calm_inodeBlockWrite ib).bind fun r => ?_
      cases r with
      | error e => exact Calm.pure _
      | ok _ =>
        refine (calm_sizeUpdate dataEnd).bind fun r => ?_
        cases r with
        | error e => exact Calm.pure _
        | ok _ => exact Calm.pure _

lemma calm_readBlockRest (dataOff len : ℕ) : Calm (readBlockRest dataOff len) := fun l =>
  (calm_inodeBlockRead l).bind fun r => by
    cases r with
    | error e => exact Lifts.pure _
    | ok ib =>
      refine (calm_inodeBlockCheckSum l).bind fun r => ?_
      cases r with
      | error e => exact Lifts.pure _
      | ok _ =>
        refine (lifts_down l _ _).bind fun _ => Lifts.get fun s => (lifts_up l _ _).bind fun _ =>
          (calm_dioCluRead _ l).bind fun r => ?_
        cases r with
        | error e => exact Lifts.pure _
        | ok _ => exact Lifts.pure _

end Nkfs.Locks
