import Nkfs.Btree.Map
import Nkfs.Core.Inode

/-!
# A failed mapping of a block is undone

`nkfs_inode_block_alloc` takes a data block, finds or makes the checksum block, pins both clusters
and enters the data block into the inode's tree. Every one of these steps can fail, and all failures
share one label that undoes what two flags and two pointers say was done.

Here the two trees of the inode are maps from keys to blocks, the bitmap is the one of the allocator,
and the pins of the clusters are counted. `MapSt.partly` is the state between two steps, as a function
of the flags and pointers; the label takes every such state back to the first one
(`inodeBlockAllocFail_run`), so a failed call changes nothing (`inodeBlockAlloc_run`).
-/

namespace Nkfs.Mapping

open Lib.Program

/-- The two trees of an inode. -/
inductive TreeName where
  | blocksTree
  | blocksSumTree
  deriving DecidableEq, Repr

/-- One inode on its device. `fails n` is the error of the `n`-th step that may fail, where the
allocations follow the pattern of the superblock. -/
structure MapSt where
  sb : Sb
  tree : TreeName → Key → Option ℕ
  pins : ℕ → ℕ
  fails : ℕ → Option Errno
  tick : ℕ

/-- A program on one inode. -/
abbrev P := Prog MapSt Fault

/-- A program of the allocator. -/
def onBalloc {α : Type} (x : M α) : P α := zoom MapSt.sb (fun sb s => { s with sb := sb }) x

/-- The outcome of the next step that may fail. -/
def attempt : P (Except Errno Unit) := do
  let s ← get
  set { s with tick := s.tick + 1 }
  match s.fails s.tick with
  | some e => return .error e
  | none => return .ok ()

/-- `nkfs_btree_find_key` on a map. -/
def findKey (t : TreeName) (key : Key) : P (Except Errno ℕ) := do
  let s ← get
  match s.tree t key with
  | some value => return .ok value
  | none => return .error .enoent

/-- The state with another entry for a key. -/
def MapSt.setKey (s : MapSt) (t : TreeName) (key : Key) (v : Option ℕ) : MapSt :=
  { s with tree := Function.update s.tree t (Function.update (s.tree t) key v) }

/-- `nkfs_btree_insert_key` with `replace` 0 on a map. -/
def insertKey (t : TreeName) (key : Key) (value : ℕ) : P (Except Errno Unit) := do
  match ← attempt with
  | .error e => return .error e
  | .ok () =>
    let s ← get
    match s.tree t key with
    | some _ => return .error .eexist
    | none =>
      set (s.setKey t key (some value))
      return .ok ()

/-- `nkfs_btree_delete_key` on a map. -/
def deleteKey (t : TreeName) (key : Key) : P (Except Errno Unit) := do
  let s ← get
  match s.tree t key with
  | none => return .error .enoent
  | some _ =>
    set (s.setKey t key none)
    return .ok ()

/-- `dio_clu_get`: a pin on the cluster, or no cluster. -/
def cluGet (block : ℕ) : P Bool := do
  match ← attempt with
  | .error _ => return false
  | .ok () =>
    modify fun s => { s with pins := Function.update s.pins block (s.pins block + 1) }
    return true

/-- `dio_clu_put`. -/
def cluPut (block : ℕ) : P Unit := do
  let s ← get
  if s.pins block = 0 then stop .bug
  else set { s with pins := Function.update s.pins block (s.pins block - 1) }

/-- `struct inode_block`: `clu` and `sumClu` say which of the two pointers is not `NULL`. -/
structure OpenBlock extends InodeBlock where
  clu : Bool
  sumClu : Bool

/-- Source: `core/inode.c` `nkfs_inode_block_open_clus` -/
def openClus (ib : OpenBlock) : P (OpenBlock × Except Errno Unit) := do
  if ib.clu || ib.sumClu then stop .bug
  else if ← cluGet ib.block then
    if ← cluGet ib.sumBlock then return ({ ib with clu := true, sumClu := true }, .ok ())
    else
      cluPut ib.block
      return ({ ib with clu := false, sumClu := false }, .error .eio)
  else return ({ ib with clu := false }, .error .eio)

/-- Source: `core/inode.c` `nkfs_inode_block_relse` -/
def relse (ib : OpenBlock) : P Unit := do
  runWhen ib.clu (cluPut ib.block)
  runWhen ib.sumClu (cluPut ib.sumBlock)

/-- The checksum goes to its slot, then both clusters are synced. Only the result is of interest here.
Source: `core/inode.c` `nkfs_inode_block_write` -/
def inodeBlockWrite (ib : OpenBlock) : P (Except Errno Unit) := do
  if !ib.clu || !ib.sumClu then stop .bug
  else
    match ← attempt with
    | .error e => return .error e
    | .ok () => attempt

/-- The label `fail` of `nkfs_inode_block_alloc`. -/
def inodeBlockAllocFail (ib : OpenBlock) (allocated inserted : Bool) (e : Errno) :
    P (Except Errno OpenBlock) := do
  runWhen inserted (deleteKey .blocksSumTree (keyByU64 ib.vsumBlock))
  runWhen allocated (onBalloc (blockFree ib.sumBlock))
  let _ ← onBalloc (blockFree ib.block)
  relse ib
  return .error e

/-- The tail of `nkfs_inode_block_alloc`, once the checksum block is known. -/
def inodeBlockAllocMap (ib : OpenBlock) (fresh : Bool) : P (Except Errno OpenBlock) := do
  match ← openClus ib with
  | (ib, .error e) => inodeBlockAllocFail ib fresh fresh e
  | (ib, .ok ()) =>
    match ← insertKey .blocksTree (keyByU64 ib.vblock) ib.block with
    | .error e => inodeBlockAllocFail ib fresh fresh e
    | .ok () => return .ok ib

/-- Source: `core/inode.c` `nkfs_inode_block_alloc` -/
def inodeBlockAlloc (vblock : ℕ) : P (Except Errno OpenBlock) := do
  match ← onBalloc blockAlloc with
  | .error e => return .error e
  | .ok block =>
    let sum := blockToSumBlock vblock blockSize
    let ib : OpenBlock :=
      { vblock := vblock, block := block, vsumBlock := sum.1, sumBlock := 0, sumOff := sum.2,
        clu := false, sumClu := false }
    match ← findKey .blocksSumTree (keyByU64 ib.vsumBlock) with
    | .ok sumBlock => inodeBlockAllocMap { ib with sumBlock := sumBlock } false
    | .error _ =>
      match ← onBalloc blockAlloc with
      | .error e => inodeBlockAllocFail ib false false e
      | .ok sumBlock =>
        let ib := { ib with sumBlock := sumBlock }
        match ← insertKey .blocksSumTree (keyByU64 ib.vsumBlock) sumBlock with
        | .error e => inodeBlockAllocFail ib true false e
        | .ok () => inodeBlockAllocMap ib true

/-- Source: `core/inode.c` `nkfs_inode_block_erase` -/
def inodeBlockErase (ib : OpenBlock) : P Unit := do
  let _ ← deleteKey .blocksTree (keyByU64 ib.vblock)
  let _ ← onBalloc (blockFree ib.block)
  return ()

/-- The checksums are bytes of the clusters, which this state leaves out: the test is a step that may
fail. Source: `core/inode.c` `nkfs_inode_block_check_sum` -/
def inodeBlockCheckSum (ib : OpenBlock) : P (Except Errno Unit) := do
  if !ib.clu || !ib.sumClu then stop .bug
  else attempt

/-- Source: `core/inode.c` `nkfs_inode_block_read` -/
def inodeBlockRead (vblock : ℕ) : P (Except Errno OpenBlock) := do
  match ← findKey .blocksTree (keyByU64 vblock) with
  | .error e => return .error e
  | .ok block =>
    let sum := blockToSumBlock vblock blockSize
    let ib : OpenBlock :=
      { vblock := vblock, block := block, vsumBlock := sum.1, sumBlock := 0, sumOff := sum.2,
        clu := false, sumClu := false }
    match ← findKey .blocksSumTree (keyByU64 ib.vsumBlock) with
    | .error e =>
      relse ib
      return .error e
    | .ok sumBlock =>
      match ← openClus { ib with sumBlock := sumBlock } with
      | (ib, .error e) =>
        relse ib
        return .error e
      | (ib, .ok ()) => return .ok ib

/-- A failed `nkfs_inode_block_read` or `nkfs_inode_block_alloc` leaves `ib` zeroed, so that the label
`fail` has nothing to release. Source: `core/inode.c` `nkfs_inode_block_read_create` -/
def inodeBlockReadCreate (vblock : ℕ) : P (Except Errno OpenBlock) := do
  match ← inodeBlockRead vblock with
  | .error _ =>
    match ← inodeBlockAlloc vblock with
    | .error e => return .error e
    | .ok ib =>
      match ← inodeBlockWrite ib with
      | .error e =>
        inodeBlockErase ib
        relse ib
        return .error e
      | .ok () => return .ok ib
  | .ok ib =>
    match ← inodeBlockCheckSum ib with
    | .error e =>
      relse ib
      return .error e
    | .ok () => return .ok ib

/-! ### What the steps do -/

/-- What a failed call must leave as it was: the contents of the trees, the allocated blocks and the
pins. -/
@[ext] structure View where
  nrBlocks : ℕ
  bm : ℕ → Bool
  tree : TreeName → Key → Option ℕ
  pins : ℕ → ℕ

def MapSt.view (s : MapSt) : View where
  nrBlocks := s.sb.env.nrBlocks
  bm := s.sb.bm
  tree := s.tree
  pins := s.pins

namespace View

def mark (v : View) (block : ℕ) (use : Bool) : View := { v with bm := Function.update v.bm block use }

def setKey (v : View) (t : TreeName) (key : Key) (x : Option ℕ) : View :=
  { v with tree := Function.update v.tree t (Function.update (v.tree t) key x) }

def pin (v : View) (block : ℕ) : View :=
  { v with pins := fun b => v.pins b + if b = block then 1 else 0 }

def unpin (v : View) (block : ℕ) : View :=
  { v with pins := fun b => v.pins b - if b = block then 1 else 0 }

/-- A block that was free is free again. -/
lemma mark_mark {v : View} {block : ℕ} (h : v.bm block = false) :
    (v.mark block true).mark block false = v := by
  simp [mark, ← h]

/-- A key that was not there is gone again. -/
lemma setKey_setKey {v : View} {t : TreeName} {key : Key} {x : Option ℕ} (h : v.tree t key = none) :
    (v.setKey t key x).setKey t key none = v := by
  simp [setKey, ← h]

lemma setKey_absent {v : View} {t : TreeName} {key : Key} (h : v.tree t key = none) :
    v.setKey t key none = v := by
  simp [setKey, ← h]

lemma unpin_pin (v : View) (block : ℕ) : (v.pin block).unpin block = v := by
  simp [pin, unpin]

end View

lemma attempt_run (s : MapSt) : ∃ r s', attempt s = .ok (r, s') ∧ s'.view = s.view := by
  unfold attempt
  rw [run_get]
  cases s.fails s.tick with
  | some e => exact ⟨.error e, _, rfl, rfl⟩
  | none => exact ⟨.ok (), _, rfl, rfl⟩

lemma findKey_run (s : MapSt) (t : TreeName) (key : Key) : (∃ value, findKey t key s = .ok (.ok value, s)) ∨
      (findKey t key s = .ok (.error .enoent, s) ∧ s.view.tree t key = none) := by
  unfold findKey
  rw [run_get]
  cases h : s.tree t key with
  | some value => exact Or.inl ⟨value, rfl⟩
  | none => exact Or.inr ⟨rfl, h⟩

/-- An insert fails and changes nothing, or enters a key that was not there. -/
lemma insertKey_run (s : MapSt) (t : TreeName) (key : Key) (value : ℕ) :
    (∃ e s', insertKey t key value s = .ok (.error e, s') ∧ s'.view = s.view) ∨
      ∃ s', insertKey t key value s = .ok (.ok (), s') ∧ s.view.tree t key = none ∧
        s'.view = s.view.setKey t key (some value) := by
  obtain ⟨r, s₁, hrun, hview⟩ := attempt_run s
  unfold insertKey
  rw [run_bind_ok hrun]
  cases r with
  | error e => exact Or.inl ⟨e, s₁, rfl, hview⟩
  | ok _ =>
    dsimp only
    rw [run_get]
    cases h : s₁.tree t key with
    | some _ => exact Or.inl ⟨.eexist, s₁, rfl, hview⟩
    | none =>
      rw [← hview]
      exact Or.inr ⟨s₁.setKey t key (some value), rfl, h, rfl⟩

/-- After a delete the key is not there, whether it was or not. -/
lemma deleteKey_run (s : MapSt) (t : TreeName) (key : Key) :
    ∃ r s', deleteKey t key s = .ok (r, s') ∧ s'.view = s.view.setKey t key none := by
  unfold deleteKey
  rw [run_get]
  cases h : s.tree t key with
  | none => exact ⟨.error .enoent, s, rfl, (View.setKey_absent h).symm⟩
  | some _ => exact ⟨.ok (), s.setKey t key none, rfl, rfl⟩

/-- `dio_clu_get` pins the cluster or changes nothing. -/
lemma cluGet_run (s : MapSt) (block : ℕ) : (∃ s', cluGet block s = .ok (false, s') ∧ s'.view = s.view) ∨
      ∃ s', cluGet block s = .ok (true, s') ∧ s'.view = s.view.pin block := by
  obtain ⟨r, s₁, hrun, hview⟩ := attempt_run s
  unfold cluGet
  rw [run_bind_ok hrun, ← hview]
  cases r with
  | error e => exact Or.inl ⟨s₁, rfl, rfl⟩
  | ok _ =>
    refine Or.inr ⟨_, rfl, View.ext rfl rfl rfl ?_⟩
    funext b
    by_cases hb : b = block
    · subst hb
      simp [MapSt.view, View.pin]
    · simp [MapSt.view, View.pin, hb]

lemma cluPut_run {s : MapSt} {block : ℕ} (h : s.view.pins block ≠ 0) :
    ∃ r s', cluPut block s = .ok (r, s') ∧ s'.view = s.view.unpin block := by
  have h : s.pins block ≠ 0 := h
  unfold cluPut
  rw [run_get, if_neg h]
  refine ⟨(), _, rfl, View.ext rfl rfl rfl ?_⟩
  funext b
  by_cases hb : b = block
  · subst hb
    simp [MapSt.view, View.unpin]
  · simp [MapSt.view, View.unpin, hb]

/-- A block is taken that was free, or nothing changes. -/
lemma blockAlloc_run (s : MapSt) : (∃ e s', onBalloc blockAlloc s = .ok (.error e, s') ∧ s'.view = s.view) ∨
      ∃ block s', onBalloc blockAlloc s = .ok (.ok block, s') ∧ s.view.bm block = false ∧
        block < s.view.nrBlocks ∧ s'.view = s.view.mark block true := by
  obtain ⟨r, sb', hrun, ⟨block, rfl, hfree, hlt, rfl⟩ | ⟨rfl, rfl, -⟩⟩ := blockAlloc_spec s.sb
  · exact Or.inr ⟨block, _, zoom_ok hrun, hfree, hlt, rfl⟩
  · exact Or.inl ⟨.enospc, _, zoom_ok hrun, rfl⟩

lemma onBalloc_blockFree_run {s : MapSt} {block : ℕ} (hlt : block < s.view.nrBlocks)
    (hbm : s.view.bm block = true) :
    ∃ r s', onBalloc (blockFree block) s = .ok (r, s') ∧ s'.view = s.view.mark block false :=
  ⟨.ok (), _, zoom_ok (blockFree_run hlt hbm), rfl⟩

/-- A step that is taken under a flag. -/
lemma runWhen_run {α : Type} {x : P α} {s : MapSt} {f : View → View} {c : Bool}
    (h : c = true → ∃ r s', x s = .ok (r, s') ∧ s'.view = f s.view) :
    ∃ s', runWhen c x s = .ok ((), s') ∧ s'.view = if c then f s.view else s.view := by
  cases c with
  | false => exact ⟨s, runWhen_false, rfl⟩
  | true =>
    obtain ⟨r, s', hrun, hview⟩ := h rfl
    exact ⟨s', runWhen_true hrun, hview⟩

/-! ### The label `fail` -/

namespace View

/-- What was done when the label is reached: the data block is taken, and the flags and pointers say
what else. -/
def partly (v : View) (ib : OpenBlock) (allocated inserted : Bool) : View where
  nrBlocks := v.nrBlocks
  bm := if allocated then ((v.mark ib.block true).mark ib.sumBlock true).bm else (v.mark ib.block true).bm
  tree := if inserted then
      (v.setKey .blocksSumTree (keyByU64 ib.vsumBlock) (some ib.sumBlock)).tree
    else v.tree
  pins b := v.pins b + (if ib.clu ∧ b = ib.block then 1 else 0) +
    (if ib.sumClu ∧ b = ib.sumBlock then 1 else 0)

/-- What was taken was free, and the key that was entered was not there. -/
structure Fresh (v : View) (ib : OpenBlock) (allocated inserted : Bool) : Prop where
  block : v.bm ib.block = false ∧ ib.block < v.nrBlocks
  sumBlock : allocated = true →
    v.bm ib.sumBlock = false ∧ ib.sumBlock < v.nrBlocks ∧ ib.sumBlock ≠ ib.block
  key : inserted = true → v.tree .blocksSumTree (keyByU64 ib.vsumBlock) = none

/-- The steps of the label before the clusters are released, in their order. -/
def undo (v : View) (ib : OpenBlock) (allocated inserted : Bool) : View :=
  let v := if inserted then v.setKey .blocksSumTree (keyByU64 ib.vsumBlock) none else v
  let v := if allocated then v.mark ib.sumBlock false else v
  v.mark ib.block false

section undo

variable (v : View) (ib : OpenBlock) (allocated inserted : Bool)

lemma undo_bm : (v.undo ib allocated inserted).bm =
    if allocated then ((v.mark ib.sumBlock false).mark ib.block false).bm
    else (v.mark ib.block false).bm := by
  cases allocated <;> cases inserted <;> rfl

lemma undo_tree : (v.undo ib allocated inserted).tree =
    if inserted then (v.setKey .blocksSumTree (keyByU64 ib.vsumBlock) none).tree else v.tree := by
  cases allocated <;> cases inserted <;> rfl

lemma undo_nrBlocks : (v.undo ib allocated inserted).nrBlocks = v.nrBlocks := by
  cases allocated <;> cases inserted <;> rfl

lemma undo_pins : (v.undo ib allocated inserted).pins = v.pins := by
  cases allocated <;> cases inserted <;> rfl

end undo

/-- The label undoes exactly what was done. -/
lemma undo_partly {v : View} {ib : OpenBlock} {allocated inserted : Bool}
    (h : v.Fresh ib allocated inserted) :
    { (v.partly ib allocated inserted).undo ib allocated inserted with pins := v.pins } = v := by
  ext1
  · exact undo_nrBlocks ..
  · refine (undo_bm ..).trans ?_
    cases allocated with
    | false =>
      have hmark := congrArg View.bm (mark_mark h.block.1)
      exact hmark
    | true =>
      obtain ⟨hfree, -, hne⟩ := h.sumBlock rfl
      have hsum : (v.mark ib.block true).bm ib.sumBlock = false :=
        (Function.update_of_ne hne _ _).trans hfree
      have hmark : (((v.mark ib.block true).mark ib.sumBlock true).mark ib.sumBlock false).mark
          ib.block false = v := by
        rw [mark_mark hsum, mark_mark h.block.1]
      have hbm := congrArg View.bm hmark
      exact hbm
  · refine (undo_tree ..).trans ?_
    cases inserted with
    | false => rfl
    | true =>
      have hkey := congrArg View.tree (setKey_setKey (x := some ib.sumBlock) (h.key rfl))
      exact hkey
  · rfl

end View

/-- `nkfs_inode_block_relse` gives back the pins that the pointers stand for. -/
lemma relse_run {s : MapSt} {pins : ℕ → ℕ} {ib : OpenBlock}
    (hpins : ∀ b, s.view.pins b = pins b + (if ib.clu ∧ b = ib.block then 1 else 0) +
      (if ib.sumClu ∧ b = ib.sumBlock then 1 else 0)) :
    ∃ s', relse ib s = .ok ((), s') ∧ s'.view = { s.view with pins := pins } := by
  obtain ⟨s₁, hrun₁, hview₁⟩ := runWhen_run (x := cluPut ib.block) (s := s) (c := ib.clu)
    (f := fun v => v.unpin ib.block) fun hc => by
      apply cluPut_run
      rw [hpins, if_pos ⟨hc, rfl⟩]
      omega
  have hpins₁ : ∀ b, s₁.view.pins b = pins b + (if ib.sumClu ∧ b = ib.sumBlock then 1 else 0) := by
    intro b
    have hb := hpins b
    rw [hview₁]
    cases hc : ib.clu with
    | false =>
      simp only [hc, Bool.false_eq_true, false_and, if_false] at hb
      exact hb
    | true =>
      simp only [hc, true_and] at hb
      simp only [View.unpin, if_true]
      omega
  obtain ⟨s₂, hrun₂, hview₂⟩ := runWhen_run (x := cluPut ib.sumBlock) (s := s₁) (c := ib.sumClu)
    (f := fun v => v.unpin ib.sumBlock) fun hc => by
      apply cluPut_run
      rw [hpins₁, if_pos ⟨hc, rfl⟩]
      omega
  have hpins₂ : s₂.view.pins = pins := by
    funext b
    have hb := hpins₁ b
    rw [hview₂]
    cases hc : ib.sumClu with
    | false =>
      simp only [hc, Bool.false_eq_true, false_and, if_false] at hb
      exact hb
    | true =>
      simp only [hc, true_and] at hb
      simp only [View.unpin, if_true]
      omega
  refine ⟨s₂, (run_bind_ok hrun₁).trans hrun₂, ?_⟩
  rw [← hpins₂, hview₂, hview₁]
  cases ib.clu <;> cases ib.sumClu <;> rfl

/-- From every state between two steps the label goes back to the first. -/
lemma inodeBlockAllocFail_run {s : MapSt} {v : View} {ib : OpenBlock} {allocated inserted : Bool}
    (hfresh : v.Fresh ib allocated inserted) (hview : s.view = v.partly ib allocated inserted)
    (e : Errno) :
    ∃ s', inodeBlockAllocFail ib allocated inserted e s = .ok (.error e, s') ∧ s'.view = v := by
  obtain ⟨s₁, hrun₁, hview₁⟩ := runWhen_run (s := s) (c := inserted)
    (f := fun v => v.setKey .blocksSumTree (keyByU64 ib.vsumBlock) none)
    fun _ => deleteKey_run s .blocksSumTree (keyByU64 ib.vsumBlock)
  have hlike₁ : s₁.view.nrBlocks = v.nrBlocks ∧ s₁.view.bm = (v.partly ib allocated inserted).bm := by
    rw [hview₁, hview]
    cases inserted <;> exact ⟨rfl, rfl⟩
  obtain ⟨s₂, hrun₂, hview₂⟩ := runWhen_run (s := s₁) (c := allocated)
    (x := onBalloc (blockFree ib.sumBlock)) (f := fun v => v.mark ib.sumBlock false) fun hc => by
      apply onBalloc_blockFree_run
      · rw [hlike₁.1]
        exact (hfresh.sumBlock hc).2.1
      · rw [hlike₁.2]
        simp [View.partly, View.mark, hc]
  have hblock : ib.block < s₂.view.nrBlocks ∧ s₂.view.bm ib.block = true := by
    rw [hview₂]
    cases allocated with
    | false => exact ⟨hlike₁.1 ▸ hfresh.block.2, by simp [hlike₁.2, View.partly, View.mark]⟩
    | true =>
      have hne : ib.block ≠ ib.sumBlock := (hfresh.sumBlock rfl).2.2.symm
      exact ⟨hlike₁.1 ▸ hfresh.block.2, by simp [hlike₁.2, View.partly, View.mark, hne]⟩
  obtain ⟨r, s₃, hrun₃, hview₃⟩ := onBalloc_blockFree_run hblock.1 hblock.2
  have hundo : s₃.view = (v.partly ib allocated inserted).undo ib allocated inserted := by
    rw [hview₃, hview₂, hview₁, hview]
    rfl
  have hpins : ∀ b, s₃.view.pins b = v.pins b + (if ib.clu ∧ b = ib.block then 1 else 0) +
      (if ib.sumClu ∧ b = ib.sumBlock then 1 else 0) := by
    intro b
    rw [hundo, View.undo_pins]
    rfl
  obtain ⟨s₄, hrun₄, hview₄⟩ := relse_run hpins
  refine ⟨s₄, ?_, ?_⟩
  · unfold inodeBlockAllocFail
    rw [run_bind_ok hrun₁, run_bind_ok hrun₂, run_bind_ok hrun₃, run_bind_ok hrun₄]
    rfl
  · rw [hview₄, hundo]
    exact View.undo_partly hfresh

/-! ### Whole calls -/

/-- The block with both clusters open. -/
def OpenBlock.opened (ib : OpenBlock) : OpenBlock := { ib with clu := true, sumClu := true }

/-- Both clusters are pinned, or none is. -/
lemma openClus_run (s : MapSt) {ib : OpenBlock} (hclu : ib.clu = false) (hsum : ib.sumClu = false) :
    (∃ s', openClus ib s = .ok ((ib, .error .eio), s') ∧ s'.view = s.view) ∨
      ∃ s', openClus ib s = .ok ((ib.opened, .ok ()), s') ∧
        s'.view = (s.view.pin ib.block).pin ib.sumBlock := by
  obtain ⟨ib, clu, sumClu⟩ := ib
  subst hclu hsum
  unfold openClus
  rw [if_neg (by simp)]
  obtain ⟨s₁, hrun₁, hview₁⟩ | ⟨s₁, hrun₁, hview₁⟩ := cluGet_run s ib.block
  · rw [run_bind_ok hrun₁]
    exact Or.inl ⟨s₁, rfl, hview₁⟩
  · rw [run_bind_ok hrun₁, if_pos rfl, ← hview₁]
    obtain ⟨s₂, hrun₂, hview₂⟩ | ⟨s₂, hrun₂, hview₂⟩ := cluGet_run s₁ ib.sumBlock
    · obtain ⟨r, s₃, hrun₃, hview₃⟩ : ∃ r s', cluPut ib.block s₂ = .ok (r, s') ∧
          s'.view = s₂.view.unpin ib.block := by
        apply cluPut_run
        rw [hview₂, hview₁]
        simp [View.pin]
      rw [run_bind_ok hrun₂, if_neg (by decide), run_bind_ok hrun₃]
      exact Or.inl ⟨s₃, rfl, by rw [hview₃, hview₂, hview₁, View.unpin_pin]⟩
    · rw [run_bind_ok hrun₂, if_pos rfl]
      exact Or.inr ⟨s₂, rfl, hview₂⟩

lemma View.partly_opened (v : View) {ib : OpenBlock} (hclu : ib.clu = false)
    (hsum : ib.sumClu = false) (allocated inserted : Bool) :
    v.partly ib.opened allocated inserted =
      ((v.partly ib allocated inserted).pin ib.block).pin ib.sumBlock := by
  ext1
  · rfl
  · rfl
  · rfl
  · funext b
    simp [View.partly, View.pin, OpenBlock.opened, hclu, hsum]

/-- The state in which the block is mapped. -/
def View.mapped (v : View) (ib : OpenBlock) (fresh : Bool) : View :=
  (v.partly ib fresh fresh).setKey .blocksTree (keyByU64 ib.vblock) (some ib.block)

lemma inodeBlockAllocMap_run {s : MapSt} {v : View} {ib : OpenBlock} {fresh : Bool}
    (hclu : ib.clu = false) (hsum : ib.sumClu = false) (hfresh : v.Fresh ib fresh fresh)
    (hview : s.view = v.partly ib fresh fresh) :
    (∃ e s', inodeBlockAllocMap ib fresh s = .ok (.error e, s') ∧ s'.view = v) ∨
      ∃ s', inodeBlockAllocMap ib fresh s = .ok (.ok ib.opened, s') ∧
        v.tree .blocksTree (keyByU64 ib.vblock) = none ∧ s'.view = v.mapped ib.opened fresh := by
  unfold inodeBlockAllocMap
  obtain ⟨s₁, hrun₁, hview₁⟩ | ⟨s₁, hrun₁, hview₁⟩ := openClus_run s hclu hsum
  · obtain ⟨s₂, hrun₂, hview₂⟩ := inodeBlockAllocFail_run hfresh (hview₁.trans hview) .eio
    rw [run_bind_ok hrun₁]
    exact Or.inl ⟨.eio, s₂, hrun₂, hview₂⟩
  · have hopen : s₁.view = v.partly ib.opened fresh fresh := by
      rw [hview₁, hview, View.partly_opened v hclu hsum]
    have hfresh' : v.Fresh ib.opened fresh fresh := ⟨hfresh.block, hfresh.sumBlock, hfresh.key⟩
    rw [run_bind_ok hrun₁]
    obtain ⟨e, s₂, hrun₂, hview₂⟩ | ⟨s₂, hrun₂, hnone, hview₂⟩ :=
      insertKey_run s₁ .blocksTree (keyByU64 ib.opened.vblock) ib.opened.block
    · obtain ⟨s₃, hrun₃, hview₃⟩ := inodeBlockAllocFail_run hfresh' (hview₂.trans hopen) e
      exact Or.inl ⟨e, s₃, (run_bind_ok hrun₂).trans hrun₃, hview₃⟩
    · refine Or.inr ⟨s₂, run_bind_ok hrun₂, ?_, ?_⟩
      · rw [hopen] at hnone
        cases fresh <;> exact hnone
      · rw [hview₂, hopen]
        rfl

/-- Every failure leaves the view as it was; a success maps a block that was not mapped. -/
lemma inodeBlockAlloc_run (s : MapSt) (vblock : ℕ) :
    (∃ e s', inodeBlockAlloc vblock s = .ok (.error e, s') ∧ s'.view = s.view) ∨
      ∃ ib fresh s', inodeBlockAlloc vblock s = .ok (.ok (OpenBlock.opened ib), s') ∧
        ib.vblock = vblock ∧ s.view.Fresh ib fresh fresh ∧
        s.view.tree .blocksTree (keyByU64 vblock) = none ∧
        s'.view = s.view.mapped ib.opened fresh := by
  unfold inodeBlockAlloc
  obtain ⟨e, s₁, hrun₁, hview₁⟩ | ⟨block, s₁, hrun₁, hfree, hlt, hview₁⟩ := blockAlloc_run s
  · rw [run_bind_ok hrun₁]
    exact Or.inl ⟨e, s₁, rfl, hview₁⟩
  rw [run_bind_ok hrun₁]
  dsimp only
  generalize blockToSumBlock vblock blockSize = sum
  obtain ⟨sumBlock, hfind⟩ | ⟨hfind, hkey⟩ := findKey_run s₁ .blocksSumTree (keyByU64 sum.1)
  · -- the checksum block is there already
    have hfresh : s.view.Fresh ⟨⟨vblock, block, sum.1, sumBlock, sum.2⟩, false, false⟩ false false :=
      ⟨⟨hfree, hlt⟩, nofun, nofun⟩
    rw [run_bind_ok hfind]
    obtain ⟨e, s', hrun, hview⟩ | ⟨s', hrun, hnone, hview⟩ :=
      inodeBlockAllocMap_run (s := s₁) rfl rfl hfresh hview₁
    · exact Or.inl ⟨e, s', hrun, hview⟩
    · exact Or.inr ⟨_, false, s', hrun, rfl, hfresh, hnone, hview⟩
  rw [run_bind_ok hfind]
  dsimp only
  obtain ⟨e, s₂, hrun₂, hview₂⟩ | ⟨sumBlock, s₂, hrun₂, hfree₂, hlt₂, hview₂⟩ := blockAlloc_run s₁
  · have hfresh : s.view.Fresh ⟨⟨vblock, block, sum.1, 0, sum.2⟩, false, false⟩ false false :=
      ⟨⟨hfree, hlt⟩, nofun, nofun⟩
    obtain ⟨s', hrun, hview⟩ := inodeBlockAllocFail_run hfresh (hview₂.trans hview₁) e
    rw [run_bind_ok hrun₂]
    exact Or.inl ⟨e, s', hrun, hview⟩
  rw [run_bind_ok hrun₂]
  dsimp only
  rw [hview₁] at hkey hfree₂ hlt₂ hview₂
  have hne : sumBlock ≠ block := by
    rintro rfl
    simp [View.mark] at hfree₂
  have hfree₂ : s.view.bm sumBlock = false := (Function.update_of_ne hne _ _).symm.trans hfree₂
  have hfresh : ∀ inserted,
      s.view.Fresh ⟨⟨vblock, block, sum.1, sumBlock, sum.2⟩, false, false⟩ true inserted :=
    fun _ => ⟨⟨hfree, hlt⟩, fun _ => ⟨hfree₂, hlt₂, hne⟩, fun _ => hkey⟩
  obtain ⟨e, s₃, hrun₃, hview₃⟩ | ⟨s₃, hrun₃, -, hview₃⟩ :=
    insertKey_run s₂ .blocksSumTree (keyByU64 sum.1) sumBlock
  · obtain ⟨s', hrun, hview⟩ := inodeBlockAllocFail_run (hfresh false) (hview₃.trans hview₂) e
    rw [run_bind_ok hrun₃]
    exact Or.inl ⟨e, s', hrun, hview⟩
  · rw [run_bind_ok hrun₃]
    rw [hview₂] at hview₃
    obtain ⟨e, s', hrun, hview⟩ | ⟨s', hrun, hnone, hview⟩ :=
      inodeBlockAllocMap_run (s := s₃) rfl rfl (hfresh true) hview₃
    · exact Or.inl ⟨e, s', hrun, hview⟩
    · exact Or.inr ⟨_, true, s', hrun, rfl, hfresh true, hnone, hview⟩

lemma inodeBlockRead_run (s : MapSt) (vblock : ℕ) :
    (∃ e s', inodeBlockRead vblock s = .ok (.error e, s') ∧ s'.view = s.view) ∨
      ∃ ib s', inodeBlockRead vblock s = .ok (.ok (OpenBlock.opened ib), s') := by
  unfold inodeBlockRead
  obtain ⟨block, hfind⟩ | ⟨hfind, -⟩ := findKey_run s .blocksTree (keyByU64 vblock)
  · rw [run_bind_ok hfind]
    dsimp only
    generalize blockToSumBlock vblock blockSize = sum
    obtain ⟨sumBlock, hfind₂⟩ | ⟨hfind₂, -⟩ := findKey_run s .blocksSumTree (keyByU64 sum.1)
    · rw [run_bind_ok hfind₂]
      dsimp only
      let ib : OpenBlock := ⟨⟨vblock, block, sum.1, sumBlock, sum.2⟩, false, false⟩
      obtain ⟨s₁, hrun₁, hview₁⟩ | ⟨s₁, hrun₁, -⟩ := openClus_run s (rfl : ib.clu = false) rfl
      · rw [run_bind_ok hrun₁]
        exact Or.inl ⟨.eio, s₁, rfl, hview₁⟩
      · rw [run_bind_ok hrun₁]
        exact Or.inr ⟨_, s₁, rfl⟩
    · rw [run_bind_ok hfind₂]
      exact Or.inl ⟨.enoent, s, rfl, rfl⟩
  · rw [run_bind_ok hfind]
    exact Or.inl ⟨.enoent, s, rfl, rfl⟩

lemma inodeBlockWrite_run (s : MapSt) (ib : OpenBlock) :
    ∃ r s', inodeBlockWrite ib.opened s = .ok (r, s') ∧ s'.view = s.view := by
  obtain ⟨r₁, s₁, hrun₁, hview₁⟩ := attempt_run s
  obtain ⟨r₂, s₂, hrun₂, hview₂⟩ := attempt_run s₁
  unfold inodeBlockWrite
  rw [if_neg (by simp [OpenBlock.opened]), run_bind_ok hrun₁]
  cases r₁ with
  | error e => exact ⟨.error e, s₁, rfl, hview₁⟩
  | ok _ => exact ⟨r₂, s₂, hrun₂, hview₂.trans hview₁⟩

/-- Erasing a block that was just mapped, and releasing it. -/
lemma inodeBlockErase_run {s : MapSt} {v : View} {ib : OpenBlock} {fresh : Bool}
    (hfresh : v.Fresh ib fresh fresh) (hnone : v.tree .blocksTree (keyByU64 ib.vblock) = none)
    (hview : s.view = v.mapped ib.opened fresh) :
    ∃ s₁ s₂, inodeBlockErase ib.opened s = .ok ((), s₁) ∧ relse ib.opened s₁ = .ok ((), s₂) ∧
      s₂.view = { (v.partly ib fresh fresh).mark ib.block false with pins := v.pins } := by
  obtain ⟨r₁, s₁, hrun₁, hview₁⟩ := deleteKey_run s .blocksTree (keyByU64 ib.vblock)
  have htree : (v.partly ib.opened fresh fresh).tree .blocksTree (keyByU64 ib.vblock) = none := by
    cases fresh <;> exact hnone
  have hview₁ : s₁.view = v.partly ib.opened fresh fresh := by
    rw [hview₁, hview]
    exact View.setKey_setKey htree
  have hbm : s₁.view.bm ib.block = true := by
    rw [hview₁]
    cases fresh with
    | false => simp [View.partly, View.mark, OpenBlock.opened]
    | true =>
      have hne : ib.block ≠ ib.sumBlock := (hfresh.sumBlock rfl).2.2.symm
      simp [View.partly, View.mark, OpenBlock.opened, hne]
  have hlt : ib.block < s₁.view.nrBlocks := by
    rw [hview₁]
    exact hfresh.block.2
  obtain ⟨r₂, s₂, hrun₂, hview₂⟩ := onBalloc_blockFree_run hlt hbm
  have hpins : ∀ b, s₂.view.pins b = v.pins b + (if ib.opened.clu ∧ b = ib.opened.block then 1 else 0) +
      (if ib.opened.sumClu ∧ b = ib.opened.sumBlock then 1 else 0) := by
    intro b
    rw [hview₂, hview₁]
    rfl
  obtain ⟨s₃, hrun₃, hview₃⟩ := relse_run hpins
  refine ⟨s₂, s₃, (run_bind_ok hrun₁).trans (run_bind_ok hrun₂), hrun₃, ?_⟩
  rw [hview₃, hview₂, hview₁]
  rfl

/-- A program has one result. -/
lemma run_unique {α : Type} {x : P α} {s t t' : MapSt} {a a' : α} (h : x s = .ok (a, t))
    (h' : x s = .ok (a', t')) : a = a' ∧ t = t' := by
  rw [h, Except.ok.injEq, Prod.mk.injEq] at h'
  exact h'

/-- **Failed mappings roll back.** `nkfs_inode_block_alloc` returns from every state, and if it returns
an error, both trees, the bitmap and the pins are as before. If `nkfs_inode_block_read_create` gets to
its first `nkfs_inode_block_write` and that fails, the error is returned with `vblock` not mapped, its
data block free and no pin left. -/
theorem failed_mapping_rolls_back (s : MapSt) (vblock : ℕ) :
    Runs (inodeBlockAlloc vblock) s (fun r s' => ∀ e, r = .error e →
      s'.tree = s.tree ∧ s'.sb.bm = s.sb.bm ∧ s'.pins = s.pins) ∧
    ∀ e₁ s₁ ib s₂ e s₃, inodeBlockRead vblock s = .ok (.error e₁, s₁) →
      inodeBlockAlloc vblock s₁ = .ok (.ok ib, s₂) → inodeBlockWrite ib s₂ = .ok (.error e, s₃) →
      Runs (inodeBlockReadCreate vblock) s fun r s' => r = .error e ∧
        s'.tree .blocksTree (keyByU64 vblock) = none ∧ s'.tree .blocksTree = s.tree .blocksTree ∧
        s'.sb.bm ib.block = false ∧ s'.pins = s.pins := by
  constructor
  · obtain ⟨e, s', hrun, hview⟩ | ⟨ib, fresh, s', hrun, -⟩ := inodeBlockAlloc_run s vblock
    · refine Runs.intro hrun fun _ _ => ⟨?_, ?_, ?_⟩
      · exact congrArg View.tree hview
      · exact congrArg View.bm hview
      · exact congrArg View.pins hview
    · exact Runs.intro hrun nofun
  · intro e₁ s₁ ib s₂ e s₃ hread halloc hwrite
    obtain ⟨_, t₁, hread', hview₁⟩ | ⟨_, t₁, hread'⟩ := inodeBlockRead_run s vblock
    swap
    · exact nomatch (run_unique hread hread').1
    obtain ⟨-, rfl⟩ := run_unique hread hread'
    obtain ⟨_, t₂, halloc', -⟩ | ⟨ib', fresh, t₂, halloc', rfl, hfresh, hnone, hview₂⟩ :=
      inodeBlockAlloc_run s₁ vblock
    · exact nomatch (run_unique halloc halloc').1
    obtain ⟨hib, rfl⟩ := run_unique halloc halloc'
    rw [Except.ok.injEq] at hib
    subst hib
    obtain ⟨_, t₃, hwrite', hview₃⟩ := inodeBlockWrite_run s₂ ib'
    obtain ⟨-, rfl⟩ := run_unique hwrite hwrite'
    obtain ⟨s₄, s₅, herase, hrelse, hview⟩ := inodeBlockErase_run hfresh hnone (hview₃.trans hview₂)
    rw [hview₁] at hview hnone
    refine ⟨.error e, s₅, ?_, rfl, ?_, ?_, ?_, ?_⟩
    · unfold inodeBlockReadCreate
      rw [run_bind_ok hread]
      dsimp only
      rw [run_bind_ok halloc]
      dsimp only
      rw [run_bind_ok hwrite]
      dsimp only
      rw [run_bind_ok herase, run_bind_ok hrelse]
      rfl
    · have htree := congrFun (congrFun (congrArg View.tree hview) .blocksTree) (keyByU64 ib'.vblock)
      refine htree.trans ?_
      cases fresh <;> exact hnone
    · have htree := congrFun (congrArg View.tree hview) .blocksTree
      refine htree.trans ?_
      cases fresh <;> rfl
    · have hbm := congrFun (congrArg View.bm hview) ib'.block
      refine hbm.trans ?_
      simp [View.mark]
    · exact congrArg View.pins hview

/-- The block gets mapped and its first write fails. -/
def firstWriteFails (s : MapSt) (vblock : ℕ) : Bool :=
  match inodeBlockAlloc vblock s with
  | .ok (.ok ib, s') =>
    match inodeBlockWrite ib s' with
    | .ok (.error _, _) => true
    | _ => false
  | _ => false

lemma exists_of_firstWriteFails {s : MapSt} {vblock : ℕ} (h : firstWriteFails s vblock = true) :
    ∃ ib s₂ e s₃, inodeBlockAlloc vblock s = .ok (.ok ib, s₂) ∧
      inodeBlockWrite ib s₂ = .ok (.error e, s₃) := by
  unfold firstWriteFails at h
  split at h
  · split at h
    · exact ⟨_, _, _, _, ‹_›, ‹_›⟩
    · cases h
  · cases h

/-- An inode without blocks, where only the sync of its first block fails. -/
def emptyInode : MapSt where
  sb := blankSb
  tree _ _ := none
  pins _ := 0
  fails n := if n = 4 then some .eio else none
  tick := 0

theorem failed_mapping_rolls_back_emptyInode :
    ∃ (ib : OpenBlock) (e : Errno), Runs (inodeBlockReadCreate 0) emptyInode fun r s' => r = .error e ∧
      s'.tree .blocksTree (keyByU64 0) = none ∧
      s'.tree .blocksTree = emptyInode.tree .blocksTree ∧ s'.sb.bm ib.block = false ∧
      s'.pins = emptyInode.pins := by
  have hfails : firstWriteFails emptyInode 0 = true := by decide +kernel
  obtain ⟨ib, s₂, e, s₃, halloc, hwrite⟩ := exists_of_firstWriteFails hfails
  exact ⟨ib, e, (failed_mapping_rolls_back emptyInode 0).2 .enoent emptyInode ib s₂ e s₃ rfl halloc
    hwrite⟩

end Nkfs.Mapping
