import Nkfs.Btree.HeapTrees
import Nkfs.Object.Lifecycle

/-!
# Creating an object when writes fail

`nkfs_sb_create_obj` takes an inode block, creates two trees, writes the inode and enters it into the tree of
inodes. Here all of that is on nodes in memory, and every allocation and every checked write may fail. `World` has
the three trees side by side: each has its own nodes and cache, and they share the device.

What one level takes, the label of that level gives back, with one exception: when the write of the leaf flag
fails, `nkfs_btree_create` releases its tree but not the block of the root (`TreeCreated.unflagged`). So a failed
create leaks nothing exactly when the two flags can be written.
-/

namespace Nkfs.Refs.Creation

open Lib.Program List

/-! ### The state -/

/-- The trees that a create works on. -/
inductive TreeName where
  | inodes
  | data
  | sums
  deriving DecidableEq

/-- The nodes of one tree in memory, and its cache. -/
structure Pool where
  objs : ℕ → Option NodeObj
  next : ℕ
  nodes : ℕ → Option ℕ
  nodesActive : ℤ

/-- An inode that the cache of inodes points to: the one being created or another. -/
inductive InodePtr where
  | created
  | other (n : ℕ)
  deriving DecidableEq

/-- The device, the trees and the cache of inodes. -/
structure World where
  sb : Sb
  dev : ℕ → Option Node
  log : List Node
  outcome : WriteSite → ℕ → WriteOutcome
  writes : WriteSite → ℕ
  /-- What becomes of the write of the inode. -/
  inodeOutcome : WriteOutcome
  pool : TreeName → Pool
  /-- `sb->inodes_tree`. -/
  inodesTree : TreeObj
  /-- `sb->inodes`, by block. -/
  cache : ℕ → Option InodePtr

abbrev W := Prog World HeapFault

/-- One tree and the device. -/
def World.heap (w : World) (name : TreeName) : Heap where
  sb := w.sb
  dev := w.dev
  log := w.log
  outcome := w.outcome
  writes := w.writes
  objs := (w.pool name).objs
  next := (w.pool name).next
  nodes := (w.pool name).nodes
  nodesActive := (w.pool name).nodesActive

def World.setHeap (w : World) (name : TreeName) (c : Heap) : World :=
  { w with
    sb := c.sb
    dev := c.dev
    log := c.log
    outcome := c.outcome
    writes := c.writes
    pool := Function.update w.pool name ⟨c.objs, c.next, c.nodes, c.nodesActive⟩ }

/-- An operation on one tree. -/
def onTree {α : Type} (name : TreeName) (x : P α) : W α :=
  zoom (fun w => w.heap name) (fun c w => w.setHeap name c) x

/-- A call that does not concern trees. -/
def onDev {α : Type} (x : M α) : W α := fun w =>
  match x w.sb with
  | .ok (a, s) => .ok (a, { w with sb := s })
  | .error (e, s) => .error (.code e, { w with sb := s })

/-- Source: `core/inode.h` `struct nkfs_inode`, as far as a create uses it -/
structure InodeObj where
  block : ℕ
  ino : Key
  size : ℕ
  blocksTreeBlock : ℕ
  blocksSumTreeBlock : ℕ
  blocksTree : Option TreeObj
  blocksSumTree : Option TreeObj
  ref : ℤ

/-! ### The code -/

/-- Source: `core/inode.c` `nkfs_inodes_remove` -/
def inodesRemove (inode : InodeObj) : W Unit := do
  let w ← get
  match w.cache inode.block with
  | none => return ()
  | some (.other _) => stop (.code .bug)
  | some .created => set { w with cache := Function.update w.cache inode.block none }

/-- Whether the inode itself is now in the cache. Source: `core/inode.c` `nkfs_inodes_insert` -/
def inodesInsert (inode : InodeObj) : W Bool := do
  let w ← get
  match w.cache inode.block with
  | some (.other _) => return false
  | some .created => return true
  | none =>
    set { w with cache := Function.update w.cache inode.block (some .created) }
    return true

/-- `if (tree) nkfs_btree_deref(tree)`; the inode holds the only reference on its trees. -/
def derefTree (name : TreeName) : Option TreeObj → W Unit
  | none => return ()
  | some t => onTree name (btreeRelease (some t.root))

/-- Source: `core/inode.c` `nkfs_inode_free` -/
def inodeFree (inode : InodeObj) : W Unit := do
  derefTree .data inode.blocksTree
  derefTree .sums inode.blocksSumTree

/-- Source: `core/inode.c` `nkfs_inode_deref`, `nkfs_inode_release` -/
def inodeDeref (inode : InodeObj) : W Unit := do
  if inode.ref ≤ 0 then stop .count
  else if inode.ref - 1 = 0 then
    inodesRemove inode
    inodeFree inode
  else return ()

/-- `if (tree) nkfs_btree_erase(tree, inode_block_erase, inode)`. -/
def eraseTree (name : TreeName) : Option TreeObj → W (Option TreeObj)
  | none => return none
  | some t => do
    let t ← onTree name (btreeErase t inodeBlockErase)
    return some t

/-- Source: `core/inode.c` `nkfs_inode_delete` -/
def inodeDelete (inode : InodeObj) : W InodeObj := do
  let blocksTree ← eraseTree .data inode.blocksTree
  let sumTree ← eraseTree .sums inode.blocksSumTree
  inodesRemove inode
  let _ ← onDev (blockFree inode.block)
  return { inode with block := 0, size := 0, blocksTree := blocksTree, blocksSumTree := sumTree }

/-- Source: `core/inode.c` `nkfs_inode_to_on_disk` -/
def InodeObj.toOnDisk (inode : InodeObj) : InodeDisk where
  ino := inode.ino
  size := inode.size
  blocksTreeBlock := inode.blocksTreeBlock
  blocksSumTreeBlock := inode.blocksSumTreeBlock

/-- The image of the inode goes to its cluster. -/
def storeInode (inode : InodeObj) : M Unit := do
  let s ← get
  set (s.writeInode inode.block inode.toOnDisk)

/-- Source: `core/inode.c` `nkfs_inode_write` -/
def inodeWrite (inode : InodeObj) : W (Except Errno Unit) := do
  if inode.block = 0 then stop (.code .bug)
  else
    let w ← get
    if w.inodeOutcome = .noCluster then return .error .eio
    else if ← onDev nextAlloc then
      onDev (storeInode inode)
      if w.inodeOutcome = .notSynced then return .error .eio
      else return .ok ()
    else return .error .enomem

/-- `nkfs_btree_root_block`. -/
def rootBlock (name : TreeName) (t : TreeObj) : W ℕ := do
  let node ← onTree name (getNode t.root)
  return node.block

/-- The two trees and the image of a new inode; `false` where the source goes to `idelete`, with the inode as it is
there. -/
def inodeFill (inode : InodeObj) : W (InodeObj × Bool) := do
  match ← onTree .data (btreeCreate 0) with
  | none => return (inode, false)
  | some blocksTree =>
    let inode := { inode with blocksTree := some blocksTree }
    match ← onTree .sums (btreeCreate 0) with
    | none => return (inode, false)
    | some sumTree =>
      let inode := { inode with blocksSumTree := some sumTree }
      let blocksTreeBlock ← rootBlock .data blocksTree
      let blocksSumTreeBlock ← rootBlock .sums sumTree
      let inode := { inode with
        blocksTreeBlock := blocksTreeBlock
        blocksSumTreeBlock := blocksSumTreeBlock }
      match ← inodeWrite inode with
      | .error _ => return (inode, false)
      | .ok () => return (inode, true)

/-- An inode as `nkfs_inode_alloc` returns it, with its block and id. -/
def InodeObj.blank (block : ℕ) (ino : Key) : InodeObj :=
  { block := block, ino := ino, size := 0, blocksTreeBlock := 0, blocksSumTreeBlock := 0, blocksTree := none,
    blocksSumTree := none, ref := 1 }

/-- Source: `core/inode.c` `nkfs_inode_create` -/
def inodeCreate (ino : Key) : W (Option InodeObj) := do
  if ← onDev nextAlloc then
    match ← onDev blockAlloc with
    | .error _ =>
      inodeFree (InodeObj.blank 0 ino)
      return none
    | .ok block =>
      if block = 0 then stop (.code .bug)
      else
        let (inode, ok) ← inodeFill (InodeObj.blank block ino)
        if ok then
          -- the reference that the insertion takes is dropped at once
          if ← inodesInsert inode then return some inode else stop (.code .bug)
        else
          let inode ← inodeDelete inode
          inodeFree inode
          return none
  else return none

/-- The object id that `nkfs_obj_id_gen` drew is `objId`.
Source: `core/super.c` `nkfs_sb_create_obj` -/
def sbCreateObj (objId : Key) : W (Except Errno Unit) := do
  let w ← get
  if w.sb.stopping then return .error .eagain
  else
    match ← inodeCreate objId with
    | none => return .error .enomem
    | some inode =>
      match ← onTree .inodes (insertKey w.inodesTree inode.ino inode.block false) with
      | .error e =>
        let inode ← inodeDelete inode
        inodeDeref inode
        return .error e
      | .ok () =>
        inodeDeref inode
        return .ok ()

/-! ### Trees side by side -/

section pools

variable {w w' : World} {name other : TreeName} {c c' : Heap} {R : Multiset ℕ} {s s' : Sb} {xs ys bs fresh : List ℕ}

lemma heap_setHeap : (w.setHeap name c).heap name = c := by
  simp [World.heap, World.setHeap]

lemma setHeap_heap : w.setHeap name (w.heap name) = w := by
  simp [World.heap, World.setHeap]

lemma pool_setHeap (h : other ≠ name) : (w.setHeap name c).pool other = w.pool other := Function.update_of_ne h ..

lemma onTree_run {α : Type} {x : P α} {Q : α → Heap → Prop} (h : Runs x (w.heap name) Q) :
    Runs (onTree name x) w fun a w' => ∃ c', Q a c' ∧ w' = w.setHeap name c' := by
  obtain ⟨a, c', hrun, hQ⟩ := h
  refine ⟨a, w.setHeap name c', ?_, c', hQ, rfl⟩
  rw [onTree, zoom, hrun]

lemma onDev_run {α : Type} {x : M α} {Q : α → Sb → Prop} (h : Runs x w.sb Q) :
    Runs (onDev x) w fun a w' => ∃ s', Q a s' ∧ w' = { w with sb := s' } := by
  obtain ⟨a, s', hrun, hQ⟩ := h
  refine ⟨a, { w with sb := s' }, ?_, s', hQ, rfl⟩
  rw [onDev, hrun]

/-- On the blocks `xs` the state `s'` has what `s` has. -/
structure Agree (s s' : Sb) (xs : List ℕ) : Prop where
  env : s'.env = s.env
  zero : s.bm 0 = true → s'.bm 0 = true
  marked : ∀ x ∈ xs, s.bm x = true → s'.bm x = true
  nodes : ∀ x ∈ xs, s.bm x = true → s'.nodes x = s.nodes x

lemma Agree.of_free (hst : FreeStep s s' ys) (hdis : ∀ x ∈ xs, x ∉ ys) (hz : 0 ∉ ys) : Agree s s' xs where
  env := hst.env
  zero hm := by rw [hst.bm, hm, decide_eq_true hz]; rfl
  marked x hx hm := by rw [hst.bm, hm, decide_eq_true (hdis x hx)]; rfl
  nodes x hx _ := hst.nodes x (hdis x hx)

/-- Nodes in memory are as good in a state that agrees on their blocks. -/
lemma Ok.agree {w w' : World} (hok : Ok (w.heap name) R ∅) (hpool : w'.pool name = w.pool name)
    (hagree : Agree w.sb w'.sb xs) (hxs : ∀ {x y}, (w.heap name).Has x y → y.block ≠ 0 → y.block ∈ xs) :
    Ok (w'.heap name) R ∅ := by
  have hhas : ∀ {x y}, (w'.heap name).Has x y ↔ (w.heap name).Has x y := by
    intro x y
    simp only [Heap.Has, World.heap, hpool]
  have hcached : ∀ {b x}, (w'.heap name).nodes b = some x ↔ (w.heap name).nodes b = some x := by
    intro b x
    simp only [World.heap, hpool]
  have hobjs : ∀ {x o}, (w'.heap name).objs x = some o ↔ (w.heap name).objs x = some o := by
    intro x o
    simp only [World.heap, hpool]
  refine ⟨fun n => ?_, fun ho => hok.ref (hobjs.mp ho), fun ho => ?_, fun b n => ?_, fun {b n} hb => ?_, ?_, ?_⟩
  · rw [hok.live]
    exact exists_congr fun o => hobjs.symm
  · have hlt := hok.lt (hobjs.mp ho)
    simpa only [World.heap, hpool] using hlt
  · rw [hcached, hok.cached]
    exact and_congr_right fun _ => exists_congr fun y => and_congr_left fun _ => hhas.symm
  · have hb := hcached.mp hb
    obtain ⟨h0, y, hy, rfl⟩ := (hok.cached b n).mp hb
    exact hagree.marked _ (hxs hy h0) (hok.marked hb)
  · intro n y hy hD h0
    have hy := hhas.mp hy
    have hmark := hok.marked ((hok.cached y.block n).mpr ⟨h0, y, hy, rfl⟩)
    exact (hagree.nodes _ (hxs hy h0) hmark).trans (hok.synced hy hD h0)
  · have hactive := hok.active
    simpa only [World.heap, hpool] using hactive

lemma InService.agree {t : TreeObj} {strict : Bool} {b h : ℕ} {es : List (Key × ℕ)}
    (hin : InService (w.heap name) t strict b h es bs) (hpool : w'.pool name = w.pool name)
    (hagree : Agree w.sb w'.sb bs) : InService (w'.heap name) t strict b h es bs := by
  obtain ⟨root, hroot, rfl⟩ := hin.root
  obtain ⟨h, rfl⟩ := hin.tree.succ
  have hmem : root.block ∈ bs := hin.tree.blocks_eq ▸ mem_blocks_self
  refine ⟨Ok.agree hin.ok hpool hagree fun hy _ => ?_, ?_, ⟨root, ?_, rfl⟩, hin.running⟩
  · obtain rfl := Multiset.mem_singleton.mp (hin.ok.mem hy)
    rw [hy.unique hroot]
    exact hmem
  · have hown : ∀ x ∈ bs, w.sb.Owned x := fun x hx => hin.tree.sub.owned x (hin.tree.blocks_eq ▸ hx)
    have hsame : ∀ x ∈ blocks w.sb.nodes (h + 1) root.block, w'.sb.nodes x = w.sb.nodes x := by
      intro x hx
      have hx : x ∈ bs := hin.tree.blocks_eq ▸ hx
      exact hagree.nodes x hx (hown x hx).marked
    obtain ⟨hent, hblk, hshape⟩ := subtree_congr hsame
    refine ⟨h.succ_pos, ⟨hshape _ hin.tree.sub.shape, ?_, ?_, ?_⟩, hent.trans hin.tree.entries_eq,
      hblk.trans hin.tree.blocks_eq, hagree.zero hin.tree.zero⟩
    · exact hent.symm ▸ hin.tree.sub.sorted
    · exact hblk.symm ▸ hin.tree.sub.nodup
    · intro x hx
      have hx : x ∈ bs := hin.tree.blocks_eq ▸ hblk ▸ hx
      have ho := hown x hx
      exact ⟨hagree.marked x hx ho.marked, ho.ne_zero, hagree.env ▸ ho.lt⟩
  · simpa only [Heap.Has, World.heap, hpool] using hroot

end pools

/-! ### The steps of a create -/

/-- The reference that a pointer to a tree stands for. -/
def refs : Option TreeObj → Multiset ℕ
  | none => 0
  | some t => {t.root}

/-- The tree behind a pointer of the new inode, and its blocks. -/
def Holds (w : World) (name : TreeName) : Option TreeObj → List ℕ → Prop
  | none, xs => xs = [] ∧ Ok (w.heap name) 0 ∅
  | some t, xs => ∃ d, xs = [d] ∧ InService (w.heap name) t true d 1 [] [d]

/-- The tree behind a pointer after it was erased: it has its reference, but no blocks. -/
structure Gone (w : World) (name : TreeName) (p : Option TreeObj) : Prop where
  ok : Ok (w.heap name) (refs p) ∅
  block : ∀ {x y}, (w.heap name).Has x y → y.block = 0

/-- What work on the inode and its trees leaves alone. -/
structure Rest (w w' : World) : Prop where
  pool : w'.pool .inodes = w.pool .inodes
  inodesTree : w'.inodesTree = w.inodesTree
  outcome : w'.outcome = w.outcome

section steps

variable {w w₁ w' : World} {name other : TreeName} {p : Option TreeObj} {s s' : Sb} {xs ys bs fresh : List ℕ} {b : ℕ}

lemma Rest.trans (h : Rest w w₁) (h' : Rest w₁ w') : Rest w w' :=
  ⟨h'.pool.trans h.pool, h'.inodesTree.trans h.inodesTree, h'.outcome.trans h.outcome⟩

lemma Rest.setHeap {c : Heap} (hname : name ≠ .inodes) (hout : c.outcome = w.outcome) : Rest w (w.setHeap name c) :=
  ⟨pool_setHeap hname.symm, rfl, hout⟩

lemma Ok.agree_empty (hok : Ok (w.heap name) 0 ∅) (hpool : w'.pool name = w.pool name)
    (hagree : Agree w.sb w'.sb []) : Ok (w'.heap name) 0 ∅ :=
  Ok.agree hok hpool hagree fun hy _ => absurd (hok.mem hy) (Multiset.notMem_zero _)

lemma Holds.agree (hh : Holds w name p xs) (hpool : w'.pool name = w.pool name) (hagree : Agree w.sb w'.sb xs) :
    Holds w' name p xs := by
  cases p with
  | none =>
    obtain ⟨rfl, hok⟩ := hh
    exact ⟨rfl, Ok.agree_empty hok hpool hagree⟩
  | some t =>
    obtain ⟨d, rfl, hin⟩ := hh
    exact ⟨d, rfl, InService.agree hin hpool hagree⟩

lemma Gone.agree (hg : Gone w name p) (hpool : w'.pool name = w.pool name) (hagree : Agree w.sb w'.sb []) :
    Gone w' name p := by
  refine ⟨Ok.agree hg.ok hpool hagree fun hy h0 => absurd (hg.block hy) h0, fun {x y} hy => ?_⟩
  refine hg.block (x := x) ?_
  simpa only [Heap.Has, World.heap, hpool] using hy

/-- The blocks that the tree has are its own. -/
lemma Holds.owned (hh : Holds w name p xs) : ∀ x ∈ xs, w.sb.Owned x := by
  cases p with
  | none =>
    intro x hx
    rw [hh.1] at hx
    exact absurd hx not_mem_nil
  | some t =>
    obtain ⟨d, rfl, hin⟩ := hh
    exact fun x hx => hin.tree.sub.owned x (hin.tree.blocks_eq.symm ▸ hx)

lemma Holds.ok (hh : Holds w name p xs) : Ok (w.heap name) (refs p) ∅ := by
  cases p with
  | none => exact hh.2
  | some t =>
    obtain ⟨d, -, hin⟩ := hh
    exact hin.ok

/-- Erasing an empty tree gives back its one block. -/
lemma eraseTree_run (hh : Holds w name p xs) : Runs (eraseTree name p) w fun p' w' => Gone w' name p' ∧
    FreeStep w.sb w'.sb xs ∧ ∃ c', w' = w.setHeap name c' ∧ c'.outcome = w.outcome := by
  cases p with
  | none =>
    refine Runs.pure ⟨⟨hh.2, fun hy => ?_⟩, hh.1 ▸ FreeStep.refl _, _, setHeap_heap.symm, rfl⟩
    exact absurd (hh.2.mem hy) (Multiset.notMem_zero _)
  | some t =>
    obtain ⟨d, rfl, hin⟩ := hh
    have hgives : GivesBack inodeBlockErase (fun _ => []) (w.heap name).sb [] := fun x hx => absurd hx not_mem_nil
    refine Runs.bind (onTree_run (btreeErase_run hin (nodup_singleton d) hgives)) ?_
    rintro _ _ ⟨c', ⟨rfl, hok, hst, hlog, node, hnode, h0⟩, rfl⟩
    refine Runs.pure ⟨⟨?_, fun {x y} hy => ?_⟩, hst, c', rfl, hlog.outcome⟩
    · rw [heap_setHeap]
      exact hok
    · rw [heap_setHeap] at hy
      obtain rfl := Multiset.mem_singleton.mp (hok.mem hy)
      rw [hy.unique hnode]
      exact h0

/-- Dropping the last reference on a tree. -/
lemma derefTree_run (hok : Ok (w.heap name) (refs p) ∅) : Runs (derefTree name p) w fun _ w' =>
    ∃ c', w' = w.setHeap name c' ∧ c'.sb = w.sb ∧ c'.outcome = w.outcome := by
  cases p with
  | none =>
    exact Runs.pure ⟨w.heap name, setHeap_heap.symm, rfl, rfl⟩
  | some t =>
    refine (onTree_run (btreeRelease_run hok)).mono ?_
    rintro _ _ ⟨c', ⟨-, hq⟩, rfl⟩
    exact ⟨c', rfl, hq.sb, hq.outcome⟩

lemma inodesRemove_run {i : InodeObj} (hfree : ∀ n, w.cache i.block ≠ some (.other n)) :
    inodesRemove i w = .ok ((), { w with cache := Function.update w.cache i.block none }) := by
  rw [inodesRemove, run_get]
  cases hc : w.cache i.block with
  | none =>
    refine congrArg Except.ok (Prod.ext rfl ?_)
    show w = _
    rw [← hc, Function.update_eq_self]
  | some q =>
    cases q with
    | created => rfl
    | other n => exact absurd hc (hfree n)

/-- **Deleting the new inode** gives back its block and the blocks of its trees. -/
theorem inodeDelete_run {i : InodeObj} (hdata : Holds w .data i.blocksTree xs) (hsums : Holds w .sums i.blocksSumTree ys)
    (hnd : (i.block :: (xs ++ ys)).Nodup) (ho : w.sb.Owned i.block)
    (hcache : ∀ n, w.cache i.block ≠ some (.other n)) : Runs (inodeDelete i) w fun i' w' =>
      FreeStep w.sb w'.sb (i.block :: (xs ++ ys)) ∧ i'.block = 0 ∧ i'.ref = i.ref ∧ Gone w' .data i'.blocksTree ∧
        Gone w' .sums i'.blocksSumTree ∧ Rest w w' ∧ w'.cache = Function.update w.cache i.block none := by
  obtain ⟨hb, hxy⟩ := List.nodup_cons.mp hnd
  obtain ⟨-, -, hdis⟩ := List.nodup_append.mp hxy
  have hz : ∀ {zs : List ℕ}, (∀ x ∈ zs, w.sb.Owned x) → 0 ∉ zs := fun hown hz => (hown 0 hz).ne_zero rfl
  unfold inodeDelete
  refine Runs.bind (eraseTree_run hdata) ?_
  rintro p₁ _ ⟨hg₁, hst₁, c₁, rfl, hout₁⟩
  have hsums₁ : Holds (w.setHeap .data c₁) .sums i.blocksSumTree ys := hsums.agree (pool_setHeap (by decide))
    (Agree.of_free hst₁ (fun x hx hx' => hdis x hx' x hx rfl) (hz hdata.owned))
  refine Runs.bind (eraseTree_run hsums₁) ?_
  rintro p₂ _ ⟨hg₂, hst₂, c₂, rfl, hout₂⟩
  have hg₁₂ : Gone ((w.setHeap .data c₁).setHeap .sums c₂) .data p₁ := hg₁.agree (pool_setHeap (by decide))
    (Agree.of_free hst₂ (fun x hx => absurd hx List.not_mem_nil) (hz hsums.owned))
  have hst := hst₁.trans hst₂
  have hown := hst.owned ho hb
  refine Runs.step (inodesRemove_run hcache) ?_
  have hrun : Runs (blockFree i.block) c₂.sb fun _ s' => s' = c₂.sb.mark i.block false :=
    ⟨_, _, blockFree_run hown.lt hown.marked, rfl⟩
  refine Runs.bind (onDev_run hrun) ?_
  rintro _ _ ⟨_, rfl, rfl⟩
  have hmark := FreeStep.mark c₂.sb i.block
  have hagree : Agree c₂.sb (c₂.sb.mark i.block false) [] :=
    Agree.of_free hmark (fun x hx => absurd hx List.not_mem_nil)
      fun h0 => ho.ne_zero (List.mem_singleton.mp h0).symm
  refine Runs.pure ⟨(hst.trans hmark).perm List.perm_append_comm, rfl, rfl, hg₁₂.agree rfl hagree,
    hg₂.agree rfl hagree, ?_, rfl⟩
  exact ⟨rfl, rfl, hout₂.trans hout₁⟩

/-- The flags of the two trees can be written. -/
def World.FlagsDone (w : World) : Prop :=
  w.outcome .flag (w.writes .flag) = .done ∧ w.outcome .flag (w.writes .flag + 1) = .done

/-- Nothing keeps `nkfs_btree_node_create` from making `m` nodes. -/
def World.CanCreate (w : World) (m : ℕ) : Prop := w.sb.Ample m ∧ ∀ i, w.outcome .create i = .done

/-- The cache of inodes has other objects only, each at a block that is allocated. -/
def World.CacheOk (w : World) : Prop :=
  ∀ x p, w.cache x = some p → p ≠ .created ∧ x ≠ 0 ∧ w.sb.bm x = true

end steps

/-! ### Whole creates -/

/-- Writes whose result is dropped succeed. -/
def World.Done (w : World) : Prop := ∀ i, w.outcome .dropped i = .done

section creates

variable {w w' : World} {strict : Bool} {root h : ℕ} {es : List (Key × ℕ)} {bs : List ℕ} {id : Key}

/-- What a create returns with. -/
inductive Outcome (w : World) (strict : Bool) (root : ℕ) (es : List (Key × ℕ)) (bs : List ℕ) :
    Except Errno Unit → World → Prop
  | created {w' : World} : Outcome w strict root es bs (.ok ()) w'
  | failed {w' : World} {e : Errno} {h' : ℕ} {bs' lost fresh : List ℕ} (htree : IsTree w'.sb strict root h' es bs')
      (hst : TreeStep w.sb w'.sb bs (lost ++ fresh)) (hperm : bs'.Perm (fresh ++ bs)) (hcache : w'.cache = w.cache)
      (hkept : w.FlagsDone → lost = []) : Outcome w strict root es bs (.error e) w'

end creates

/-! ### A device -/

/-- No tree is open. -/
def Pool.empty : Pool := ⟨fun _ => none, 0, fun _ => none, 0⟩

/-- The tree of inodes has just been opened, with the root node `root`. -/
def World.opened (s : Sb) (root : Node) (outcome : WriteSite → ℕ → WriteOutcome) : World where
  sb := s
  dev := s.nodes
  log := []
  outcome := outcome
  writes _ := 0
  inodeOutcome := .done
  pool
    | .inodes =>
      let c := Heap.opened s root outcome
      ⟨c.objs, c.next, c.nodes, c.nodesActive⟩
    | .data => .empty
    | .sums => .empty
  inodesTree := ⟨0, false⟩
  cache _ := none

lemma Ok.empty {c : Heap} (hobjs : ∀ n, c.objs n = none) (hnodes : ∀ b, c.nodes b = none)
    (hactive : c.nodesActive = 0) : Ok c 0 ∅ := by
  have hhas : ∀ {n node}, ¬ c.Has n node := by
    rintro n node ⟨o, ho, -⟩
    rw [hobjs] at ho
    cases ho
  refine ⟨fun n => ?_, fun ho => ?_, fun ho => ?_, fun b n => ?_, fun hb => ?_, fun hn => absurd hn hhas, ?_⟩
  · rw [hobjs]
    exact ⟨fun h => absurd h (Multiset.notMem_zero n), nofun⟩
  · rw [hobjs] at ho
    cases ho
  · rw [hobjs] at ho
    cases ho
  · rw [hnodes]
    exact ⟨nofun, fun ⟨_, _, hn, _⟩ => absurd hn hhas⟩
  · rw [hnodes] at hb
    cases hb
  · refine ⟨∅, fun b => ?_, by rw [hactive]; rfl⟩
    rw [hnodes]
    exact ⟨fun h => absurd h (Finset.notMem_empty b), nofun⟩

end Nkfs.Refs.Creation
