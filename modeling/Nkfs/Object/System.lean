import Nkfs.Core.Super
import Nkfs.Btree.Map
import Nkfs.Object.Request

/-!
# All objects of a device

`SysOk s big T os` is the invariant of a device in use: `T` is the tree of inodes, `os` are the live
objects, and the allocated blocks are the superblock and the bitmap, the nodes of `T` and the blocks
of the objects, each of them once (`sysBlocks`).

An operation on one object or on the tree of inodes leaves everything else alone; `SysOk.step` and
`SysOk.tree_step` put the invariant together again. A request first finds the inode of its object
(`sbFindInode_spec`); `sbPutObj_spec` and `sbGetObj_spec` say what puts and gets do.
-/

namespace Nkfs

open Lib.Bytes Lib.Program Lib.Assoc List

/-! ### Frames -/

section frame

variable {s s' : Sb} {big : Bool} {o : Layout} {ps bs fresh xs : List ℕ}

lemma TreeStep.perm {ys : List ℕ} (hst : TreeStep s s' bs fresh) (hp : fresh.Perm ys) :
    TreeStep s s' bs ys where
  env := hst.env
  inodesTree := hst.inodesTree
  stopping := hst.stopping
  bm x := by simp only [hst.bm x, hp.mem_iff]
  used := by rw [hst.used, hp.length_eq]
  nodup := hp.nodup_iff.mp hst.nodup
  free x hx := hst.free x (hp.mem_iff.mpr hx)
  other := hst.other
  fails := hst.fails

/-- Giving back some of the blocks that were taken. -/
lemma TreeStep.freed {s₁ : Sb} (hst : TreeStep s s₁ bs (xs ++ fresh)) (hfree : FreeStep s₁ s' xs) :
    TreeStep s s' bs fresh where
  env := hfree.env.trans hst.env
  inodesTree := hfree.inodesTree.trans hst.inodesTree
  stopping := hfree.stopping.trans hst.stopping
  bm x := by
    have hnd := List.nodup_append.mp hst.nodup
    rw [hfree.bm, hst.bm]
    by_cases hx : x ∈ xs
    · have hxf : x ∉ fresh := fun hf => hnd.2.2 x hx x hf rfl
      simp [hx, hxf, (hst.free x (mem_append_left _ hx)).1]
    · simp [hx]
  used := by
    rw [hfree.used, hst.used, length_append]
    push_cast
    ring
  nodup := (List.nodup_append.mp hst.nodup).2.1
  free x hx := hst.free x (mem_append_right _ hx)
  other x hx hxbs := by
    have hxs : x ∉ xs := fun hmem => by
      rw [(hst.free x (mem_append_left _ hmem)).1] at hx
      cases hx
    obtain ⟨hn, hi, hc⟩ := hst.other x hx hxbs
    rw [hfree.nodes x hxs, hfree.inodes, hfree.clus]
    exact ⟨hn, hi, hc⟩
  fails := hfree.allocFails ▸ hst.fails

lemma Stored.freed (h : Stored s o ps) (hst : FreeStep s s' xs) (hdis : ∀ x ∈ o.blocks ++ ps, x ∉ xs)
    (hz : 0 ∉ xs) : Stored s' o ps where
  inode := by rw [hst.inodes, h.inode]
  tree i := hst.isTree (h.tree i) (fun x hx => hdis x (mem_append_left _ (o.node_mem hx))) hz
  owned x hx := hst.owned (h.owned x hx) (hdis x hx)
  nodup := h.nodup

/-- An object whose clusters did not change keeps its checksums. -/
lemma ObjOk.of_stored (h : ObjOk s big o) (hsto : Stored s' o []) (henv : s'.env = s.env)
    (hclus : ∀ x ∈ o.blocks, s'.clus x = s.clus x) : ObjOk s' big o where
  stored := hsto
  keys := h.keys
  sums w hw b c hb hc := by
    have hbm := o.held_mem (mem_held_of_find (h.stored.tree false) hb)
    have hcm := o.held_mem (mem_held_of_find (h.stored.tree true) hc)
    rw [Sb.cluSum, henv, hclus b hbm, hclus c hcm]
    exact h.sums w hw b c hb hc

lemma TreeStep.clus_eq (hst : TreeStep s s' bs fresh) (h : Stored s o ps)
    (hdis : ∀ x ∈ o.blocks, x ∉ bs) : ∀ x ∈ o.blocks, s'.clus x = s.clus x := fun x hx =>
  (hst.other x (h.owned_block hx).marked (hdis x hx)).2.2

/-- An operation away from the object. -/
lemma ObjOk.away (h : ObjOk s big o) (hst : TreeStep s s' bs fresh) (hdis : ∀ x ∈ o.blocks, x ∉ bs) :
    ObjOk s' big o := by
  have hsto := h.stored.away hst hdis
  refine h.of_stored ⟨hsto.inode, hsto.tree, fun x hx => ?_, ?_⟩ hst.env (hst.clus_eq h.stored hdis)
  · rw [append_nil] at hx
    exact hsto.owned_block hx
  · rw [append_nil]
    exact hsto.nodup_blocks

/-- Blocks of others are given back. -/
lemma ObjOk.freed (h : ObjOk s big o) (hst : FreeStep s s' xs) (hdis : ∀ x ∈ o.blocks, x ∉ xs)
    (hz : 0 ∉ xs) : ObjOk s' big o :=
  h.of_stored (h.stored.freed hst (by rw [append_nil]; exact hdis) hz) hst.env
    fun x _ => by rw [hst.clus]

end frame

/-! ### The invariant -/

/-- The allocated blocks of a device with tree of inodes `T` and objects `os`. -/
def sysBlocks (s : Sb) (T : TreeView) (os : List Layout) : List ℕ :=
  List.range (1 + s.env.bmBlocks) ++ (T.nodes ++ os.flatMap Layout.blocks)

/-- The invariant of a device in use. -/
structure SysOk (s : Sb) (big : Bool) (T : TreeView) (os : List Layout) : Prop where
  running : s.stopping = false
  inodesTree : s.inodesTree = T.tree
  tree : T.Ok s
  objs : ∀ o ∈ os, ObjOk s big o
  map : T.map.Perm (os.map fun o => (o.ino, o.iblock))
  nodup : (sysBlocks s T os).Nodup
  bits : ∀ b, s.bm b = true ↔ b ∈ sysBlocks s T os
  used : s.usedBlocks = (sysBlocks s T os).length
  dev : s.env.nrBlocks * blockSize < 2 ^ 63

section system

variable {s s' : Sb} {big : Bool} {T T' : TreeView} {os os' l₁ l₂ : List Layout} {o o' : Layout}
  {bs fresh : List ℕ} {x : ℕ}

lemma SysOk.zero (h : SysOk s big T os) : s.bm 0 = true := h.tree.zero

lemma mem_sysBlocks_node (hx : x ∈ T.nodes) : x ∈ sysBlocks s T os :=
  mem_append_right _ (mem_append_left _ hx)

/-- Small block numbers are block numbers. -/
lemma SysOk.mono (h : SysOk s false T os) (big : Bool) : SysOk s big T os :=
  { h with
    objs := fun o ho =>
      { h.objs o ho with
        keys := by
          have hle : vlim false ≤ vlim big := by cases big <;> decide
          refine ⟨fun x hx => ?_, fun x hx => ?_⟩
          · obtain ⟨v, hv, hkey⟩ := (h.objs o ho).keys.data x hx
            exact ⟨v, hv.trans_le hle, hkey⟩
          · obtain ⟨w, hw, hkey⟩ := (h.objs o ho).keys.sum x hx
            exact ⟨w, hw.trans_le hle, hkey⟩ } }

/-- A node of the tree of inodes belongs to no object. -/
lemma SysOk.node_notMem (h : SysOk s big T os) (ho : o ∈ os) (hx : x ∈ T.nodes) : x ∉ o.blocks := by
  intro hxo
  have hnd := (nodup_append.mp (nodup_append.mp h.nodup).2.1).2.2
  exact hnd x hx x (mem_flatMap.mpr ⟨o, ho, hxo⟩) rfl

/-- Two objects share no block. -/
lemma SysOk.disjoint (h : SysOk s big T (l₁ ++ o :: l₂)) (ho' : o' ∈ l₁ ++ l₂) (hx : x ∈ o'.blocks) :
    x ∉ o.blocks := by
  intro hxo
  have hnd := (nodup_append.mp (nodup_append.mp h.nodup).2.1).2.1
  have hperm : ((l₁ ++ o :: l₂).flatMap Layout.blocks).Perm
      (o.blocks ++ (l₁ ++ l₂).flatMap Layout.blocks) := by
    rw [← flatMap_cons]
    exact perm_middle.flatMap_right _
  have hnd := (nodup_append.mp (hperm.nodup_iff.mp hnd)).2.2
  exact hnd x hxo x (mem_flatMap.mpr ⟨o', ho', hx⟩) rfl

/-- The bitmap after a step that took the blocks `fresh` for the device. -/
lemma SysOk.blocks_step (h : SysOk s big T os) (hst : TreeStep s s' bs fresh)
    (hperm : (sysBlocks s' T' os').Perm (fresh ++ sysBlocks s T os)) :
    (sysBlocks s' T' os').Nodup ∧ (∀ b, s'.bm b = true ↔ b ∈ sysBlocks s' T' os') ∧
      s'.usedBlocks = (sysBlocks s' T' os').length := by
  refine ⟨hperm.nodup_iff.mpr (nodup_append.mpr ⟨hst.nodup, h.nodup, fun x hx y hy hxy => ?_⟩),
    fun b => ?_, ?_⟩
  · subst hxy
    have hfree := (hst.free x hx).1
    rw [(h.bits x).mpr hy] at hfree
    cases hfree
  · rw [hst.bm, Bool.or_eq_true, decide_eq_true_eq, h.bits, hperm.mem_iff, mem_append, or_comm]
  · rw [hst.used, h.used, hperm.length_eq, length_append]
    push_cast
    ring

/-- A step that touches nothing that is allocated. -/
lemma SysOk.quiet (h : SysOk s big T os) (hst : TreeStep s s' [] []) : SysOk s' big T os := by
  have hperm : (sysBlocks s' T os).Perm ([] ++ sysBlocks s T os) := by
    rw [sysBlocks, sysBlocks, hst.env, nil_append]
  obtain ⟨hnd, hbits, hused⟩ := h.blocks_step hst hperm
  exact ⟨hst.stopping.trans h.running, hst.inodesTree.trans h.inodesTree,
    hst.isTree h.tree fun _ _ => not_mem_nil,
    fun o ho => (h.objs o ho).away hst fun _ _ => not_mem_nil, h.map, hnd, hbits, hused,
    hst.env ▸ h.dev⟩

/-- An operation on one object. -/
lemma SysOk.step (h : SysOk s big T (l₁ ++ o :: l₂)) (hstep : ObjStep s s' o o')
    (hok : ObjOk s' big o') : SysOk s' big T (l₁ ++ o' :: l₂) := by
  obtain ⟨fresh, hst, hblocks⟩ := hstep.step
  have ho : o ∈ l₁ ++ o :: l₂ := mem_append_right _ (mem_cons_self ..)
  have hperm : (sysBlocks s' T (l₁ ++ o' :: l₂)).Perm (fresh ++ sysBlocks s T (l₁ ++ o :: l₂)) := by
    rw [perm_iff_count] at hblocks ⊢
    intro x
    have hx := hblocks x
    simp only [sysBlocks, hst.env, flatMap_append, flatMap_cons, count_append] at hx ⊢
    omega
  obtain ⟨hnd, hbits, hused⟩ := h.blocks_step hst hperm
  refine ⟨hst.stopping.trans h.running, hst.inodesTree.trans h.inodesTree,
    hst.isTree h.tree fun x hx => h.node_notMem ho hx, fun o'' ho'' => ?_, ?_, hnd, hbits, hused,
    hst.env ▸ h.dev⟩
  · rcases mem_append.mp ho'' with hl | hl
    · exact (h.objs o'' (mem_append_left _ hl)).away hst fun x hx =>
        h.disjoint (mem_append_left _ hl) hx
    · rcases mem_cons.mp hl with rfl | hl
      · exact hok
      · exact (h.objs o'' (mem_append_right _ (mem_cons_of_mem _ hl))).away hst
          fun x hx => h.disjoint (mem_append_right _ hl) hx
  · have hmap := h.map
    simp only [map_append, map_cons, hstep.ino, hstep.iblock] at hmap ⊢
    exact hmap

end system

/-! ### Reading an inode -/

/-- Nothing happened but allocations of memory. -/
structure Ticked (s s' : Sb) : Prop where
  eq : { s' with tick := s.tick, allocFails := s.allocFails } = s
  fails : s.allocFails ≤ s'.allocFails

section find

variable {s s₁ s' : Sb} {big : Bool} {T : TreeView} {os : List Layout} {o : Layout} {ps : List ℕ}
  {id : Key}

lemma Ticked.refl (s : Sb) : Ticked s s := ⟨rfl, le_rfl⟩

lemma Ticked.tried (s : Sb) (ok : Bool) : Ticked s (s.tried ok) :=
  ⟨rfl, (TreeStep.tried s ok).fails⟩

lemma Ticked.trans (h₁ : Ticked s s₁) (h₂ : Ticked s₁ s') : Ticked s s' where
  eq := by
    rw [← h₁.eq, ← h₂.eq]
  fails := h₁.fails.trans h₂.fails

lemma Ticked.nodes (h : Ticked s s') : s'.nodes = s.nodes := by
  simpa using congrArg Sb.nodes h.eq

lemma Ticked.clus (h : Ticked s s') : s'.clus = s.clus := by
  simpa using congrArg Sb.clus h.eq

lemma Ticked.env (h : Ticked s s') : s'.env = s.env := by
  simpa using congrArg Sb.env h.eq

lemma Ticked.step (h : Ticked s s') : TreeStep s s' [] [] where
  env := h.env
  inodesTree := by simpa using congrArg Sb.inodesTree h.eq
  stopping := by simpa using congrArg Sb.stopping h.eq
  bm x := by simpa using congrFun (congrArg Sb.bm h.eq) x
  used := by simpa using congrArg Sb.usedBlocks h.eq
  nodup := nodup_nil
  free x hx := absurd hx not_mem_nil
  other x _ _ := ⟨congrFun h.nodes x, by simpa using congrFun (congrArg Sb.inodes h.eq) x,
    congrFun h.clus x⟩
  fails := h.fails

lemma Ticked.ample {n : ℕ} (h : Ticked s s') (ha : s.Ample n) : s'.Ample n := by
  have hst := h.step
  exact hst.ample (by simpa using ha)

/-- Memory is there or not. -/
lemma nextAlloc_spec (s : Sb) : Runs nextAlloc s fun ok s' => s' = s.tried ok ∧
    (ok = false → ¬ s.Ample 0) := by
  refine Runs.intro (nextAlloc_run s) ⟨rfl, fun hok ha => ?_⟩
  rw [ha.fails] at hok
  cases hok

/-- Opening a tree that is there. -/
lemma TreeView.Ok.open_run {t : TreeView} (h : t.Ok s) : btreeCreate t.root s = .ok (some t.tree, s) := by
  obtain ⟨n, hh⟩ := IsTree.succ h
  have hsub := h.sub
  rw [hh] at hsub
  obtain ⟨node, hb, hok⟩ := hsub.node
  have hown := hsub.owned _ mem_blocks_self
  unfold btreeCreate
  rw [if_pos hown.ne_zero]
  exact run_bind_ok (nodeRead_run hown hb hok.block)

lemma Stored.quiet (h : Stored s o ps) (hst : TreeStep s s' [] []) : Stored s' o ps :=
  h.away hst fun _ _ => not_mem_nil

/-- Reading the inode of an object. -/
lemma inodeRead_spec (h : Stored s o ps) : Runs (inodeRead o.iblock) s fun r s' => Ticked s s' ∧
    (r = some o.inode ∧ s'.allocFails = s.allocFails ∨
      r = none ∧ s.allocFails < s'.allocFails ∧ ¬ s.Ample 0) := by
  unfold inodeRead
  refine Runs.bind (nextAlloc_spec s) ?_
  rintro ok _ ⟨rfl, hok⟩
  cases ok with
  | false => exact Runs.pure ⟨Ticked.tried s false, Or.inr ⟨rfl, Nat.lt_succ_self _, hok rfl⟩⟩
  | true =>
    refine Runs.bind (nextAlloc_spec (s.tried true)) ?_
    rintro ok _ ⟨rfl, hok⟩
    have htick : Ticked s ((s.tried true).tried ok) := (Ticked.tried s true).trans (Ticked.tried _ ok)
    cases ok with
    | false =>
      refine Runs.pure ⟨htick, Or.inr ⟨rfl, Nat.lt_succ_self _, fun ha => hok rfl ?_⟩⟩
      exact (Ticked.tried s true).ample ha
    | true =>
      have hsto := h.quiet htick.step
      refine Runs.get ?_
      rw [hsto.inode]
      have hdata : btreeCreate o.disk.blocksTreeBlock _ = _ := (hsto.tree false).open_run
      have hsum : btreeCreate o.disk.blocksSumTreeBlock _ = _ := (hsto.tree true).open_run
      exact Runs.step hdata (Runs.step hsum (Runs.pure ⟨htick, Or.inl ⟨rfl, rfl⟩⟩))

/-- The object with a given id. -/
lemma SysOk.find_some (h : SysOk s big T os) {b : ℕ} (hf : find T.map id = some b) :
    ∃ o ∈ os, o.ino = id ∧ o.iblock = b := by
  have hmem := (find_eq_some_iff h.tree.sorted).mp hf
  obtain ⟨o, ho, heq⟩ := mem_map.mp (h.map.mem_iff.mp hmem)
  rw [Prod.mk.injEq] at heq
  exact ⟨o, ho, heq.1, heq.2⟩

lemma SysOk.find_obj (h : SysOk s big T os) (ho : o ∈ os) : find T.map o.ino = some o.iblock :=
  (find_eq_some_iff h.tree.sorted).mpr (h.map.mem_iff.mpr (mem_map.mpr ⟨o, ho, rfl⟩))

/-- There is one object with a given id. -/
lemma SysOk.obj_unique (h : SysOk s big T os) {o' : Layout} (ho : o ∈ os) (ho' : o' ∈ os)
    (hino : o'.ino = o.ino) : o' = o := by
  have hib : o'.iblock = o.iblock := by
    have hf := h.find_obj ho'
    rw [hino, h.find_obj ho] at hf
    exact (Option.some.inj hf).symm
  obtain ⟨l₁, l₂, rfl⟩ := append_of_mem ho
  rcases mem_append.mp ho' with hl | hl
  · exact absurd (hib ▸ o'.iblock_mem) (fun hx => h.disjoint (mem_append_left _ hl) o'.iblock_mem
      (hib ▸ o.iblock_mem))
  · rcases mem_cons.mp hl with rfl | hl
    · rfl
    · exact absurd (hib ▸ o.iblock_mem) (h.disjoint (mem_append_right _ hl) o'.iblock_mem)

/-- What the beginning of a request can end in. -/
lemma sbFindInode_spec (h : SysOk s big T os) (id : Key) : Runs (sbFindInode id) s fun r s' =>
    (r = .error .enoent ∧ s' = s ∧ ∀ o ∈ os, o.ino ≠ id) ∨
    (∃ o ∈ os, o.ino = id ∧ Ticked s s' ∧ (r = .ok (o.iblock, o.inode) ∧ s'.allocFails = s.allocFails ∨
        r = .error .eio ∧ s.allocFails < s'.allocFails ∧ ¬ s.Ample 0)) := by
  unfold sbFindInode
  refine Runs.get ?_
  rw [h.running, if_neg Bool.false_ne_true, h.inodesTree]
  have hfind := findKey_run (t := T.tree) rfl h.tree id
  cases hf : find T.map id with
  | none =>
    rw [hf] at hfind
    refine Runs.step hfind (Runs.pure (Or.inl ⟨rfl, rfl, fun o ho hid => ?_⟩))
    rw [← hid, h.find_obj ho] at hf
    cases hf
  | some b =>
    rw [hf] at hfind
    obtain ⟨o, ho, hid, rfl⟩ := h.find_some hf
    refine Runs.step hfind (Runs.bind (inodeRead_spec (h.objs o ho).stored) ?_)
    rintro _ s' ⟨htick, ⟨rfl, hf'⟩ | ⟨rfl, hf', hfull⟩⟩
    · exact Runs.pure (Or.inr ⟨o, ho, hid, htick, Or.inl ⟨rfl, hf'⟩⟩)
    · exact Runs.pure (Or.inr ⟨o, ho, hid, htick, Or.inr ⟨rfl, hf', hfull⟩⟩)

end find

/-! ### Putting and getting -/

/-- The block numbers of the request are below the limit. -/
def PutIn (big : Bool) (off len : ℕ) : Prop :=
  off < 2 ^ 64 ∧ (big = true ∨ off + len ≤ vlim false * blockSize)

/-- Number of pages of a request. Source: `core/upages.c` `nkfs_pages_create` -/
def nrPages (len : ℕ) : ℕ := len / pageSize + if len % pageSize ≠ 0 then 1 else 0

lemma le_nrPages (len : ℕ) : len ≤ nrPages len * pageSize := by
  show len ≤ (len / 4096 + if len % 4096 ≠ 0 then 1 else 0) * 4096
  split_ifs <;> omega

lemma PutIn.chunks {big : Bool} {off len n i : ℕ} (h : PutIn big off len) (hn : len ≤ n * pageSize) :
    ∀ c ∈ pageChunks n off len i, c.vblock < vlim big ∧ c.off + c.len ≤ blockSize := by
  intro c hc
  rcases h.2 with rfl | hsmall
  · exact pageChunks_range h.1 c hc
  · have hlim : off + len ≤ 895 * 8192 * 65536 := hsmall
    obtain ⟨hpos, hblk, -, hend⟩ := (pageChunks_cuts hn h.1 (by omega)).mem c hc
    have hend : c.vblock * 65536 + c.off + c.len ≤ off + len := hend
    refine ⟨?_, hblk⟩
    cases big with
    | true =>
      show c.vblock < 2 ^ 48 + 1
      omega
    | false =>
      show c.vblock < 895 * 8192
      omega

section putget

variable {s s' : Sb} {big : Bool} {T : TreeView} {os : List Layout} {o : Layout} {id : Key}
  {off len n : ℕ} {pages : ℕ → Mem}

/-- What a put on a live object ends in: the pieces were written, or an allocation failed. -/
def PutDone (s : Sb) (big : Bool) (T : TreeView) (os : List Layout) (id : Key) (pages : ℕ → Mem)
    (cs : List Chunk) (r : Except Errno Unit) (s' : Sb) : Prop :=
  ∃ l₁ o l₂ o', os = l₁ ++ o :: l₂ ∧ o.ino = id ∧ ObjStep s s' o o' ∧
    SysOk s' big T (l₁ ++ o' :: l₂) ∧
    ((r = .ok () ∧ s'.allocFails = s.allocFails ∧
        ∃ s₁, Ticked s s₁ ∧ WroteAll big pages s₁ o cs s' o') ∨
      (∃ e, r = .error e ∧ s.allocFails < s'.allocFails ∧ (cs.length = 1 → ¬ s.Ample o.room)))

lemma ObjStep.quiet (h : Stored s o []) (hst : TreeStep s s' [] []) : ObjStep s s' o o where
  stored := h.quiet hst
  step := ⟨[], hst.mono fun _ hx => absurd hx not_mem_nil, List.Perm.refl _⟩
  iblock := rfl
  ino := rfl
  root _ := rfl

/-- **A put** writes its pieces to the object, or finds none with the id, or fails for want of
memory or blocks; the device stays in order. -/
theorem sbPutObj_spec (h : SysOk s big T os) (id : Key) (hin : PutIn big off len)
    (hn : len ≤ n * pageSize) (pages : ℕ → Mem) :
    Ends (sbPutObj id off 0 len pages n) s (fun r s' =>
      (r = .error .enoent ∧ s' = s ∧ ∀ o ∈ os, o.ino ≠ id) ∨
      PutDone s big T os id pages (pageChunks n off len 0) r s') (Late big s.allocFails) := by
  unfold sbPutObj
  refine Ends.bind (sbFindInode_spec h id).ends ?_
  rintro _ s₁ (⟨rfl, rfl, hnone⟩ | ⟨o, ho, hid, htick, ⟨rfl, hf⟩ | ⟨rfl, hf, hfull⟩⟩)
  · exact Runs.ends (Runs.pure (Or.inl ⟨rfl, rfl, hnone⟩))
  · have hsys := h.quiet htick.step
    obtain ⟨l₁, l₂, rfl⟩ := List.append_of_mem ho
    have hobj := hsys.objs o ho
    have hstep₁ := ObjStep.quiet (h.objs o ho).stored htick.step
    show Ends (if o.iblock ≠ o.iblock then _ else _) s₁ _ _
    rw [if_neg (not_not.mpr rfl), ioPages_eq hn]
    refine Ends.bind ((runChunks_write hobj (hin.chunks hn)).mono (fun _ _ h => h)
      (Late.mono hf.ge)) ?_
    rintro _ s' (⟨o', rfl, hw⟩ | ⟨i, e, rfl, -, ⟨o', hstep, hok, hlt⟩, hfull⟩)
    · obtain ⟨hstep, hok, hf'⟩ := hw.ok hobj
      exact Runs.ends (Runs.pure (Or.inr ⟨l₁, o, l₂, o', rfl, hid, hstep₁.trans hstep,
        hsys.step hstep hok, Or.inl ⟨rfl, hf'.trans hf, s₁, htick, hw⟩⟩))
    · exact Runs.ends (Runs.pure (Or.inr ⟨l₁, o, l₂, o', rfl, hid, hstep₁.trans hstep,
        hsys.step hstep hok, Or.inr ⟨e, rfl, hf ▸ hlt, fun hone ha => hfull hone (htick.ample ha)⟩⟩))
  · have hsys := h.quiet htick.step
    obtain ⟨l₁, l₂, rfl⟩ := List.append_of_mem ho
    refine Runs.ends (Runs.pure (Or.inr ⟨l₁, o, l₂, o, rfl, hid,
      ObjStep.quiet (h.objs o ho).stored htick.step, hsys, Or.inr ⟨_, rfl, hf, fun _ ha => hfull ?_⟩⟩))
    exact ha.mono (Nat.zero_le _)

/-- A get changes nothing. -/
lemma sbGetObj_quiet (h : SysOk s big T os) (id : Key) (hoff : off < 2 ^ 64)
    (hn : len ≤ n * pageSize) (pages : ℕ → Mem) :
    Runs (sbGetObj id off 0 len pages n) s fun _ s' => Ticked s s' := by
  unfold sbGetObj
  refine Runs.bind (sbFindInode_spec h id) ?_
  rintro _ s₁ (⟨rfl, rfl, hnone⟩ | ⟨o, ho, hid, htick, ⟨rfl, hf⟩ | ⟨rfl, hf, hfull⟩⟩)
  · exact Runs.pure (Ticked.refl s₁)
  · have hobj := (h.quiet htick.step).objs o ho
    show Runs (if o.iblock ≠ o.iblock then _ else if o.ino ≠ id then _ else _) s₁ _
    rw [if_neg (not_not.mpr rfl), if_neg (not_not.mpr hid), ioPages_eq hn]
    refine Runs.bind (runChunks_read_quiet hobj 0 (pageChunks_range hoff)) ?_
    rintro r _ rfl
    exact Runs.pure htick
  · exact Runs.pure htick

/-- What a get on an object that holds the array `data` returns. -/
def GetDone (size : ℕ) (data : Mem) (off len : ℕ) (pages : ℕ → Mem) (r : (ℕ → Mem) × Except Errno ℕ) :
    Prop :=
  if off ≤ size then r.2 = .ok (min len (size - off)) ∧
    flat r.1 = copyIn (flat pages) 0 (fun i => data (off + i)) (min len (size - off))
  else r = (pages, .error .erange)

/-- The offsets of a get that starts at or below the size stay below `2^64`. -/
structure LastPage (size off len : ℕ) : Prop where
  bound : size < 2 ^ 64
  last : size + pageSize ≤ 2 ^ 64 ∨ off + len < 2 ^ 64
  wrap : off ≤ size → off + len ≤ 2 ^ 64

/-- The read of the pages by a get. -/
lemma ioPages_get (h : ObjOk s big o) {data : Mem} (hheld : HeldIn s o (Asked off len o.size) data)
    (hlast : LastPage o.size off len) (hoff : off < 2 ^ 64) (hpos : off ≤ o.size ∨ 0 < len)
    (hn : len ≤ n * pageSize) (pages : ℕ → Mem) : ∃ i pages' r,
      ioPages false o.inode off 0 len pages n s = .ok ((i, pages', r), s) ∧
        GetDone o.size data off len pages (pages', r) := by
  rw [ioPages_eq hn]
  by_cases hle : off ≤ o.size
  · have hcuts := pageChunks_cuts (i := 0) hn hoff (hlast.wrap hle)
    have hread : ∃ i pages', runChunks false doneIo _ (o.heldInode 0) pages 0 s = .ok ((i, pages', _), s) ∧
        _ := runChunks_readIn h hheld hlast.bound hlast.last 0 hcuts hle
    obtain ⟨i, pages', hrun, hflat⟩ := hread
    refine ⟨i, pages', _, hrun, ?_⟩
    rw [GetDone, if_pos hle]
    rw [zero_mul] at hflat
    exact ⟨by rw [zero_add], hflat⟩
  · -- the first piece already starts behind the end of the object
    have hpos := hpos.resolve_left hle
    have hpages : 0 < n := Nat.pos_of_ne_zero fun hz => by
      rw [hz, zero_mul] at hn
      omega
    obtain ⟨c, cs, hcs, hat⟩ := pageChunks_cons (i := 0) hpages hpos hoff
    have hgt : o.size < u64 (c.vblock * blockSize + c.off) := by
      rw [hat.off_eq, u64, Nat.mod_eq_of_lt hoff]
      omega
    have hrun : readBlockBuf (o.heldInode 0) c.vblock c.off (pages c.page) c.pos c.len s = _ :=
      readBlockBuf_erange hat.block hgt
    refine ⟨o.inode, pages, .error .erange, ?_, ?_⟩
    · rw [hcs]
      have hsame : Function.update pages c.page (pages c.page) = pages := Function.update_eq_self ..
      refine (run_bind_ok hrun).trans ?_
      show Except.ok ((o.inode, Function.update pages c.page (pages c.page), _), s) = _
      rw [hsame]
    · rw [GetDone, if_neg hle]

/-- **A get** returns the bytes of the array that it asks for, or fails for want of memory. -/
theorem sbGetObj_in (h : SysOk s big T os) (ho : o ∈ os) {data : Mem} (hheld : HeldIn s o (Asked off len o.size) data)
    (hlast : LastPage o.size off len) (hoff : off < 2 ^ 64) (hpos : off ≤ o.size ∨ 0 < len)
    (hn : len ≤ n * pageSize) (pages : ℕ → Mem) : Runs (sbGetObj o.ino off 0 len pages n) s fun r s' => Ticked s s' ∧
      (s'.allocFails = s.allocFails ∧ GetDone o.size data off len pages r ∨
        s.allocFails < s'.allocFails ∧ ¬ s.Ample 0) := by
  unfold sbGetObj
  refine Runs.bind (sbFindInode_spec h o.ino) ?_
  rintro _ s₁ (⟨rfl, rfl, hnone⟩ | ⟨o', ho', hid, htick, ⟨rfl, hf⟩ | ⟨rfl, hf, hfull⟩⟩)
  · exact absurd rfl (hnone o ho)
  · obtain rfl := h.obj_unique ho ho' hid
    have hobj := (h.quiet htick.step).objs o' ho
    have hheld' : HeldIn s₁ o' (Asked off len o'.size) data := by
      intro t ht
      rw [htick.clus]
      exact hheld t ht
    obtain ⟨i, pages', r, hrun, hdone⟩ := ioPages_get hobj hheld' hlast hoff hpos hn pages
    show Runs (if o'.iblock ≠ o'.iblock then _ else if o'.ino ≠ o'.ino then _ else _) s₁ _
    rw [if_neg (not_not.mpr rfl), if_neg (not_not.mpr rfl)]
    exact Runs.step hrun (Runs.pure ⟨htick, Or.inl ⟨hf, hdone⟩⟩)
  · exact Runs.pure ⟨htick, Or.inr ⟨hf, hfull⟩⟩

lemma sbGetObj_spec (h : SysOk s big T os) (ho : o ∈ os) {data : Mem} (hheld : Held s o data)
    (hoff : off < 2 ^ 64) (hpos : off ≤ o.size ∨ 0 < len) (hlen : len ≤ 2 ^ 63)
    (hn : len ≤ n * pageSize) (pages : ℕ → Mem) : Runs (sbGetObj o.ino off 0 len pages n) s fun r s' => Ticked s s' ∧
      (s'.allocFails = s.allocFails ∧ GetDone o.size data off len pages r ∨
        s.allocFails < s'.allocFails ∧ ¬ s.Ample 0) := by
  have hsize : o.size < 2 ^ 63 := (hheld.size_le (h.objs o ho).stored h.dev).trans_lt h.dev
  have hlast : LastPage o.size off len :=
    ⟨by omega, .inl (show o.size + 4096 ≤ 2 ^ 64 by omega), fun hle => by omega⟩
  exact sbGetObj_in h ho (fun t ht => hheld t ht.2.2) hlast hoff hpos hn pages

end putget

end Nkfs
