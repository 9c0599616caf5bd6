import Nkfs.Btree.Size
import Nkfs.Btree.Erase
import Nkfs.Core.Inode

/-!
# Objects in the store

An object owns its inode block, the nodes of its two trees, and the blocks that the values of the
trees name. `Layout` says where an object is and what its trees hold; `Stored s o ps` says that the
state `s` holds the object so, with no block used twice, while the blocks `ps` are allocated but not
yet in its trees.

`Work s₀ s o₀ o ps` describes an operation on the object under way: from the layout `o₀` in `s₀` it
came to the layout `o` in `s`, took blocks that were free, and wrote to no allocated block but the
nodes of the object. `Work.tree` is the rule for an operation on one of the trees; allocating a
block puts it in flight (`Work.alloc`), freeing one in flight drops it (`Work.free`).
-/

namespace Nkfs

open Lib.Bytes Lib.Program Lib.Assoc List

/-! ### Layouts -/

/-- A tree as its operations see it. -/
structure TreeView where
  root : ℕ
  height : ℕ
  map : List (Key × ℕ)
  nodes : List ℕ

/-- The state holds the tree. -/
def TreeView.Ok (t : TreeView) (s : Sb) : Prop := IsTree s true t.root t.height t.map t.nodes

/-- The blocks of the tree and those its values name. -/
def TreeView.held (t : TreeView) : List ℕ := t.nodes ++ t.map.map Prod.snd

/-- `struct nkfs_btree` of the tree. -/
def TreeView.tree (t : TreeView) : Tree := ⟨t.root, false⟩

/-- Where an object is, and what its trees hold. -/
structure Layout where
  iblock : ℕ
  ino : Key
  size : ℕ
  data : TreeView
  sum : TreeView

namespace Layout

/-- The inode as it stands on disk. -/
def disk (o : Layout) : InodeDisk := ⟨o.ino, o.size, o.data.root, o.sum.root⟩

/-- The inode as `nkfs_inode_read` fills it. -/
def inode (o : Layout) : Inode := o.disk.toInode o.iblock (some o.data.tree) (some o.sum.tree)

/-- All blocks of the object. -/
def blocks (o : Layout) : List ℕ := o.iblock :: (o.data.held ++ o.sum.held)

/-- The checksum tree or the tree of data blocks. -/
def tree (o : Layout) (isSum : Bool) : TreeView := if isSum then o.sum else o.data

/-- The object with one of its trees changed. -/
def setTree (o : Layout) (isSum : Bool) (t : TreeView) : Layout :=
  if isSum then { o with sum := t } else { o with data := t }

/-- The node blocks of both trees. -/
def nodes (o : Layout) : List ℕ := o.data.nodes ++ o.sum.nodes

/-- Data block of a block number of the object. -/
def block (o : Layout) (v : ℕ) : Option ℕ := find o.data.map (keyByU64 v)

/-- Checksum block of a block number of the checksum table. -/
def sumBlock (o : Layout) (w : ℕ) : Option ℕ := find o.sum.map (keyByU64 w)

variable {o : Layout} {x : ℕ}

lemma iblock_mem : o.iblock ∈ o.blocks := mem_cons_self ..

lemma held_mem {i : Bool} (hx : x ∈ (o.tree i).held) : x ∈ o.blocks := by
  cases i with
  | false => exact mem_cons_of_mem _ (mem_append_left _ hx)
  | true => exact mem_cons_of_mem _ (mem_append_right _ hx)

lemma node_mem {i : Bool} (hx : x ∈ (o.tree i).nodes) : x ∈ o.blocks :=
  held_mem (mem_append_left _ hx)

lemma mem_nodes : x ∈ o.nodes ↔ ∃ i, x ∈ (o.tree i).nodes := by
  rw [nodes, mem_append]
  constructor
  · rintro (hx | hx)
    · exact ⟨false, hx⟩
    · exact ⟨true, hx⟩
  · rintro ⟨_ | _, hx⟩
    · exact Or.inl hx
    · exact Or.inr hx

end Layout

/-- The state holds the object, and the blocks `ps` besides, with no block used twice. -/
structure Stored (s : Sb) (o : Layout) (ps : List ℕ) : Prop where
  inode : s.inodes o.iblock = some o.disk
  tree : ∀ i, (o.tree i).Ok s
  owned : ∀ x ∈ o.blocks ++ ps, s.Owned x
  nodup : (o.blocks ++ ps).Nodup

section stored

variable {s s' : Sb} {o : Layout} {ps bs fresh : List ℕ} {x : ℕ}

lemma Stored.zero (h : Stored s o ps) : s.bm 0 = true := (h.tree false).zero

lemma Stored.owned_block (h : Stored s o ps) (hx : x ∈ o.blocks) : s.Owned x :=
  h.owned x (mem_append_left _ hx)

lemma Stored.nodup_blocks (h : Stored s o ps) : o.blocks.Nodup := (nodup_append.mp h.nodup).1

lemma Stored.iblock_notMem (h : Stored s o ps) {i : Bool} : o.iblock ∉ (o.tree i).held := by
  have hnd := (nodup_cons.mp h.nodup_blocks).1
  rw [mem_append, not_or] at hnd
  cases i with
  | false => exact hnd.1
  | true => exact hnd.2

/-- The two trees share no block. -/
lemma Stored.disjoint (h : Stored s o ps) {i j : Bool} (hij : i ≠ j) (hx : x ∈ (o.tree i).held) :
    x ∉ (o.tree j).held := by
  have hnd := (nodup_append.mp (nodup_cons.mp h.nodup_blocks).2).2.2
  intro hxj
  cases i with
  | false =>
    obtain rfl : j = true := by simpa using hij.symm
    exact hnd x hx x hxj rfl
  | true =>
    obtain rfl : j = false := by simpa using hij.symm
    exact hnd x hxj x hx rfl

lemma Stored.nodup_held (h : Stored s o ps) {i : Bool} : (o.tree i).held.Nodup := by
  have hnd := nodup_append.mp (nodup_cons.mp h.nodup_blocks).2
  cases i with
  | false => exact hnd.1
  | true => exact hnd.2.1

/-- A tree away from the blocks of an operation is left alone. -/
lemma TreeStep.isTree {strict : Bool} {b h : ℕ} {es : List (Key × ℕ)} {ns : List ℕ}
    (hst : TreeStep s s' bs fresh) (ht : IsTree s strict b h es ns) (hdis : ∀ x ∈ ns, x ∉ bs) :
    IsTree s' strict b h es ns := by
  obtain ⟨he, hb, hsub⟩ := hst.subtree ht.sub (by rw [ht.blocks_eq]; exact hdis)
  exact ⟨ht.pos, hsub, he.trans ht.entries_eq, hb.trans ht.blocks_eq, hst.marked ht.zero⟩

/-- Fresh blocks in front of blocks that were in use. -/
lemma TreeStep.nodup_owned (hst : TreeStep s s' bs fresh) {xs : List ℕ} (hnd : xs.Nodup)
    (ho : ∀ x ∈ xs, s.Owned x) : (fresh ++ xs).Nodup := by
  refine List.nodup_append.mpr ⟨hst.nodup, hnd, fun x hx y hy hxy => ?_⟩
  subst hxy
  have hfree := (hst.free x hx).1
  rw [(ho x hy).marked] at hfree
  cases hfree

lemma TreeStep.owned_append (hst : TreeStep s s' bs fresh) (hz : s.bm 0 = true) {xs : List ℕ}
    (ho : ∀ x ∈ xs, s.Owned x) (hx : x ∈ fresh ++ xs) : s'.Owned x := by
  rcases mem_append.mp hx with hx | hx
  · exact hst.owned_fresh hz hx
  · exact hst.owned (ho x hx)

/-- An operation away from the object: its fresh blocks are in flight. -/
lemma Stored.away (h : Stored s o ps) (hst : TreeStep s s' bs fresh) (hdis : ∀ x ∈ o.blocks, x ∉ bs) :
    Stored s' o (fresh ++ ps) := by
  have hperm : (o.blocks ++ (fresh ++ ps)).Perm (fresh ++ (o.blocks ++ ps)) := by
    rw [← append_assoc, ← append_assoc]
    exact perm_append_comm.append_right _
  refine ⟨?_, fun i => hst.isTree (h.tree i) fun x hx => hdis x (o.node_mem hx), fun x hx => ?_, ?_⟩
  · rw [(hst.other _ (h.owned_block o.iblock_mem).marked (hdis _ o.iblock_mem)).2.1, h.inode]
  · exact hst.owned_append h.zero h.owned (hperm.mem_iff.mp hx)
  · exact hperm.nodup_iff.mpr (hst.nodup_owned h.nodup h.owned)

/-- The blocks of an object after one of its trees changed. -/
lemma Layout.blocks_setTree {i : Bool} {t : TreeView} {qs : List ℕ}
    (hperm : (t.held ++ qs).Perm (fresh ++ ((o.tree i).held ++ ps))) :
    ((o.setTree i t).blocks ++ qs).Perm (fresh ++ (o.blocks ++ ps)) := by
  rw [perm_iff_count] at hperm ⊢
  intro x
  have hx := hperm x
  cases i with
  | false =>
    simp only [setTree, tree, blocks, count_append, count_cons, Bool.false_eq_true,
      if_false] at hx ⊢
    omega
  | true =>
    simp only [setTree, tree, blocks, count_append, count_cons, if_true] at hx ⊢
    omega

/-- An operation on one of the trees. -/
lemma Stored.setTree (h : Stored s o ps) {i : Bool} {t : TreeView} {qs : List ℕ}
    (hst : TreeStep s s' (o.tree i).nodes fresh) (ht : t.Ok s') (hroot : t.root = (o.tree i).root)
    (hperm : (t.held ++ qs).Perm (fresh ++ ((o.tree i).held ++ ps))) :
    Stored s' (o.setTree i t) qs := by
  have hperm := Layout.blocks_setTree hperm
  have hib : s'.inodes o.iblock = some o.disk := by
    rw [(hst.other _ (h.owned_block o.iblock_mem).marked
      fun hmem => h.iblock_notMem (mem_append_left _ hmem)).2.1, h.inode]
  have hother : ∀ j, i ≠ j → (o.tree j).Ok s' := fun j hij =>
    hst.isTree (h.tree j) fun x hx hxi =>
      h.disjoint hij (mem_append_left _ hxi) (mem_append_left _ hx)
  refine ⟨?_, ?_, fun x hx => hst.owned_append h.zero h.owned (hperm.mem_iff.mp hx),
    hperm.nodup_iff.mpr (hst.nodup_owned h.nodup h.owned)⟩
  · cases i with
    | false =>
      rw [Layout.setTree, if_neg Bool.false_ne_true, hib, Layout.disk, Layout.disk, hroot]
      rfl
    | true =>
      rw [Layout.setTree, if_pos rfl, hib, Layout.disk, Layout.disk, hroot]
      rfl
  · intro j
    cases i with
    | false =>
      cases j with
      | false => exact ht
      | true => exact hother true (by decide)
    | true =>
      cases j with
      | false => exact hother false (by decide)
      | true => exact ht

end stored

/-! ### Operations under way -/

/-- From layout `o₀` in `s₀` an operation came to layout `o` in `s`, with the blocks `ps` in flight:
it took free blocks, and wrote to no allocated block but nodes of the object. -/
structure Work (s₀ s : Sb) (o₀ o : Layout) (ps : List ℕ) : Prop where
  stored : Stored s o ps
  step : ∃ fresh, TreeStep s₀ s o₀.nodes fresh ∧ (o.blocks ++ ps).Perm (fresh ++ o₀.blocks)
  nodes : ∀ x ∈ o.nodes, s₀.bm x = true → x ∈ o₀.nodes
  new : ∀ x ∈ ps, s₀.bm x = false
  iblock : o.iblock = o₀.iblock
  ino : o.ino = o₀.ino
  size : o.size = o₀.size
  root : ∀ i, (o.tree i).root = (o₀.tree i).root

section work

variable {s₀ s s' : Sb} {o₀ o : Layout} {ps qs bs fresh : List ℕ} {b x : ℕ}

lemma Work.refl (h : Stored s o []) : Work s s o o [] where
  stored := h
  step := ⟨[], TreeStep.refl s _, by simp⟩
  nodes _ hx _ := hx
  new _ hx := absurd hx not_mem_nil
  iblock := rfl
  ino := rfl
  size := rfl
  root _ := rfl

lemma Work.marked (hw : Work s₀ s o₀ o ps) (hx : s₀.bm x = true) : s.bm x = true := by
  obtain ⟨_, hst, -⟩ := hw.step
  exact hst.marked hx

lemma Work.free_before (hw : Work s₀ s o₀ o ps) (hx : s.bm x = false) : s₀.bm x = false := by
  by_contra hne
  rw [hw.marked (by simpa using hne)] at hx
  cases hx

/-- The frame and the blocks taken, after one more step. -/
lemma Work.step_after (hw : Work s₀ s o₀ o ps) (hst : TreeStep s s' bs fresh)
    (hbs : ∀ x ∈ bs, x ∈ o.nodes) {xs : List ℕ} (hperm : xs.Perm (fresh ++ (o.blocks ++ ps))) :
    ∃ fresh, TreeStep s₀ s' o₀.nodes fresh ∧ xs.Perm (fresh ++ o₀.blocks) := by
  obtain ⟨fresh₀, hst₀, hperm₀⟩ := hw.step
  refine ⟨fresh ++ fresh₀, hst₀.trans hst fun x hx => ?_, ?_⟩
  · by_cases hmark : s₀.bm x = true
    · exact Or.inl (hw.nodes x (hbs x hx) hmark)
    · have hown := hw.stored.owned_block (by
        obtain ⟨i, hi⟩ := Layout.mem_nodes.mp (hbs x hx)
        exact o.node_mem hi)
      have hbm := hst₀.bm x
      rw [Bool.not_eq_true] at hmark
      rw [hown.marked, hmark, Bool.false_or] at hbm
      exact Or.inr (of_decide_eq_true hbm.symm)
  · rw [append_assoc]
    exact hperm.trans (hperm₀.append_left _)

/-- A step that touches nothing of the object; its fresh blocks are in flight. -/
lemma Work.away (hw : Work s₀ s o₀ o ps) (hst : TreeStep s s' [] fresh) : Work s₀ s' o₀ o (fresh ++ ps) where
  stored := hw.stored.away hst fun _ _ => not_mem_nil
  step := hw.step_after hst (fun _ hx => absurd hx not_mem_nil) (by
    rw [← append_assoc, ← append_assoc]
    exact perm_append_comm.append_right _)
  nodes := hw.nodes
  new x hx := by
    rcases mem_append.mp hx with hx | hx
    · exact hw.free_before (hst.free x hx).1
    · exact hw.new x hx
  iblock := hw.iblock
  ino := hw.ino
  size := hw.size
  root := hw.root

/-- An operation on one of the trees. -/
lemma Work.tree (hw : Work s₀ s o₀ o ps) {i : Bool} {t : TreeView}
    (hst : TreeStep s s' (o.tree i).nodes fresh) (ht : t.Ok s') (hroot : t.root = (o.tree i).root)
    (hnodes : t.nodes.Perm (fresh ++ (o.tree i).nodes))
    (hperm : (t.map.map Prod.snd ++ qs).Perm ((o.tree i).map.map Prod.snd ++ ps))
    (hnew : ∀ x ∈ qs, s₀.bm x = false) : Work s₀ s' o₀ (o.setTree i t) qs := by
  have hheld : (t.held ++ qs).Perm (fresh ++ ((o.tree i).held ++ ps)) := by
    have happ := hnodes.append hperm
    rw [append_assoc] at happ
    rw [TreeView.held, TreeView.held, append_assoc, append_assoc]
    exact happ
  refine ⟨hw.stored.setTree hst ht hroot hheld,
    hw.step_after hst (fun x hx => Layout.mem_nodes.mpr ⟨i, hx⟩) (Layout.blocks_setTree hheld),
    fun x hx hmark => ?_, hnew, ?_, ?_, ?_, fun j => ?_⟩
  · have hmem : x ∈ t.nodes ∨ x ∈ o.nodes := by
      obtain ⟨j, hj⟩ := Layout.mem_nodes.mp hx
      cases i <;> cases j
      · exact Or.inl hj
      · exact Or.inr (Layout.mem_nodes.mpr ⟨true, hj⟩)
      · exact Or.inr (Layout.mem_nodes.mpr ⟨false, hj⟩)
      · exact Or.inl hj
    rcases hmem with hx | hx
    · rcases mem_append.mp (hnodes.mem_iff.mp hx) with hx | hx
      · rw [hw.free_before (hst.free x hx).1] at hmark
        cases hmark
      · exact hw.nodes x (Layout.mem_nodes.mpr ⟨i, hx⟩) hmark
    · exact hw.nodes x hx hmark
  · cases i <;> exact hw.iblock
  · cases i <;> exact hw.ino
  · cases i <;> exact hw.size
  · rw [← hw.root j]
    cases i <;> cases j
    · exact hroot
    · rfl
    · rfl
    · exact hroot

/-- A block in flight is given back. -/
lemma Work.free (hw : Work s₀ s o₀ o (b :: ps)) :
    blockFree b s = .ok (.ok (), s.mark b false) ∧ Work s₀ (s.mark b false) o₀ o ps := by
  have hmid : (o.blocks ++ b :: ps).Perm (b :: (o.blocks ++ ps)) := perm_middle
  have hnd := hmid.nodup_iff.mp hw.stored.nodup
  rw [nodup_cons] at hnd
  have hown := hw.stored.owned b (mem_append_right _ (mem_cons_self ..))
  have hst := FreeStep.mark s b
  have hne : ∀ x ∈ o.blocks ++ ps, x ∉ [b] := fun x hx hxb => by
    rw [mem_singleton] at hxb
    exact hnd.1 (hxb ▸ hx)
  refine ⟨blockFree_run hown.lt hown.marked, ⟨?_, ?_, ?_, ?_⟩, ?_, hw.nodes, ?_, hw.iblock, hw.ino,
    hw.size, hw.root⟩
  · exact hw.stored.inode
  · exact fun i => hst.isTree (hw.stored.tree i) (fun x hx => hne x (mem_append_left _ (o.node_mem hx)))
      fun hz => hown.ne_zero (mem_singleton.mp hz).symm
  · exact fun x hx => hst.owned (hw.stored.owned x (hmid.mem_iff.mpr (mem_cons_of_mem _ hx))) (hne x hx)
  · exact hnd.2
  · obtain ⟨fresh, hst₀, hperm⟩ := hw.step
    have hfree := hw.new b (mem_cons_self ..)
    have hb : b ∈ fresh := by
      have hbm := hst₀.bm b
      rw [hown.marked, hfree, Bool.false_or] at hbm
      exact of_decide_eq_true hbm.symm
    refine ⟨fresh.erase b, ⟨hst₀.env, hst₀.inodesTree, hst₀.stopping, fun x => ?_, ?_,
      hst₀.nodup.erase b, fun x hx => hst₀.free x (mem_of_mem_erase hx), hst₀.other,
      hst₀.fails⟩, ?_⟩
    · rw [hst.bm, hst₀.bm]
      by_cases hx : x = b
      · simp [hx, hfree, hst₀.nodup.mem_erase_iff]
      · simp [hx, hst₀.nodup.mem_erase_iff]
    · rw [hst.used, hst₀.used, length_erase_of_mem hb]
      have := length_pos_of_mem hb
      simp only [length_cons, length_nil]
      omega
    · refine (perm_cons b).mp (hmid.symm.trans (hperm.trans ?_))
      exact (perm_cons_erase hb).append_right _
  · exact fun x hx => hw.new x (mem_cons_of_mem _ hx)

/-- All that an allocation can do: put a free block in flight, or fail. -/
lemma Work.alloc (hw : Work s₀ s o₀ o ps) : Runs blockAlloc s fun r s' =>
    (∃ b, r = .ok b ∧ TreeStep s s' [] [b] ∧ Work s₀ s' o₀ o (b :: ps) ∧ s'.allocFails = s.allocFails) ∨
    (∃ e, r = .error e ∧ Work s₀ s' o₀ o ps ∧ s.allocFails < s'.allocFails ∧ ¬ s.Ample 1) := by
  refine (blockAlloc_spec s).mono ?_
  rintro _ _ (⟨b, rfl, hbm, hlt, rfl⟩ | ⟨rfl, rfl, hfull⟩)
  · have hst : TreeStep s ((s.tried true).mark b true) [] [b] :=
      (TreeStep.tried s true).trans (TreeStep.mark hbm hlt) fun x hx => Or.inl hx
    exact Or.inl ⟨b, rfl, hst, hw.away hst, rfl⟩
  · exact Or.inr ⟨_, rfl, hw.away (TreeStep.tried s false), Nat.lt_succ_self _, hfull⟩

/-- Inserting a new key whose value is a block in flight. -/
lemma Work.insert (hw : Work s₀ s o₀ o (b :: ps)) (i : Bool) {k : Key} (hk : find (o.tree i).map k = none) :
    Runs (insertKey (o.tree i).tree k b false) s fun r s' =>
      (r = .ok () ∧ s'.allocFails = s.allocFails ∧ ∃ t fresh, t.map = put k b (o.tree i).map ∧
        TreeStep s s' (o.tree i).nodes fresh ∧ fresh.length ≤ (o.tree i).map.length + 1 ∧
        Work s₀ s' o₀ (o.setTree i t) ps) ∨
      (∃ e, r = .error e ∧ s.allocFails < s'.allocFails ∧ ¬ s.Ample ((o.tree i).height + 2) ∧
        ∃ t, t.map = (o.tree i).map ∧ Work s₀ s' o₀ (o.setTree i t) (b :: ps)) := by
  have ht : IsTree s true (o.tree i).tree.root (o.tree i).height (o.tree i).map (o.tree i).nodes :=
    hw.stored.tree i
  refine (insertKey_spec rfl ht k b false).mono ?_
  rintro r s' ⟨h', es', bs', fresh, ht', hst, hperm, hins, hroom⟩
  cases r with
  | ok _ =>
    obtain ⟨rfl, -, hf⟩ := hins
    have hput := put_perm_of_find_none (v := b) hk
    refine Or.inl ⟨rfl, hf, ⟨(o.tree i).root, h', put k b (o.tree i).map, bs'⟩, fresh, rfl, hst, ?_, ?_⟩
    · have hlen := ht'.blocks_length_le
      rw [hput.length_eq, hperm.length_eq, length_append, length_cons] at hlen
      have hpos : 0 < (o.tree i).nodes.length := by
        obtain ⟨h, hh⟩ := ht.succ
        rw [← ht.blocks_eq, hh]
        exact length_pos_of_mem mem_blocks_self
      omega
    · refine hw.tree hst ht' rfl hperm ?_ fun x hx => hw.new x (mem_cons_of_mem _ hx)
      refine ((hput.map Prod.snd).append_right ps).trans ?_
      exact perm_middle.symm
  | error e =>
    obtain ⟨rfl, ⟨-, -, hne, -⟩ | ⟨-, hf⟩⟩ := hins
    · exact absurd hk hne
    · refine Or.inr ⟨e, rfl, hf, fun hample => hf.ne' (hroom hample),
        ⟨(o.tree i).root, h', (o.tree i).map, bs'⟩, rfl, ?_⟩
      exact hw.tree hst ht' rfl hperm (List.Perm.refl _) hw.new

/-- Deleting a key puts the block it named in flight, if that block was free at the start. -/
lemma Work.delete (hw : Work s₀ s o₀ o ps) (i : Bool) {k : Key}
    (hk : find (o.tree i).map k = some b) (hnew : s₀.bm b = false)
    (hroomy : Roomy s.nodes k ((o.tree i).height - 1) (o.tree i).root) :
    Runs (deleteKey (o.tree i).tree k) s fun _ s' => s'.allocFails = s.allocFails ∧
      ∃ t, t.map = del k (o.tree i).map ∧ Work s₀ s' o₀ (o.setTree i t) (b :: ps) := by
  have ht : IsTree s true (o.tree i).tree.root (o.tree i).height (o.tree i).map (o.tree i).nodes :=
    hw.stored.tree i
  refine (deleteKey_roomy rfl ht k hroomy).mono ?_
  rintro _ s' ⟨-, hst, hf, bs', ht', hperm⟩
  refine ⟨hf, ⟨(o.tree i).root, (o.tree i).height, del k (o.tree i).map, bs'⟩, rfl,
    hw.tree hst ht' rfl hperm ?_ fun x hx => ?_⟩
  · have hdel := perm_del_of_find_some ((hw.stored.tree i).sub.sorted) (by
      rw [(hw.stored.tree i).entries_eq]
      exact hk)
    rw [(hw.stored.tree i).entries_eq] at hdel
    refine perm_middle.trans ?_
    exact ((hdel.map Prod.snd).append_right ps).symm
  · rcases mem_cons.mp hx with rfl | hx
    · exact hnew
    · exact hw.new x hx

end work

end Nkfs
