import Nkfs.Btree.Insert

/-!
# Erasing a tree

`nkfs_btree_erase` gives back the block of every node and calls back with every pair; the callback
of the inode code gives back the block that the pair's value names. `FreeStep` says what giving back
a list of blocks does to the state. `btreeErase_run` is the result: erasing a tree whose nodes and
values are distinct allocated blocks gives back each of them once, and nothing else.
-/

namespace Nkfs

open Lib.Program Lib.Slots List

/-! ### Giving back blocks -/

/-- From `s` to `s'` the blocks `xs` were given back; the nodes in memory changed on them only. -/
structure FreeStep (s s' : Sb) (xs : List ℕ) : Prop where
  env : s'.env = s.env
  inodesTree : s'.inodesTree = s.inodesTree
  stopping : s'.stopping = s.stopping
  tick : s'.tick = s.tick
  allocFails : s'.allocFails = s.allocFails
  inodes : s'.inodes = s.inodes
  clus : s'.clus = s.clus
  bm : ∀ x, s'.bm x = (s.bm x && decide (x ∉ xs))
  used : s'.usedBlocks = s.usedBlocks - xs.length
  nodes : ∀ x, x ∉ xs → s'.nodes x = s.nodes x

section step

variable {s s₁ s' : Sb} {xs ys : List ℕ} {b : ℕ}

lemma FreeStep.refl (s : Sb) : FreeStep s s [] where
  env := rfl
  inodesTree := rfl
  stopping := rfl
  tick := rfl
  allocFails := rfl
  inodes := rfl
  clus := rfl
  bm x := by simp
  used := by simp
  nodes _ _ := rfl

lemma FreeStep.trans (h₁ : FreeStep s s₁ xs) (h₂ : FreeStep s₁ s' ys) : FreeStep s s' (xs ++ ys) where
  env := h₂.env.trans h₁.env
  inodesTree := h₂.inodesTree.trans h₁.inodesTree
  stopping := h₂.stopping.trans h₁.stopping
  tick := h₂.tick.trans h₁.tick
  allocFails := h₂.allocFails.trans h₁.allocFails
  inodes := h₂.inodes.trans h₁.inodes
  clus := h₂.clus.trans h₁.clus
  bm x := by
    rw [h₂.bm, h₁.bm, Bool.and_assoc, ← Bool.decide_and]
    simp only [mem_append, not_or]
  used := by
    rw [h₂.used, h₁.used, length_append]
    push_cast
    ring
  nodes x hx := by
    rw [mem_append, not_or] at hx
    rw [h₂.nodes x hx.2, h₁.nodes x hx.1]

lemma FreeStep.perm (hst : FreeStep s s' xs) (hp : xs.Perm ys) : FreeStep s s' ys where
  env := hst.env
  inodesTree := hst.inodesTree
  stopping := hst.stopping
  tick := hst.tick
  allocFails := hst.allocFails
  inodes := hst.inodes
  clus := hst.clus
  bm x := by simp only [hst.bm x, hp.mem_iff]
  used := by rw [hst.used, hp.length_eq]
  nodes x hx := hst.nodes x (hp.mem_iff.not.mpr hx)

lemma FreeStep.mark (s : Sb) (b : ℕ) : FreeStep s (s.mark b false) [b] where
  env := rfl
  inodesTree := rfl
  stopping := rfl
  tick := rfl
  allocFails := rfl
  inodes := rfl
  clus := rfl
  bm x := by
    show Function.update s.bm b false x = _
    by_cases hx : x = b
    · simp [hx]
    · simp [hx]
  used := by simp [Sb.mark]
  nodes _ _ := rfl

lemma FreeStep.dropNode (s : Sb) (n : Node) : FreeStep s (s.dropNode n) [n.block] :=
  { FreeStep.mark s n.block with
    nodes := fun _ hx => Function.update_of_ne (ne_of_not_mem_cons hx) _ _ }

/-- What was not given back is still owned. -/
lemma FreeStep.owned (hst : FreeStep s s' xs) (ho : s.Owned b) (hb : b ∉ xs) : s'.Owned b where
  marked := by rw [hst.bm, ho.marked, decide_eq_true hb, Bool.and_self]
  ne_zero := ho.ne_zero
  lt := by rw [hst.env]; exact ho.lt

/-- A subtree none of whose blocks was given back is as it was. -/
lemma FreeStep.subtree {lo h : ℕ} (hst : FreeStep s s' xs) (ht : Sub s lo h b)
    (hx : ∀ x ∈ blocks s.nodes h b, x ∉ xs) :
    Sub s' lo h b ∧ entries s'.nodes h b = entries s.nodes h b ∧
      blocks s'.nodes h b = blocks s.nodes h b := by
  have hagree : ∀ x ∈ blocks s.nodes h b, s'.nodes x = s.nodes x := fun x hxb =>
    hst.nodes x (hx x hxb)
  obtain ⟨hes, hbs, hshape⟩ := subtree_congr hagree
  refine ⟨⟨hshape lo ht.shape, ?_, ?_, ?_⟩, hes, hbs⟩
  · rw [hes]
    exact ht.sorted
  · rw [hbs]
    exact ht.nodup
  · rw [hbs]
    exact fun x hxb => hst.owned (ht.owned x hxb) (hx x hxb)

lemma FreeStep.isTree {strict : Bool} {h : ℕ} {es : List (Key × ℕ)} {bs : List ℕ}
    (hst : FreeStep s s' xs) (ht : IsTree s strict b h es bs) (hx : ∀ x ∈ bs, x ∉ xs)
    (hz : 0 ∉ xs) : IsTree s' strict b h es bs := by
  obtain ⟨hsub, hes, hbs⟩ := hst.subtree ht.sub (by rw [ht.blocks_eq]; exact hx)
  refine ⟨ht.pos, hsub, hes.trans ht.entries_eq, hbs.trans ht.blocks_eq, ?_⟩
  rw [hst.bm, ht.zero, decide_eq_true hz, Bool.and_self]

end step

/-! ### Erasing a subtree -/

/-- The blocks of the subtree of height `h` at `b` and the blocks that its values name. -/
def held (nodes : ℕ → Option Node) (h b : ℕ) : List ℕ :=
  blocks nodes h b ++ (entries nodes h b).map Prod.snd

/-- The blocks of the subtree of height `h` at `b` and the blocks that a callback gives back for its pairs. -/
def heldBy (gives : Key × ℕ → List ℕ) (nodes : ℕ → Option Node) (h b : ℕ) : List ℕ :=
  blocks nodes h b ++ (entries nodes h b).flatMap gives

lemma held_eq (nodes : ℕ → Option Node) (h b : ℕ) : held nodes h b = heldBy (fun x => [x.2]) nodes h b := by
  rw [held, heldBy, map_eq_flatMap]

/-- What a node and its children hold, in the order of the walk. -/
lemma heldBy_succ {gives : Key × ℕ → List ℕ} {nodes : ℕ → Option Node} {h b : ℕ} {n : Node}
    (hb : nodes b = some n) :
    ((range (n.nrKeys + 1)).flatMap (fun i => heldBy gives nodes h (n.child i)) ++
      (range n.nrKeys).flatMap (fun i => gives (n.kv i)) ++ [b]).Perm (heldBy gives nodes (h + 1) b) := by
  have hbs := inorder_perm (fun i => blocks nodes h (n.child i)) (fun _ => []) n.nrKeys
  have hes := (inorder_perm (fun i => entries nodes h (n.child i)) n.sep n.nrKeys).flatMap_right gives
  rw [flatMap_append, flatMap_assoc, flatMap_assoc] at hes
  rw [heldBy, blocks_succ hb, entries_succ hb]
  have hchild := flatMap_append_perm (range (n.nrKeys + 1))
    (fun i => blocks nodes h (n.child i)) (fun i => (entries nodes h (n.child i)).flatMap gives)
  have hnil : (range n.nrKeys).flatMap (fun _ => ([] : List ℕ)) = [] := by simp
  have hone : (range n.nrKeys).flatMap (fun i => (n.sep i).flatMap gives) =
      (range n.nrKeys).flatMap (fun i => gives (n.kv i)) := by simp
  rw [hnil, append_nil] at hbs
  rw [hone] at hes
  -- what the children's pairs give back goes over to the node's own
  have hmove : ((range (n.nrKeys + 1)).flatMap (fun i => heldBy gives nodes h (n.child i)) ++
      (range n.nrKeys).flatMap (fun i => gives (n.kv i))).Perm
      ((range (n.nrKeys + 1)).flatMap (fun i => blocks nodes h (n.child i)) ++
        ((range (n.nrKeys + 1)).flatMap (fun i => (entries nodes h (n.child i)).flatMap gives) ++
          (range n.nrKeys).flatMap (fun i => gives (n.kv i)))) := by
    rw [← append_assoc]
    exact hchild.symm.append_right _
  refine perm_append_comm.trans (List.Perm.cons b (hmove.trans ?_))
  exact hbs.symm.append hes.symm

lemma held_succ {nodes : ℕ → Option Node} {h b : ℕ} {n : Node} (hb : nodes b = some n) :
    ((range (n.nrKeys + 1)).flatMap (fun i => held nodes h (n.child i)) ++
      (range n.nrKeys).flatMap (fun i => [(n.kv i).2]) ++ [b]).Perm (held nodes (h + 1) b) := by
  simp only [held_eq]
  exact heldBy_succ hb

lemma mem_heldBy_child {gives : Key × ℕ → List ℕ} {nodes : ℕ → Option Node} {h b i x : ℕ} {n : Node}
    (hb : nodes b = some n) (hi : i ≤ n.nrKeys) (hx : x ∈ heldBy gives nodes h (n.child i)) :
    x ∈ heldBy gives nodes (h + 1) b := by
  refine (heldBy_succ hb).mem_iff.mp (mem_append_left _ (mem_append_left _ ?_))
  exact mem_flatMap.mpr ⟨i, mem_range.mpr (Nat.lt_succ_of_le hi), hx⟩

lemma mem_held_child {nodes : ℕ → Option Node} {h b i x : ℕ} {n : Node} (hb : nodes b = some n)
    (hi : i ≤ n.nrKeys) (hx : x ∈ held nodes h (n.child i)) : x ∈ held nodes (h + 1) b := by
  rw [held_eq] at hx ⊢
  exact mem_heldBy_child hb hi hx

section erase

variable {s : Sb}

/-- The callback on one pair of a node. -/
lemma eraseKey_run {n : Node} {i : ℕ} (hi : i < keySlots) (ho : s.Owned (n.kv i).2) : Runs (do
      let key ← nodeKey n i
      let value ← nodeValue n i
      inodeBlockErase key value : M Unit) s fun _ s' => FreeStep s s' [(n.kv i).2] := by
  refine Runs.liftExcept (nodeKey_eq hi) (Runs.liftExcept (if_pos (hi.trans (by decide))) ?_)
  refine Runs.step (blockFree_run ho.lt ho.marked) (Runs.pure ?_)
  exact FreeStep.mark s _

/-- Erasing a subtree gives back its blocks and the blocks its values name. -/
lemma eraseNode_run : ∀ {h fuel lo b : ℕ} {n : Node} {s : Sb}, Sub s lo (h + 1) b →
    s.nodes b = some n → h < fuel → (h = 0 ∨ 0 < lo) → (held s.nodes (h + 1) b).Nodup →
    (∀ x ∈ held s.nodes (h + 1) b, s.Owned x) →
    Runs (eraseNode inodeBlockErase fuel n) s fun _ s' =>
      FreeStep s s' (held s.nodes (h + 1) b)
  | _, 0, _, _, _, _, _, _, hf, _, _, _ => absurd hf (Nat.not_lt_zero _)
  | h, fuel + 1, lo, b, n, s, ht, hb, hf, hlo, hnd, ho => by
    have hok := ht.nodeOk hb
    have hperm := held_succ (h := h) hb
    have hnd' := hperm.nodup_iff.mpr hnd
    -- first the children, if there are any
    unfold eraseNode
    refine Runs.bind (R := fun _ s' => FreeStep s s' ([] ++ (range (n.nrKeys + 1)).flatMap
      fun i => held s.nodes h (n.child i))) ?_ ?_
    · cases h with
      | zero =>
        have hleaf : n.leaf = true := hok.leaf
        rw [hleaf, Bool.not_true, Bool.and_false]
        have hnil : (range (n.nrKeys + 1)).flatMap (fun i => held s.nodes 0 (n.child i)) =
            [] := flatMap_eq_nil_iff.mpr fun _ _ => rfl
        rw [hnil]
        exact Runs.pure (FreeStep.refl s)
      | succ h =>
        have hleaf : n.leaf = false := hok.leaf
        have hpos : n.nrKeys ≠ 0 := by
          have := hok.lo_le
          omega
        rw [hleaf, decide_eq_true hpos]
        refine runs_forM FreeStep.trans (FreeStep.refl s) ?_ ?_
        · exact (nodup_append.mp (nodup_append.mp hnd').1).1
        intro i hi s₁ xs hst hnew
        have hi : i ≤ n.nrKeys := Nat.lt_succ_iff.mp (mem_range.mp hi)
        have hc := ht.child hb hi
        obtain ⟨hc₁, hes₁, hbs₁⟩ := hst.subtree hc fun x hx =>
          hnew x (mem_append_left _ hx)
        have hheld : held s₁.nodes (h + 1) (n.child i) = held s.nodes (h + 1) (n.child i) := by
          rw [held, held, hes₁, hbs₁]
        obtain ⟨c, hcn, hcok⟩ := hc₁.node
        have hown : s₁.Owned (n.child i) := hc₁.owned _ mem_blocks_self
        refine Runs.liftExcept (getChildVal_eq hok.pages
          ((Nat.lt_succ_of_le hi).trans hok.nrKeys_lt_childSlots)) ?_
        refine Runs.step (nodeRead_run hown hcn hcok.block) ?_
        rw [← hheld]
        have hsub : ∀ x ∈ held s₁.nodes (h + 1) (n.child i), x ∈ held s.nodes (h + 1 + 1) b := by
          rw [hheld]
          exact fun x hx => mem_held_child hb hi hx
        refine eraseNode_run hc₁ hcn (by omega) (Or.inr (by decide)) ?_ ?_
        · rw [hheld]
          exact ((nodup_flatMap.mp (nodup_append.mp
            (nodup_append.mp hnd').1).1).1 i (mem_range.mpr (Nat.lt_succ_of_le hi)))
        · intro x hx
          exact hst.owned (ho x (hsub x hx)) (hnew x (hheld ▸ hx))
    intro _ s₁ hst₁
    rw [nil_append] at hst₁
    -- then the pairs of the node
    refine Runs.bind (runs_forM FreeStep.trans hst₁ (nodup_append.mp hnd').1 ?_) ?_
    · intro i hi s₂ xs hst₂ hnew
      have hi := mem_range.mp hi
      refine eraseKey_run (hi.trans hok.nrKeys_lt_keySlots) ?_
      refine hst₂.owned (ho _ (hperm.mem_iff.mp ?_)) (hnew _ (mem_singleton_self _))
      refine mem_append_left _ (mem_append_right _ ?_)
      exact mem_flatMap.mpr ⟨i, mem_range.mpr hi, mem_singleton_self _⟩
    · intro _ s₂ hst₂
      -- and last the node
      have hbx : b ∉ _ := fun hx => (nodup_append.mp hnd').2.2 b hx b
        (mem_singleton_self _) rfl
      have hown := hst₂.owned (ht.owned b mem_blocks_self) hbx
      rw [← hok.block] at hown
      refine Runs.step (nodeDelete_run hown.lt hown.marked) (Runs.pure ?_)
      have hst₃ := hst₂.trans (FreeStep.dropNode s₂ n)
      rw [hok.block] at hst₃
      exact hst₃.perm hperm

/-- Erasing a tree gives back each of its blocks and each block that a value names. -/
lemma btreeErase_run {t : Tree} {h : ℕ} {es : List (Key × ℕ)} {bs : List ℕ}
    (ht : IsTree s true t.root h es bs) (hnd : (bs ++ es.map Prod.snd).Nodup)
    (ho : ∀ x ∈ bs ++ es.map Prod.snd, s.Owned x) :
    Runs (btreeErase t inodeBlockErase) s fun t' s' =>
      t' = { t with releasing := true } ∧ FreeStep s s' (bs ++ es.map Prod.snd) := by
  obtain ⟨h, rfl⟩ := Nat.exists_eq_succ_of_ne_zero ht.pos.ne'
  obtain ⟨n, hb, hok⟩ := ht.sub.node
  have hheld : held s.nodes (h + 1) t.root = bs ++ es.map Prod.snd := by
    rw [held, ht.entries_eq, ht.blocks_eq]
  rw [← hheld] at hnd ho ⊢
  unfold btreeErase
  refine Runs.get (Runs.step (treeRoot_run hb) ?_)
  have hheight := ht.sub.height_le
  refine Runs.bind (eraseNode_run ht.sub hb ?_ ?_ hnd ho) ?_
  · show h < 2 * s.env.nrBlocks + 2
    omega
  · cases h with
    | zero => exact Or.inl rfl
    | succ h => exact Or.inr (by simp [rootLo])
  · exact fun _ s' hst => Runs.pure ⟨rfl, hst⟩

end erase

end Nkfs
