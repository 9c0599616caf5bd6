import Nkfs.Btree.Ops
import Nkfs.Lib.Assoc

/-!
# Trees in the store

A tree is given by the block of its root and its height. `entries` reads its pairs from left to
right and `blocks` lists the blocks of its nodes; a leaf is a node whose children have height 0 and
hold nothing, so leaves and interior nodes have one equation (`entries_succ`, `blocks_succ`).

`Shape` is the part of the B-tree invariant about single nodes (occupancy, leaves at one depth),
`Sub` adds what concerns a whole subtree: increasing keys, no block used twice, every block
allocated. `IsTree` is the invariant of a tree.

A subtree depends on its own blocks only (`subtree_congr`), which is
the frame rule of all operations: an operation that works on the subtree of one child leaves the
others alone, and `Sub.replaceChild` puts the parent together again.
-/

namespace Nkfs

open Lib.Slots Lib.Assoc List

/-! ### Reading a tree -/

/-- The separators of a node's in-order reading. -/
abbrev Node.sep (n : Node) : ℕ → List (Key × ℕ) := fun i => [n.kv i]

/-- The pairs of the tree of height `h` at a block, in order. -/
def entries (nodes : ℕ → Option Node) : ℕ → ℕ → List (Key × ℕ)
  | 0, _ => []
  | h + 1, b =>
    match nodes b with
    | none => []
    | some n => inorder (fun i => entries nodes h (n.child i)) n.sep n.nrKeys

/-- The blocks of the tree of height `h` at a block. -/
def blocks (nodes : ℕ → Option Node) : ℕ → ℕ → List ℕ
  | 0, _ => []
  | h + 1, b =>
    b :: match nodes b with
      | none => []
      | some n => inorder (fun i => blocks nodes h (n.child i)) (fun _ => []) n.nrKeys

/-- What a tree asks of a node at block `b` with `h` levels below it and at least `lo` keys. -/
structure NodeOk (n : Node) (lo h b : ℕ) : Prop where
  block : n.block = b
  pages : n.AllPages
  lo_le : lo ≤ n.nrKeys
  le : n.nrKeys ≤ 2 * btreeT - 1
  leaf : n.leaf = decide (h = 0)

/-- Every node is in order, all leaves are at depth `h`, and all nodes but the first have at least
`T - 1` keys. -/
def Shape (nodes : ℕ → Option Node) : ℕ → ℕ → ℕ → Prop
  | _, 0, _ => True
  | lo, h + 1, b => ∃ n, nodes b = some n ∧ NodeOk n lo h b ∧
      ∀ i ≤ n.nrKeys, Shape nodes (btreeT - 1) h (n.child i)

section reading

variable {nodes nodes' : ℕ → Option Node} {n : Node} {lo h b i : ℕ}

lemma entries_succ (hb : nodes b = some n) : entries nodes (h + 1) b =
    inorder (fun i => entries nodes h (n.child i)) n.sep n.nrKeys := by
  rw [entries, hb]

lemma blocks_succ (hb : nodes b = some n) : blocks nodes (h + 1) b =
    b :: inorder (fun i => blocks nodes h (n.child i)) (fun _ => []) n.nrKeys := by
  rw [blocks, hb]

lemma mem_blocks_self : b ∈ blocks nodes (h + 1) b := mem_cons_self ..

lemma mem_blocks_child (hb : nodes b = some n) (hi : i ≤ n.nrKeys) {x : ℕ}
    (hx : x ∈ blocks nodes h (n.child i)) : x ∈ blocks nodes (h + 1) b := by
  rw [blocks_succ hb]
  exact mem_cons_of_mem _ (mem_inorder.mpr (Or.inl ⟨i, hi, hx⟩))

/-- A subtree is determined by what its own blocks hold. -/
lemma subtree_congr : ∀ {h b : ℕ}, (∀ x ∈ blocks nodes h b, nodes' x = nodes x) →
    entries nodes' h b = entries nodes h b ∧ blocks nodes' h b = blocks nodes h b ∧
      ∀ lo, Shape nodes lo h b → Shape nodes' lo h b
  | 0, _, _ => ⟨rfl, rfl, fun _ _ => trivial⟩
  | h + 1, b, hx => by
    have hb' : nodes' b = nodes b := hx b mem_blocks_self
    cases hb : nodes b with
    | none =>
      rw [hb] at hb'
      refine ⟨?_, ?_, fun lo => ?_⟩
      · rw [entries, entries, hb, hb']
      · rw [blocks, blocks, hb, hb']
      · rintro ⟨n, hn, -⟩
        rw [hb] at hn
        cases hn
    | some n =>
      rw [hb] at hb'
      have ih : ∀ i ≤ n.nrKeys, _ := fun i hi =>
        subtree_congr (h := h) (b := n.child i) fun x hxi => hx x (mem_blocks_child hb hi hxi)
      refine ⟨?_, ?_, fun lo => ?_⟩
      · rw [entries_succ hb, entries_succ hb']
        exact inorder_congr (fun i hi => (ih i hi).1) fun _ _ => rfl
      · rw [blocks_succ hb, blocks_succ hb']
        exact congrArg _ (inorder_congr (fun i hi => (ih i hi).2.1) fun _ _ => rfl)
      · rintro ⟨n', hn', hok, hkids⟩
        rw [hb, Option.some.injEq] at hn'
        subst hn'
        exact ⟨n, hb', hok, fun i hi => (ih i hi).2.2 _ (hkids i hi)⟩

end reading

/-! ### Subtrees -/

/-- The block can belong to a tree: it is on the device, is not block 0 and is allocated. -/
structure Sb.Owned (s : Sb) (b : ℕ) : Prop where
  marked : s.bm b = true
  ne_zero : b ≠ 0
  lt : b < s.env.nrBlocks

/-- A subtree of height `h` at block `b` whose first node has at least `lo` keys. -/
structure Sub (s : Sb) (lo h b : ℕ) : Prop where
  shape : Shape s.nodes lo h b
  sorted : Sorted (entries s.nodes h b)
  nodup : (blocks s.nodes h b).Nodup
  owned : ∀ x ∈ blocks s.nodes h b, s.Owned x

section sub

variable {s s' : Sb} {n : Node} {lo h b i j : ℕ} {k : Key}

/-- The node at the top of a subtree. -/
lemma Sub.node (ht : Sub s lo (h + 1) b) : ∃ n, s.nodes b = some n ∧ NodeOk n lo h b := by
  obtain ⟨n, hb, hok, -⟩ := ht.shape
  exact ⟨n, hb, hok⟩

/-- The node at the top of a subtree is in order. -/
lemma Sub.nodeOk (ht : Sub s lo (h + 1) b) (hb : s.nodes b = some n) : NodeOk n lo h b := by
  obtain ⟨n', hn', hok⟩ := ht.node
  rw [hb, Option.some.injEq] at hn'
  exact hn' ▸ hok

/-- The parts of a node's in-order reading. -/
abbrev Sb.part (s : Sb) (h : ℕ) (n : Node) : ℕ → List (Key × ℕ) :=
  fun i => entries s.nodes h (n.child i)

lemma Sub.sorted_inorder (ht : Sub s lo (h + 1) b) (hb : s.nodes b = some n) :
    Sorted (inorder (s.part h n) n.sep n.nrKeys) := by
  rw [← entries_succ hb]
  exact ht.sorted

lemma Sub.nodup_inorder (ht : Sub s lo (h + 1) b) (hb : s.nodes b = some n) :
    b ∉ inorder (fun i => blocks s.nodes h (n.child i)) (fun _ => []) n.nrKeys ∧
      (inorder (fun i => blocks s.nodes h (n.child i)) (fun _ => []) n.nrKeys).Nodup := by
  have hnd := ht.nodup
  rw [blocks_succ hb] at hnd
  exact nodup_cons.mp hnd

lemma Sub.child (ht : Sub s lo (h + 1) b) (hb : s.nodes b = some n) (hi : i ≤ n.nrKeys) :
    Sub s (btreeT - 1) h (n.child i) := by
  obtain ⟨n', hn', -, hkids⟩ := ht.shape
  rw [hb, Option.some.injEq] at hn'
  subst hn'
  refine ⟨hkids i hi, ?_, ?_, fun x hx => ht.owned x (mem_blocks_child hb hi hx)⟩
  · have hs := ht.sorted_inorder hb
    rw [inorder_split hi, sorted_append, sorted_append] at hs
    exact hs.1.2.1
  · have hnd := (ht.nodup_inorder hb).2
    rw [inorder_split hi, append_assoc] at hnd
    exact hnd.of_append_right.of_append_left

/-- The blocks of two children are disjoint. -/
lemma Sub.disjoint_children (ht : Sub s lo (h + 1) b) (hb : s.nodes b = some n)
    (hi : i ≤ n.nrKeys) (hj : j ≤ n.nrKeys) (hij : i ≠ j) {x : ℕ}
    (hx : x ∈ blocks s.nodes h (n.child i)) : x ∉ blocks s.nodes h (n.child j) := by
  intro hxj
  have hnd := (ht.nodup_inorder hb).2
  have key : ∀ {i j : ℕ}, i < j → j ≤ n.nrKeys → x ∈ blocks s.nodes h (n.child i) →
      x ∈ blocks s.nodes h (n.child j) → False := by
    intro i j hlt hj hxi hxj
    rw [inorder_split hj, append_assoc] at hnd
    exact disjoint_of_nodup_append hnd (mem_upto.mpr ⟨i, hlt, Or.inl hxi⟩) (mem_append_left _ hxj)
  rcases lt_or_gt_of_ne hij with hlt | hgt
  · exact key hlt hj hx hxj
  · exact key hgt hi hxj hx

lemma Sub.notMem_child (ht : Sub s lo (h + 1) b) (hb : s.nodes b = some n) (hi : i ≤ n.nrKeys) :
    b ∉ blocks s.nodes h (n.child i) := fun hmem =>
  (ht.nodup_inorder hb).1 (mem_inorder.mpr (Or.inl ⟨i, hi, hmem⟩))

/-! ### Order inside a node -/

/-- The reading of a node around its key `i`. -/
lemma inorder_at_key (g : ℕ → List (Key × ℕ)) {n : Node} (hi : i < n.nrKeys) : inorder g n.sep n.nrKeys =
      (upto g n.sep i ++ g i) ++ n.kv i :: (g (i + 1) ++ after g n.sep (i + 1) (n.nrKeys - (i + 1))) := by
  rw [inorder_split hi.le, show n.nrKeys - i = n.nrKeys - (i + 1) + 1 by omega, after_succ]
  simp only [Node.sep, append_assoc, cons_append, nil_append]

section rank

variable {g : ℕ → List (Key × ℕ)} (hs : Sorted (inorder g n.sep n.nrKeys))

include hs

lemma below_of_sorted (hi : i < n.nrKeys) : Below (upto g n.sep i ++ g i) (n.key i) := by
  rw [inorder_at_key g hi, sorted_mid] at hs
  exact hs.2.2.1

lemma increasing_of_sorted : n.Increasing := by
  intro i j hij hj
  refine below_of_sorted hs hj (n.kv i) (mem_append_left _ ?_)
  exact mem_upto.mpr ⟨i, hij, Or.inr (mem_singleton_self _)⟩

variable (hr : n.IsRank k i)

include hr

/-- Left of the rank of `k` everything is below `k`. -/
lemma below_of_rank : Below (upto g n.sep i) k := by
  cases i with
  | zero => exact fun x hx => absurd hx not_mem_nil
  | succ i =>
    have hlt := hr.below i i.lt_succ_self
    rw [upto, below_append]
    refine ⟨(below_of_sorted hs (Nat.lt_of_succ_le hr.le)).mono hlt.le, ?_⟩
    intro x hx
    rw [mem_singleton.mp hx]
    exact hlt

variable (hk : ∀ j < n.nrKeys, n.key j ≠ k)

include hk

/-- Right of the rank of `k` everything is above `k` when `k` is not a key of the node. -/
lemma above_of_rank : Above k (after g n.sep i (n.nrKeys - i)) := by
  rcases hr.le.lt_or_eq with hi | hi
  · rw [inorder_at_key g hi, sorted_mid] at hs
    have hlt : k < n.key i := lt_of_le_of_ne (hr.above i le_rfl hi) (hk i hi).symm
    rw [show n.nrKeys - i = n.nrKeys - (i + 1) + 1 by omega, after_succ, append_assoc]
    exact above_cons.mpr ⟨hlt, hs.2.2.2.mono hlt.le⟩
  · rw [hi, Nat.sub_self]
    exact fun x hx => absurd hx not_mem_nil

/-- A key that is not in the node is looked up below the child at its rank. -/
lemma find_at_rank : find (inorder g n.sep n.nrKeys) k = find (g i) k := by
  rw [inorder_split hr.le, append_assoc, find_append_of_below (below_of_rank hs hr),
    find_append_of_above (above_of_rank hs hr hk)]

/-- Such a key is put below the child at its rank. -/
lemma put_at_rank (v : ℕ) : put k v (inorder g n.sep n.nrKeys) =
      upto g n.sep i ++ put k v (g i) ++ after g n.sep i (n.nrKeys - i) := by
  rw [inorder_split hr.le, append_assoc, put_append (below_of_rank hs hr),
    put_append_above (above_of_rank hs hr hk), append_assoc]

/-- Such a key is deleted below the child at its rank. -/
lemma del_at_rank : del k (inorder g n.sep n.nrKeys) =
      upto g n.sep i ++ del k (g i) ++ after g n.sep i (n.nrKeys - i) := by
  rw [inorder_split hr.le, del_append, del_append, del_of_below (below_of_rank hs hr),
    del_of_above (above_of_rank hs hr hk)]

end rank

end sub

/-! ### Steps of an operation on a tree -/

/-- What an operation on the tree with blocks `bs` may do: it takes the blocks `fresh`, and changes
contents only on `bs` and on blocks that were free. -/
structure TreeStep (s s' : Sb) (bs fresh : List ℕ) : Prop where
  env : s'.env = s.env
  inodesTree : s'.inodesTree = s.inodesTree
  stopping : s'.stopping = s.stopping
  bm : ∀ x, s'.bm x = (s.bm x || decide (x ∈ fresh))
  used : s'.usedBlocks = s.usedBlocks + fresh.length
  nodup : fresh.Nodup
  free : ∀ x ∈ fresh, s.bm x = false ∧ x < s.env.nrBlocks
  other : ∀ x, s.bm x = true → x ∉ bs →
    s'.nodes x = s.nodes x ∧ s'.inodes x = s.inodes x ∧ s'.clus x = s.clus x
  fails : s.allocFails ≤ s'.allocFails

section step

variable {s s₁ s' : Sb} {bs bs₁ fresh fresh₁ : List ℕ} {n : Node} {lo h b i : ℕ}

lemma TreeStep.refl (s : Sb) (bs : List ℕ) : TreeStep s s bs [] where
  env := rfl
  inodesTree := rfl
  stopping := rfl
  bm x := by simp
  used := by simp
  nodup := nodup_nil
  free x hx := absurd hx not_mem_nil
  other _ _ _ := ⟨rfl, rfl, rfl⟩
  fails := le_rfl

lemma TreeStep.marked (hst : TreeStep s s' bs fresh) {x : ℕ} (hx : s.bm x = true) : s'.bm x = true := by
  rw [hst.bm, hx, Bool.true_or]

lemma TreeStep.trans (h₁ : TreeStep s s₁ bs fresh) (h₂ : TreeStep s₁ s' bs₁ fresh₁)
    (hsub : ∀ x ∈ bs₁, x ∈ bs ∨ x ∈ fresh) : TreeStep s s' bs (fresh₁ ++ fresh) where
  env := h₂.env.trans h₁.env
  inodesTree := h₂.inodesTree.trans h₁.inodesTree
  stopping := h₂.stopping.trans h₁.stopping
  bm x := by
    rw [h₂.bm, h₁.bm, Bool.or_assoc]
    simp only [mem_append, Bool.decide_or, Bool.or_comm]
  used := by
    rw [h₂.used, h₁.used, length_append]
    push_cast
    ring
  nodup := by
    refine nodup_append.mpr ⟨h₂.nodup, h₁.nodup, fun x hx y hy hxy => ?_⟩
    subst hxy
    have hfree := (h₂.free x hx).1
    rw [h₁.bm, decide_eq_true hy, Bool.or_true] at hfree
    cases hfree
  free x hx := by
    rcases mem_append.mp hx with hx | hx
    · obtain ⟨hbm, hlt⟩ := h₂.free x hx
      rw [h₁.bm, Bool.or_eq_false_iff] at hbm
      exact ⟨hbm.1, h₁.env ▸ hlt⟩
    · exact h₁.free x hx
  other x hx hxbs := by
    have hx₁ : x ∉ bs₁ := fun hmem => by
      rcases hsub x hmem with hmem | hmem
      · exact hxbs hmem
      · rw [(h₁.free x hmem).1] at hx
        cases hx
    obtain ⟨hn, hi, hc⟩ := h₁.other x hx hxbs
    obtain ⟨hn', hi', hc'⟩ := h₂.other x (h₁.marked hx) hx₁
    exact ⟨hn'.trans hn, hi'.trans hi, hc'.trans hc⟩
  fails := h₁.fails.trans h₂.fails

section step

variable (hst : TreeStep s s' bs fresh)

include hst

lemma TreeStep.mono (hsub : ∀ x ∈ bs, x ∈ bs₁) : TreeStep s s' bs₁ fresh :=
  { hst with other := fun x hx hxbs => hst.other x hx fun hmem => hxbs (hsub x hmem) }

/-- A fresh block can belong to a tree. -/
lemma TreeStep.owned_fresh (hz : s.bm 0 = true) {x : ℕ}
    (hx : x ∈ fresh) : s'.Owned x where
  marked := by rw [hst.bm, decide_eq_true hx, Bool.or_true]
  ne_zero := by
    rintro rfl
    rw [(hst.free 0 hx).1] at hz
    cases hz
  lt := hst.env ▸ (hst.free x hx).2

lemma TreeStep.owned {x : ℕ} (hx : s.Owned x) : s'.Owned x :=
  ⟨hst.marked hx.marked, hx.ne_zero, hst.env ▸ hx.lt⟩

/-- A subtree away from the blocks of the operation is left alone. -/
lemma TreeStep.subtree (ht : Sub s lo h b)
    (hdis : ∀ x ∈ blocks s.nodes h b, x ∉ bs) : entries s'.nodes h b = entries s.nodes h b ∧
      blocks s'.nodes h b = blocks s.nodes h b ∧ Sub s' lo h b := by
  have hagree : ∀ x ∈ blocks s.nodes h b, s'.nodes x = s.nodes x := fun x hx =>
    (hst.other x (ht.owned x hx).marked (hdis x hx)).1
  obtain ⟨he, hbl, hsh⟩ := subtree_congr hagree
  refine ⟨he, hbl, hsh lo ht.shape, ?_, ?_, ?_⟩
  · rw [he]
    exact ht.sorted
  · rw [hbl]
    exact ht.nodup
  · rw [hbl]
    exact fun x hx => hst.owned (ht.owned x hx)

/-- New blocks in front of the blocks of a tree. -/
lemma TreeStep.nodup_append (ht : Sub s lo h b) :
    (fresh ++ blocks s.nodes h b).Nodup := by
  refine List.nodup_append.mpr ⟨hst.nodup, ht.nodup, fun x hx y hy hxy => ?_⟩
  subst hxy
  have hfree := (hst.free x hx).1
  rw [(ht.owned x hy).marked] at hfree
  cases hfree

end step

/-- An operation on the subtree of one child: the tree with the child's new contents in place. -/
lemma Sub.replaceChild (ht : Sub s lo (h + 1) b) (hz : s.bm 0 = true) (hb : s.nodes b = some n)
    (hi : i ≤ n.nrKeys) (hst : TreeStep s s' (blocks s.nodes h (n.child i)) fresh)
    (hc : Sub s' (btreeT - 1) h (n.child i))
    (hperm : (blocks s'.nodes h (n.child i)).Perm (fresh ++ blocks s.nodes h (n.child i)))
    (hs : Sorted (upto (s.part h n) n.sep i ++ entries s'.nodes h (n.child i) ++
      after (s.part h n) n.sep i (n.nrKeys - i))) :
    s'.nodes b = some n ∧
      entries s'.nodes (h + 1) b = upto (s.part h n) n.sep i ++ entries s'.nodes h (n.child i) ++
        after (s.part h n) n.sep i (n.nrKeys - i) ∧
      (blocks s'.nodes (h + 1) b).Perm (fresh ++ blocks s.nodes (h + 1) b) ∧
      Sub s' lo (h + 1) b := by
  have hb' : s'.nodes b = some n :=
    (hst.other b (ht.owned b mem_blocks_self).marked (ht.notMem_child hb hi)).1.trans hb
  have hsib : ∀ j ≤ n.nrKeys, j ≠ i → _ := fun j hj hji => hst.subtree (ht.child hb hj)
    fun x hx => ht.disjoint_children hb hj hi hji hx
  have he : entries s'.nodes (h + 1) b = upto (s.part h n) n.sep i ++
      entries s'.nodes h (n.child i) ++ after (s.part h n) n.sep i (n.nrKeys - i) := by
    rw [entries_succ hb']
    exact inorder_update hi fun j hj hji => (hsib j hj hji).1
  have hbl : (blocks s'.nodes (h + 1) b).Perm (fresh ++ blocks s.nodes (h + 1) b) := by
    rw [blocks_succ hb, blocks_succ hb', inorder_update (g := fun i => blocks s.nodes h (n.child i))
      hi fun j hj hji => (hsib j hj hji).2.1,
      inorder_split (g := fun i => blocks s.nodes h (n.child i)) hi]
    refine (((hperm.append_left _).append_right _).cons b).trans ?_
    rw [append_assoc, append_assoc, append_assoc, ← append_assoc _ fresh]
    refine ((perm_append_comm.append_right _).cons b).trans ?_
    rw [append_assoc]
    exact perm_middle.symm
  obtain ⟨n', hn', hok, hkids⟩ := ht.shape
  rw [hb, Option.some.injEq] at hn'
  subst hn'
  refine ⟨hb', he, hbl, ⟨n, hb', hok, fun j hj => ?_⟩, ?_, ?_, fun x hx => ?_⟩
  · by_cases hji : j = i
    · rw [hji]
      exact hc.shape
    · exact (hsib j hj hji).2.2.shape
  · rw [he]
    exact hs
  · exact hbl.nodup_iff.mpr (hst.nodup_append ht)
  · rcases mem_append.mp (hbl.mem_iff.mp hx) with hx | hx
    · exact hst.owned_fresh hz hx
    · exact hst.owned (ht.owned x hx)

end step

/-! ### Trees -/

/-- Number of keys a root must have: in a `strict` tree an interior root has at least one. -/
def rootLo (strict : Bool) (h : ℕ) : ℕ := if strict ∧ h ≠ 1 then 1 else 0

/-- The B-tree invariant: the tree of height `h` at `root` holds the pairs `es` on the blocks `bs`.
The root has at most `2 T - 1` keys and every other node `T - 1 .. 2 T - 1`; keys increase inside
nodes and across separators; leaves are at one depth; no block is used by two nodes, and all are
allocated. -/
structure IsTree (s : Sb) (strict : Bool) (root h : ℕ) (es : List (Key × ℕ)) (bs : List ℕ) :
    Prop where
  pos : 0 < h
  sub : Sub s (rootLo strict h) h root
  entries_eq : entries s.nodes h root = es
  blocks_eq : blocks s.nodes h root = bs
  zero : s.bm 0 = true

end Nkfs
