import Nkfs.Btree.HeapOk
import Nkfs.Btree.Insert

/-!
# Insertion on nodes in memory

`Insertion` lists, step by step, what `nkfs_btree_node_insert_nonfull` does to the superblock state and which
nodes it writes, in order. Every run is such a list of steps (`insertNonfull_run`), and along the steps the tree
changes as in the finite map (`Insertion.put`). A run returns with the references it started with. Nodes that
cannot be created end a run like blocks that cannot be allocated; all other writes are taken to succeed.
-/

namespace Nkfs.Refs

open Lib.Program Lib.Slots Lib.Assoc Function List

/-! ### What an insertion does -/

/-- The node after the value of pair `i` was replaced. -/
def putValue (n : Node) (i v : ℕ) : Node := { n with kv := Function.update n.kv i (n.key i, v) }

/-- The node after a pair was inserted at `i`. -/
def insertKv (n : Node) (i : ℕ) (k : Key) (v : ℕ) : Node :=
  { n with kv := insertSlot n.kv i n.nrKeys (k, v), nrKeys := n.nrKeys + 1 }

/-- A new node. -/
def zeroAt (w : ℕ) : Node := { Node.zero with block := w }

/-- The nodes that a split of child `c` of `n` writes, the new one first and last. -/
def splitWrites (n c : Node) (i w : ℕ) : List Node :=
  [zeroAt w, splitNode n c i (zeroAt w), { c with nrKeys := btreeT - 1 }, splitNew c (zeroAt w)]

/-- The steps of an insertion of `(k, v)` below the node `n` at block `b` with `h` levels below it: from `s` to
`s'`, with the nodes written and the result. -/
inductive Insertion (k : Key) (v : ℕ) (replace : Bool) :
    Sb → ℕ → ℕ → Node → List Node → Except Errno Unit → Sb → Prop
  | found {s : Sb} {h b i : ℕ} {n : Node} (hi : i < n.nrKeys) (hk : n.key i = k) (hr : replace = false) :
      Insertion k v replace s h b n [] (.error .eexist) s
  | replaced {s : Sb} {h b i : ℕ} {n : Node} (hi : i < n.nrKeys) (hk : n.key i = k) (hr : replace = true) :
      Insertion k v replace s h b n [putValue n i v] (.ok ()) (s.writeNode (putValue n i v))
  | leaf {s : Sb} {b i : ℕ} {n : Node} (habs : ∀ j < n.nrKeys, n.key j ≠ k) (hi : n.IsRank k i)
      (hn : n.nrKeys < 2 * btreeT - 1) :
      Insertion k v replace s 0 b n [insertKv n i k v] (.ok ()) (s.writeNode (insertKv n i k v))
  | down {s s' : Sb} {h b i : ℕ} {n c : Node} {ws : List Node} {r : Except Errno Unit}
      (habs : ∀ j < n.nrKeys, n.key j ≠ k) (hi : n.IsRank k i) (hc : s.nodes (n.child i) = some c)
      (hlt : c.nrKeys < 2 * btreeT - 1) (hrest : Insertion k v replace s h (n.child i) c ws r s') :
      Insertion k v replace s (h + 1) b n ws r s'
  | refused {s s' : Sb} {h b i : ℕ} {n c : Node} (habs : ∀ j < n.nrKeys, n.key j ≠ k) (hi : n.IsRank k i)
      (hc : s.nodes (n.child i) = some c) (hfull : c.nrKeys = 2 * btreeT - 1) (hst : TreeStep s s' [] []) :
      Insertion k v replace s (h + 1) b n [] (.error .eio) s'
  | split {s s₁ s' : Sb} {h b i w : ℕ} {n c : Node} {ws : List Node} {r : Except Errno Unit}
      (habs : ∀ j < n.nrKeys, n.key j ≠ k) (hi : n.IsRank k i) (hc : s.nodes (n.child i) = some c)
      (hfull : c.nrKeys = 2 * btreeT - 1) (hn : n.nrKeys < 2 * btreeT - 1) (hcr : Created s s₁ w)
      (hrest : Insertion k v replace (s₁.splitDone n c i (zeroAt w)) (h + 1) b (splitNode n c i (zeroAt w)) ws r
        s') :
      Insertion k v replace s (h + 1) b n (splitWrites n c i w ++ ws) r s'

/-- The pairs before and after an insertion with the result `r`. -/
def Put (k : Key) (v : ℕ) (replace : Bool) (es es' : List (Key × ℕ)) : Except Errno Unit → Prop
  | .ok () => es' = put k v es ∧ (replace = true ∨ find es k = none)
  | .error _ => es' = es

section steps

variable {s s' : Sb} {n : Node} {lo h b v : ℕ} {k : Key} {replace : Bool} {ws : List Node}
  {r : Except Errno Unit}

/-- What an insertion below one child does to the pairs, it does to those of the whole tree. -/
lemma Put.child {i : ℕ} {es' : List (Key × ℕ)} (ht : Sub s lo (h + 1) b) (hb : s.nodes b = some n)
    (hi : n.IsRank k i) (habs : ∀ j < n.nrKeys, n.key j ≠ k)
    (hput : Put k v replace (entries s.nodes h (n.child i)) es' r) :
    Sorted (upto (s.part h n) n.sep i ++ es' ++ after (s.part h n) n.sep i (n.nrKeys - i)) ∧
      Put k v replace (entries s.nodes (h + 1) b)
        (upto (s.part h n) n.sep i ++ es' ++ after (s.part h n) n.sep i (n.nrKeys - i)) r := by
  have hs := ht.sorted_inorder hb
  have hputs := put_at_rank hs hi habs v
  rw [entries_succ hb]
  cases r with
  | ok u =>
    obtain ⟨rfl, hpre⟩ := hput
    rw [← hputs]
    refine ⟨sorted_put hs, rfl, ?_⟩
    rw [find_at_rank hs hi habs]
    exact hpre
  | error e =>
    obtain rfl : es' = s.part h n i := hput
    rw [← inorder_split (g := s.part h n) (f := n.sep) hi.le]
    exact ⟨hs, rfl⟩

/-- **The pairs along an insertion.** The tree keeps its invariant and takes new blocks only. -/
theorem Insertion.put (hins : Insertion k v replace s h b n ws r s') : ∀ {lo : ℕ}, Sub s lo (h + 1) b →
    s.bm 0 = true → s.nodes b = some n → ∃ fresh, Grow s s' lo (h + 1) (h + 1) b fresh ∧
      Put k v replace (entries s.nodes (h + 1) b) (entries s'.nodes (h + 1) b) r := by
  induction hins with
  | found hi hk hr =>
    intro lo ht hz hb
    exact ⟨[], Grow.refl ht, rfl⟩
  | @replaced s h b i n hi hk hr =>
    intro lo ht hz hb
    subst hk
    have hok := ht.nodeOk hb
    have hs := ht.sorted_inorder hb
    have hput : inorder (s.part h n) (putValue n i v).sep n.nrKeys = _ :=
      inorder_putValue (m := putValue n i v) hs hi rfl rfl
    obtain ⟨hgrow, hent⟩ := Grow.writeTop ht hz hb (m := putValue n i v)
      ⟨hok.block, hok.pages, hok.lo_le, hok.le, hok.leaf⟩ (.inr ⟨rfl, rfl⟩) (by exact hput ▸ sorted_put hs)
    refine ⟨[], hgrow, ?_, .inl hr⟩
    rw [hent, entries_succ hb]
    exact hput
  | @leaf s b i n habs hi hn =>
    intro lo ht hz hb
    have hok := ht.nodeOk hb
    have hs := ht.sorted_inorder hb
    have hput := inorder_insertLeaf (s := s) (v := v) (m := insertKv n i k v) hs hi habs rfl rfl
    obtain ⟨hgrow, hent⟩ := Grow.writeTop ht hz hb (m := insertKv n i k v)
      ⟨hok.block, hok.pages, hok.lo_le.trans n.nrKeys.le_succ, hn, hok.leaf⟩ (.inl rfl)
      (by exact hput ▸ sorted_put hs)
    refine ⟨[], hgrow, ?_, .inr ?_⟩
    · rw [hent, entries_succ hb]
      exact hput
    · rw [entries_succ hb, find_at_rank hs hi habs]
      rfl
  | down habs hi hc hlt hrest ih =>
    intro lo ht hz hb
    obtain ⟨fresh, hgrow, hput⟩ := ih (ht.child hb hi.le) hz hc
    obtain ⟨hsort, hput'⟩ := hput.child ht hb hi habs
    obtain ⟨-, hent, hperm, hsub⟩ := ht.replaceChild hz hb hi.le hgrow.step hgrow.sub hgrow.perm hsort
    exact ⟨fresh, ⟨hgrow.step.mono fun x hx => mem_blocks_child hb hi.le hx, hperm, hsub⟩, hent ▸ hput'⟩
  | refused habs hi hc hfull hst =>
    intro lo ht hz hb
    obtain ⟨hent, hblk, hsub⟩ := hst.subtree ht fun _ _ => List.not_mem_nil
    exact ⟨[], ⟨hst.mono fun x hx => absurd hx List.not_mem_nil, List.Perm.of_eq hblk, hsub⟩, hent⟩
  | split habs hi hc hfull hn hcr hrest ih =>
    intro lo ht hz hb
    obtain ⟨hre, hb', -, -⟩ := Reshape.splitDone ht hz hb hn hi.le hc hfull hcr.step hcr.fails
    obtain ⟨fresh, hgrow, hput⟩ := ih hre.sub (hre.step.marked hz) hb'
    exact ⟨_, hre.toGrow.trans hgrow, hre.entries_eq ▸ hput⟩

lemma splitDone_nodes {s₁ : Sb} {c : Node} {i w : ℕ} (hcr : Created s s₁ w) :
    (s₁.splitDone n c i (zeroAt w)).nodes = writeAll s.nodes (splitWrites n c i w) := by
  show update (update (update s₁.nodes _ _) _ _) _ _ = _
  rw [hcr.nodes]
  rfl

/-- The nodes afterwards are those before with the writes laid over them, in order. -/
lemma Insertion.nodes_eq (hins : Insertion k v replace s h b n ws r s') (hr : r = .ok ()) :
    s'.nodes = writeAll s.nodes ws := by
  induction hins with
  | found => cases hr
  | replaced => rfl
  | leaf => rfl
  | down _ _ _ _ _ ih => exact ih hr
  | refused => cases hr
  | split _ _ _ _ _ hcr _ ih => rw [ih hr, splitDone_nodes hcr, writeAll_append]

end steps

/-! ### The root split -/

/-- The nodes that the split of the root `n` writes, in order. -/
def rootWrites (n root : Node) (x w : ℕ) : List Node :=
  [zeroAt x, zeroAt w, { cloneRoot n x with nrKeys := btreeT - 1 }, splitNew (cloneRoot n x) (zeroAt w), root]

/-- The root `n` at block `b` was split: `root` is above its halves, at the new blocks `x` and `w`. -/
structure RootSplit (s s' : Sb) (h b : ℕ) (n root : Node) (x w : ℕ) : Prop where
  above : AboveHalves root n b x w
  shape : Reshape s s' 1 (h + 1) (h + 2) b [w, x]
  nodes : s'.nodes = writeAll s.nodes (rootWrites n root x w)
  stored : s'.nodes b = some root
  lower : s'.nodes x = some { cloneRoot n x with nrKeys := btreeT - 1 }
  upper : s'.nodes w = some (splitNew (cloneRoot n x) (zeroAt w))

section root

variable {s s₁ s₂ s₃ : Sb} {n root : Node} {lo h b x w : ℕ}

/-- The three writes of a root split after both nodes were created. -/
lemma RootSplit.intro (ht : Sub s lo (h + 1) b) (hz : s.bm 0 = true) (hb : s.nodes b = some n)
    (hfull : n.nrKeys = 2 * btreeT - 1) (habove : AboveHalves root n b x w) (hx : Created s s₁ x)
    (htried : s₂ = s₁.tried true) (hw : Created s₂ s₃ w) :
    RootSplit s (((s₃.writeNode { cloneRoot n x with nrKeys := btreeT - 1 }).writeNode
      (splitNew (cloneRoot n x) (zeroAt w))).writeNode root) h b n root x w := by
  subst htried
  have hst : TreeStep s s₃ [b] [w, x] :=
    ((hx.step.trans (TreeStep.tried s₁ true) fun _ h => absurd h not_mem_nil).trans hw.step
      fun _ h => absurd h not_mem_nil).mono fun _ h => absurd h not_mem_nil
  have hwm : w ∈ [w, x] := mem_cons_self ..
  have hxm : x ∈ [w, x] := mem_cons_of_mem _ (mem_singleton_self x)
  have hbo := ht.owned b mem_blocks_self
  have hne : ∀ y ∈ [w, x], y ≠ root.block := fun y hy hyb => by
    have hfree := (hst.free y hy).1
    rw [hyb, habove.block, hbo.marked] at hfree
    cases hfree
  have hxw : x ≠ w := fun h => (nodup_cons.mp hst.nodup).1 (h ▸ mem_singleton_self x)
  have hst₄ : TreeStep s (s₃.writeNode { cloneRoot n x with nrKeys := btreeT - 1 }) [b] [w, x] :=
    hst.andWrite (Or.inr hxm)
  have hst₅ : TreeStep s (Sb.writeNode _ (splitNew (cloneRoot n x) (zeroAt w))) [b] [w, x] :=
    hst₄.andWrite (Or.inr hwm)
  have hst₆ : TreeStep s (Sb.writeNode _ root) [b] [w, x] :=
    hst₅.andWrite (Or.inl (habove.block ▸ mem_singleton_self b))
  have hstored : (Sb.writeNode ((s₃.writeNode { cloneRoot n x with nrKeys := btreeT - 1 }).writeNode
      (splitNew (cloneRoot n x) (zeroAt w))) root).nodes b = some root := habove.block ▸ Sb.writeNode_self
  have hlower : (Sb.writeNode ((s₃.writeNode { cloneRoot n x with nrKeys := btreeT - 1 }).writeNode
      (splitNew (cloneRoot n x) (zeroAt w))) root).nodes x = some { cloneRoot n x with nrKeys := btreeT - 1 } := by
    rw [Sb.writeNode_of_ne (hne x hxm), Sb.writeNode_of_ne (by exact hxw)]
    exact Sb.writeNode_self
  have hupper : (Sb.writeNode ((s₃.writeNode { cloneRoot n x with nrKeys := btreeT - 1 }).writeNode
      (splitNew (cloneRoot n x) (zeroAt w))) root).nodes w = some (splitNew (cloneRoot n x) (zeroAt w)) := by
    rw [Sb.writeNode_of_ne (hne w hwm)]
    exact Sb.writeNode_self
  refine ⟨habove, ?_, ?_, hstored, hlower, hupper⟩
  · exact Reshape.rootSplit ht hz hb hst₆ (hw.fails.trans hx.fails)
      (halves_cloneRoot (ht.nodeOk hb) hfull) habove hstored hlower hupper
  · show update (update (update s₃.nodes _ _) _ _) _ _ = _
    rw [hw.nodes, show (s₁.tried true).nodes = s₁.nodes from rfl, hx.nodes]
    rfl

end root

/-! ### The run -/

/-- The nodes of `R` are where they were. -/
def SameBlocks (c c' : Heap) (R : Multiset ℕ) : Prop :=
  ∀ x ∈ R, ∀ y, c.Has x y → ∃ y', c'.Has x y' ∧ y'.block = y.block

/-- No write whose result is dropped fails. -/
def Heap.Done (c : Heap) : Prop := ∀ i, c.outcome .dropped i = .done

section run

variable {c c' : Heap} {R F : Multiset ℕ} {D : Set ℕ} {first n m v : ℕ} {node child : Node} {k : Key}
  {replace : Bool} {lo h b i : ℕ}

lemma Same.blocks (hs : Same c c' R) : SameBlocks c c' R := fun x hx y hy => ⟨y, hs x hx y hy, rfl⟩

lemma SameBlocks.trans {c₁ : Heap} (hs : SameBlocks c c₁ R) (hs' : SameBlocks c₁ c' R) : SameBlocks c c' R := by
  intro x hx y hy
  obtain ⟨y₁, hy₁, hb₁⟩ := hs x hx y hy
  obtain ⟨y', hy', hb'⟩ := hs' x hx y₁ hy₁
  exact ⟨y', hy', hb'.trans hb₁⟩

/-- A node is changed in memory and written. -/
lemma rewrite_run {β : Type} {f : Unit → P β} {Q : β → Heap → Prop} {new : Node} (hok : Ok c R ∅)
    (hdone : c.Done) (hn : c.Has n node) (hblock : new.block = node.block)
    (ho : c.sb.Owned node.block) (hp : new.AllPages)
    (hf : ∀ c', Ok c' R ∅ → c'.sb = c.sb.writeNode new → Logged c c' [new] → c'.Has n new →
      (∀ x ≠ n, ∀ y, c.Has x y → c'.Has x y) → Runs (f ()) c' Q) :
    Runs (setNode n new >>= fun _ => writeNode n >>= f) c Q := by
  refine Runs.bind (setNode_run hok hn hblock) fun _ c₁ ⟨hok₁, hq₁, hn₁, hother⟩ => ?_
  have ho₁ : c₁.sb.Owned new.block := by
    rw [hq₁.sb, hblock]
    exact ho
  have hdone₁ : c₁.Done := by
    rw [Heap.Done, hq₁.outcome]
    exact hdone
  obtain ⟨hrun, hok₂⟩ := writeNode_run hok₁ hdone₁ hn₁ ho₁ hp
  have hD : (insert n ∅ : Set ℕ) \ {n} = ∅ := by simp
  rw [hD] at hok₂
  refine Runs.step hrun (hf _ hok₂ ?_ ?_ hn₁ hother)
  · show c₁.sb.writeNode new = _
    rw [hq₁.sb]
  · exact hq₁.logged.trans (written_logged .dropped)

lemma sameBlocks_rewrite {new : Node} (hn : c.Has n node) (hn' : c'.Has n new) (hblock : new.block = node.block)
    (hother : ∀ x ≠ n, ∀ y, c.Has x y → c'.Has x y) : SameBlocks c c' R := by
  intro x hx y hy
  rcases eq_or_ne x n with rfl | hne
  · exact ⟨new, hn', hblock.trans (congrArg Node.block (hn.unique hy))⟩
  · exact ⟨y, hother x hne y hy, rfl⟩

/-- A loop with its cursor `n` on the node at block `b` of a tree, with `h` levels below it. -/
structure At (c : Heap) (first n : ℕ) (F : Multiset ℕ) (lo h b : ℕ) (node : Node) : Prop where
  sub : Sub c.sb lo (h + 1) b
  zero : c.sb.bm 0 = true
  stored : c.sb.nodes b = some node
  has : c.Has n node
  ok : Ok c (cursor first n F) ∅
  mem : first ∈ F
  apart : n ≠ first → ∀ y, c.Has first y → y.block ∉ blocks c.sb.nodes (h + 1) b

lemma At.owned (hat : At c first n F lo h b node) : c.sb.Owned node.block :=
  (hat.sub.nodeOk hat.stored).block ▸ hat.sub.owned b mem_blocks_self

/-- What a run of the insertion returns with; if `room` nodes can be created, it does not fail for want of
one. -/
def InsertRun (c : Heap) (F : Multiset ℕ) (k : Key) (v : ℕ) (replace : Bool) (room h b : ℕ) (node : Node)
    (r : Except Errno Unit) (c' : Heap) : Prop :=
  ∃ ws, Insertion k v replace c.sb h b node ws r c'.sb ∧ Ok c' F ∅ ∧ Logged c c' ws ∧ SameBlocks c c' F ∧
    (r = .error .eio → ¬ c.CanCreate room)

/-- The key is in the node. -/
lemma insert_present (hat : At c first n F lo h b node) (hdone : c.Done) (hi : i < node.nrKeys)
    (hkey : hasKey node (node.key i) = .ok (some i)) (fuel room : ℕ) :
    Runs (insertNonfull first (node.key i) v replace (fuel + 1) n) c
      (InsertRun c F (node.key i) v replace room h b node) := by
  have hok := hat.sub.nodeOk hat.stored
  unfold insertNonfull
  refine Runs.step (getNode_run hat.has) (Runs.step (slots_run hkey) ?_)
  cases hr : replace with
  | false =>
    refine Runs.bind (derefUnless_run hat.ok) fun _ c₁ ⟨hok₁, hq₁, hs₁⟩ => Runs.pure ?_
    exact ⟨[], by rw [hq₁.sb]; exact .found hi rfl rfl, hok₁, hq₁.logged, hs₁.blocks, nofun⟩
  | true =>
    have hslots : keySlots ≤ btreeValuePages * 512 := by decide
    have hcopy : copyValue node i v = .ok (putValue node i v) :=
      if_pos ((hi.trans hok.nrKeys_lt_keySlots).trans_le hslots)
    refine Runs.step (slots_run hcopy) (rewrite_run hat.ok hdone hat.has rfl hat.owned hok.pages ?_)
    intro c₁ hok₁ hsb₁ hl₁ hn₁ hother
    refine Runs.bind (derefUnless_run hok₁) fun _ c₂ ⟨hok₂, hq₂, hs₂⟩ => Runs.pure ?_
    refine ⟨[putValue node i v], ?_, hok₂, hl₁.quiet hq₂,
      (sameBlocks_rewrite hat.has hn₁ rfl hother).trans hs₂.blocks, nofun⟩
    rw [hq₂.sb, hsb₁]
    exact .replaced hi rfl rfl

/-- A new key in a leaf. -/
lemma insert_leaf (hat : At c first n F lo 0 b node) (hdone : c.Done) (hn : node.nrKeys < 2 * btreeT - 1)
    (hno : hasKey node k = .ok none) (habs : ∀ j < node.nrKeys, node.key j ≠ k) (fuel room : ℕ) :
    Runs (insertNonfull first k v replace (fuel + 1) n) c (InsertRun c F k v replace room 0 b node) := by
  have hok := hat.sub.nodeOk hat.stored
  obtain ⟨i, hi, hr⟩ := hat.sub.rank hat.stored hok k
  have hput : putKeyValue node i k v = .ok { node with kv := insertSlot node.kv i node.nrKeys (k, v) } :=
    putKeyValue_eq hr.le hok.nrKeys_lt_keySlots
  have hleaf : node.leaf = true := hok.leaf
  unfold insertNonfull
  refine Runs.step (getNode_run hat.has) (Runs.step (slots_run hno) ?_)
  rw [hleaf, if_pos rfl]
  refine Runs.step (slots_run hi) (Runs.step (slots_run hput) ?_)
  refine rewrite_run hat.ok hdone hat.has rfl hat.owned hok.pages ?_
  intro c₁ hok₁ hsb₁ hl₁ hn₁ hother
  refine Runs.bind (derefUnless_run hok₁) fun _ c₂ ⟨hok₂, hq₂, hs₂⟩ => Runs.pure ?_
  refine ⟨[insertKv node i k v], ?_, hok₂, hl₁.quiet hq₂,
    (sameBlocks_rewrite hat.has hn₁ rfl hother).trans hs₂.blocks, nofun⟩
  rw [hq₂.sb, hsb₁]
  exact .leaf habs hr hn

/-- A loop at an interior node that has read the child at `i`. -/
structure AtChild (c : Heap) (first n m : ℕ) (F : Multiset ℕ) (lo h b i : ℕ) (node child : Node) : Prop where
  sub : Sub c.sb lo (h + 2) b
  zero : c.sb.bm 0 = true
  stored : c.sb.nodes b = some node
  le : i ≤ node.nrKeys
  storedChild : c.sb.nodes (node.child i) = some child
  has : c.Has n node
  hasChild : c.Has m child
  ok : Ok c (m ::ₘ cursor first n F) ∅
  mem : first ∈ F
  apart : n ≠ first → ∀ y, c.Has first y → y.block ∉ blocks c.sb.nodes (h + 2) b

lemma AtChild.blocks_ne (hat : AtChild c first n m F lo h b i node child) :
    node.block = b ∧ child.block = node.child i ∧ b ≠ node.child i := by
  refine ⟨(hat.sub.nodeOk hat.stored).block, ((hat.sub.child hat.stored hat.le).nodeOk hat.storedChild).block, ?_⟩
  exact fun h => hat.sub.notMem_child hat.stored hat.le (h ▸ mem_blocks_self)

lemma AtChild.ne (hat : AtChild c first n m F lo h b i node child) : n ≠ m := by
  obtain ⟨hb, hcb, hne⟩ := hat.blocks_ne
  exact Has.ne_of_block hat.has hat.hasChild (by rw [hb, hcb]; exact hne)

lemma AtChild.ne_first (hat : AtChild c first n m F lo h b i node child) : m ≠ first := by
  rintro rfl
  by_cases hn : n = m
  · exact hat.ne hn
  · obtain ⟨-, hcb, -⟩ := hat.blocks_ne
    refine hat.apart hn child hat.hasChild (mem_blocks_child hat.stored hat.le ?_)
    rw [hcb]
    exact mem_blocks_self

/-- A new block is not that of a node in memory. -/
lemma Created.block_ne {s₁ : Sb} {w x : ℕ} {y : Node} (hcr : Created c.sb s₁ w) (hok : Ok c R D)
    (hz : c.sb.bm 0 = true) (hy : c.Has x y) : y.block ≠ w := by
  rintro rfl
  have hfree := (hcr.step.free _ (mem_singleton_self _)).1
  by_cases h0 : y.block = 0
  · rw [h0, hz] at hfree
    cases hfree
  · rw [hok.marked ((hok.cached _ x).mpr ⟨h0, y, hy, rfl⟩)] at hfree
    cases hfree

/-- The split of a full child: both halves and the parent are written, or nothing happens because no node can
be created. -/
lemma splitFull_run (hat : AtChild c first n m F lo h b i node child) (hdone : c.Done)
    (hn : node.nrKeys < 2 * btreeT - 1) (hfull : child.nrKeys = 2 * btreeT - 1) :
    Runs (splitFull first n m i node child) c fun ok c' =>
      (ok = true ∧ ∃ s₁ w, Created c.sb s₁ w ∧ c'.sb = s₁.splitDone node child i (zeroAt w) ∧
        Ok c' (cursor first n F) ∅ ∧ Logged c c' (splitWrites node child i w) ∧
        c'.Has n (splitNode node child i (zeroAt w)) ∧ SameBlocks c c' F ∧
        ∀ x ∈ F, x ≠ n → x ≠ m → ∀ y, c.Has x y → c'.Has x y) ∨
      (ok = false ∧ TreeStep c.sb c'.sb [] [] ∧ Ok c' F ∅ ∧ Logged c c' [] ∧ Same c c' F ∧ ¬ c.CanCreate 1) := by
  obtain ⟨hnb, hcb, hbc⟩ := hat.blocks_ne
  have hok := hat.sub.nodeOk hat.stored
  have hcok := (hat.sub.child hat.stored hat.le).nodeOk hat.storedChild
  have hnm := hat.ne
  unfold splitFull
  refine Runs.bind (nodeCreate_run hat.ok hat.zero) ?_
  rintro _ c₁ (⟨w, x, rfl, hcr, hok₁, hx₁, hl₁, hs₁⟩ | ⟨rfl, hst, hok₁, hl₁, hs₁, hcan⟩)
  swap
  · rw [← cursor_cons] at hok₁
    refine Runs.bind (derefUnless_run hok₁) fun _ c₂ ⟨hok₂, hq₂, hs₂⟩ => ?_
    refine Runs.bind (nodeDeref_run hok₂) fun _ c₃ ⟨hok₃, hq₃, hs₃⟩ => Runs.pure (.inr ⟨rfl, ?_, hok₃,
      (hl₁.quiet hq₂).quiet hq₃, ?_, hcan⟩)
    · rw [hq₃.sb, hq₂.sb]
      exact hst
    · exact ((hs₁.mono fun x hx => Multiset.mem_cons_of_mem (mem_cursor hx)).trans hs₂
        fun x hx => Multiset.mem_cons_of_mem hx).trans hs₃ fun x hx => hx
  -- the new node is none of the others, as its block was free
  have hfree : ∀ {z y}, c.Has z y → c₁.Has z y → z ≠ x := fun hy hy₁ =>
    Has.ne_of_block hy₁ hx₁ (hcr.block_ne hat.ok hat.zero hy)
  have hbo := hat.sub.owned b mem_blocks_self
  have hco := (hat.sub.child hat.stored hat.le).owned _ mem_blocks_self
  have hn₁ := hs₁ n ((hat.ok.mem hat.has)) node hat.has
  have hm₁ := hs₁ m (Multiset.mem_cons_self m _) child hat.hasChild
  have hnx : n ≠ x := hfree hat.has hn₁
  have hmx : m ≠ x := hfree hat.hasChild hm₁
  have hsplit := splitChild_eq node child (zeroAt w) hok.pages hcok.pages (fun _ => rfl) hat.le hn hfull
  refine Runs.step (getNode_run hx₁) (Runs.step (slots_run hsplit) ?_)
  refine Runs.bind (setNode_run hok₁ hn₁ (by exact rfl)) fun _ c₂ ⟨hok₂, hq₂, hn₂, ho₂⟩ => ?_
  refine Runs.bind (setNode_run hok₂ (ho₂ m hnm.symm _ hm₁) (by exact rfl)) fun _ c₃ ⟨hok₃, hq₃, hm₃, ho₃⟩ => ?_
  refine Runs.bind (setNode_run hok₃ (ho₃ x hmx.symm _ (ho₂ x hnx.symm _ hx₁)) (by exact rfl))
    fun _ c₄ ⟨hok₄, hq₄, hx₄, ho₄⟩ => ?_
  have hn₄ := ho₄ n hnx _ (ho₃ n hnm _ hn₂)
  have hm₄ := ho₄ m hmx _ hm₃
  have hq : Quiet c₁ c₄ := (hq₂.trans hq₃).trans hq₄
  have hdone₄ : c₄.Done := by
    rw [Heap.Done, hq.outcome, hl₁.outcome]
    exact hdone
  have hkeep : ∀ {s : Sb} {y : Node} {z : ℕ}, s.Owned z → (s.writeNode y).Owned z := fun ho =>
    (TreeStep.writeNode _ _).owned ho
  have hbo₄ : c₄.sb.Owned (splitNode node child i (zeroAt w)).block := by
    rw [hq.sb]
    exact hnb ▸ hcr.step.owned hbo
  have hco₄ : c₄.sb.Owned ({ child with nrKeys := btreeT - 1 } : Node).block := by
    rw [hq.sb]
    exact hcb ▸ hcr.step.owned hco
  have hwo₄ : c₄.sb.Owned (splitNew child (zeroAt w)).block := by
    rw [hq.sb]
    exact hcr.step.owned_fresh hat.zero (mem_singleton_self w)
  obtain ⟨hrun₅, hok₅⟩ := writeNode_run hok₄ hdone₄ hn₄ hbo₄ hok.pages
  obtain ⟨hrun₆, hok₆⟩ := writeNode_run hok₅ hdone₄ hm₄ (hkeep hco₄) hcok.pages
  obtain ⟨hrun₇, hok₇⟩ := writeNode_run hok₆ hdone₄ hx₄ (hkeep (hkeep hwo₄)) fun _ => rfl
  have hD : (((insert x (insert m (insert n ∅)) : Set ℕ) \ {n}) \ {m}) \ {x} = ∅ := by
    ext y
    simp only [Set.mem_sdiff, Set.mem_insert_iff, Set.mem_singleton_iff, Set.mem_empty_iff_false]
    tauto
  rw [hD] at hok₇
  refine Runs.step hrun₅ (Runs.step hrun₆ (Runs.step hrun₇ ?_))
  refine Runs.bind (nodeDeref_run hok₇) fun _ c₈ ⟨hok₈, hq₈, hs₈⟩ => ?_
  refine Runs.bind (nodeDeref_run hok₈) fun _ c₉ ⟨hok₉, hq₉, hs₉⟩ => ?_
  have hncur : n ∈ cursor first n F := (Multiset.mem_cons.mp (hat.ok.mem hat.has)).resolve_left hnm
  have hlast : ∀ z ∈ cursor first n F, ∀ y, c₄.Has z y → c₉.Has z y := fun z hz y hy =>
    hs₉ z hz y (hs₈ z (Multiset.mem_cons_of_mem hz) y hy)
  have hothers : ∀ z ∈ F, z ≠ n → z ≠ m → ∀ y, c.Has z y → c₉.Has z y := fun z hz hzn hzm y hy => by
    have hy₁ := hs₁ z (Multiset.mem_cons_of_mem (mem_cursor hz)) y hy
    exact hlast z (mem_cursor hz) y (ho₄ z (hfree hy hy₁) y (ho₃ z hzm y (ho₂ z hzn y hy₁)))
  refine Runs.pure (.inl ⟨rfl, c₁.sb, w, hcr, ?_, hok₉, ?_, ?_, ?_, ?_⟩)
  · rw [hq₉.sb, hq₈.sb, ← hq.sb]
    rfl
  · refine ((?_ : Logged c _ (splitWrites node child i w)).quiet hq₈).quiet hq₉
    have hw₇ : Logged c₄ (((c₄.written .dropped (splitNode node child i (zeroAt w))).written .dropped
        { child with nrKeys := btreeT - 1 }).written .dropped (splitNew child (zeroAt w))) _ :=
      ((written_logged .dropped).trans (written_logged .dropped)).trans (written_logged .dropped)
    exact (hl₁.quiet hq).trans hw₇
  · exact hlast n hncur _ hn₄
  · intro z hz y hy
    rcases eq_or_ne z n with rfl | hzn
    · exact ⟨_, hlast z hncur _ hn₄, by rw [← hat.has.unique hy]; rfl⟩
    · rcases eq_or_ne z m with rfl | hzm
      · exact ⟨_, hlast z (mem_cursor hz) _ hm₄, by rw [← hat.hasChild.unique hy]⟩
      · exact ⟨y, hothers z hz hzn hzm y hy, rfl⟩
  · exact hothers

/-- A new node is none of those in memory. -/
lemma Created.ne {s₁ : Sb} {w x z : ℕ} {y : Node} (hcr : Created c.sb s₁ w) (hok : Ok c R D)
    (hz : c.sb.bm 0 = true) (hy : c.Has z y) (hy' : c'.Has z y) (hx : c'.Has x (zeroAt w)) : z ≠ x :=
  Has.ne_of_block hy' hx (hcr.block_ne hok hz hy)

/-- The root split gives back what it took: the copy of the root at block `x`, and the memory of the new root. -/
lemma splitRoot_undo {p y : ℕ} {mem : Node} (hok : Ok c (y ::ₘ p ::ₘ F) ∅) (hyp : y ∉ p ::ₘ F) (hp : p ∉ F)
    (hhas : c.Has p node) (ho : c.sb.Owned node.block) (hy : c.Has y mem) (hmem : mem.block = 0) :
    Runs (do nodeDelete p; nodeDeref p; nodeFree y; return .error .enomem : P (Except Errno Unit)) c fun r c' =>
      r = .error .enomem ∧ c'.sb = c.sb.dropNode node ∧ Ok c' F ∅ ∧ Logged c c' [] ∧ Same c c' F := by
  have hpy : p ∉ y ::ₘ F := fun h => by
    rcases Multiset.mem_cons.mp h with rfl | h
    · exact hyp (Multiset.mem_cons_self p F)
    · exact hp h
  rw [Multiset.cons_swap] at hok
  refine deleteDeref_run hok hpy hhas ho fun c₁ hok₁ hsb₁ hl₁ hs₁ => ?_
  have hy₁ := hs₁ y (Multiset.mem_cons_self y F) _ hy
  have hyF : y ∉ F := fun h => hyp (Multiset.mem_cons_of_mem h)
  refine Runs.bind (nodeFree_run hok₁ hyF hy₁ hmem) fun _ c₂ ⟨hok₂, hq₂, hs₂⟩ => Runs.pure ?_
  exact ⟨rfl, hq₂.sb.trans hsb₁, hok₂, hl₁.quiet hq₂,
    (hs₁.mono fun x hx => Multiset.mem_cons_of_mem hx).trans hs₂ fun x hx => hx⟩

/-- All that a root split ends in: the tree is one level higher, or a node or memory was missing and nothing is
left behind. -/
def RootRun (c : Heap) (F : Multiset ℕ) (h b first : ℕ) (node : Node) (r : Except Errno Unit) (c' : Heap) : Prop :=
  (∃ root x w, r = .ok () ∧ RootSplit c.sb c'.sb h b node root x w ∧ Ok c' F ∅ ∧
    Logged c c' (rootWrites node root x w) ∧ c'.Has first root ∧ SameBlocks c c' F) ∨
  (∃ ws, r = .error .enomem ∧ TreeStep c.sb c'.sb [] [] ∧ Ok c' F ∅ ∧ Logged c c' ws ∧
    (∀ m ∈ ws, c.sb.bm m.block = false) ∧ Same c c' F ∧ ¬ c.CanCreate 2)

lemma Heap.CanCreate.mono {i j : ℕ} (hcan : c.CanCreate j) (hij : i ≤ j) : c.CanCreate i :=
  ⟨hcan.1.mono hij, hcan.2⟩

/-- A root split after its first node `p` was created and memory for the new root taken at `y`. -/
structure RootHalf (c c₃ : Heap) (F : Multiset ℕ) (first p y x : ℕ) (node : Node) (s₁ : Sb) : Prop where
  ok : Ok c₃ (y ::ₘ p ::ₘ F) ∅
  notMem : y ∉ p ::ₘ F
  root : c₃.Has first node
  clone : c₃.Has p (zeroAt x)
  new : c₃.Has y Node.zero
  logged : Logged c c₃ [zeroAt x]
  sb : c₃.sb = s₁.tried true
  same : Same c c₃ F

/-- The end of a root split, once both nodes are there. -/
lemma splitRoot_last {s₁ : Sb} {p y x w q : ℕ} {c₃ c₄ : Heap} (hok : Ok c F ∅) (hsub : Sub c.sb lo (h + 1) b)
    (hz : c.sb.bm 0 = true) (hb : c.sb.nodes b = some node) (hhas : c.Has first node) (hdone : c.Done)
    (hfull : node.nrKeys = 2 * btreeT - 1) (hcr₁ : Created c.sb s₁ x) (hpF : p ∉ F) (hrp : first ≠ p)
    (hhalf : RootHalf c c₃ F first p y x node s₁) (hcr₄ : Created c₃.sb c₄.sb w)
    (hok₄ : Ok c₄ (q ::ₘ y ::ₘ p ::ₘ F) ∅) (hq₄ : c₄.Has q (zeroAt w)) (hl₄ : Logged c₃ c₄ [zeroAt w])
    (hs₄ : Same c₃ c₄ (y ::ₘ p ::ₘ F)) :
    Runs (do
      let rootNode ← getNode first
      let cloneNode ← getNode p
      let cloneNode ← slots (nodeCopy cloneNode rootNode)
      let newNode ← getNode y
      let newNode ← slots (setChildVal { newNode with leaf := false, nrKeys := 0 } 0 cloneNode.block)
      let new2Node ← getNode q
      let (newNode, cloneNode, new2Node) ← slots (splitChild newNode cloneNode 0 new2Node)
      let rootNode ← slots (nodeCopy rootNode newNode)
      setNode p cloneNode
      setNode y newNode
      setNode q new2Node
      setNode first rootNode
      writeNode p
      writeNode q
      writeNode first
      nodeDeref p
      nodeDeref q
      nodeFree y
      return .ok () : P (Except Errno Unit)) c₄ (RootRun c F h b first node) := by
  have hnok := hsub.nodeOk hb
  have hbo := hsub.owned b mem_blocks_self
  have hfirst := hok.mem hhas
  have hyF : y ∉ F := fun h => hhalf.notMem (Multiset.mem_cons_of_mem h)
  have hyp : y ≠ p := fun h => hhalf.notMem (h ▸ Multiset.mem_cons_self p F)
  have hyr : y ≠ first := fun h => hyF (h ▸ hfirst)
  have hz₃ : c₃.sb.bm 0 = true := by
    rw [hhalf.sb]
    exact hcr₁.step.marked hz
  have hpm : p ∈ y ::ₘ p ::ₘ F := Multiset.mem_cons_of_mem (Multiset.mem_cons_self p F)
  have hFm : ∀ {z}, z ∈ F → z ∈ y ::ₘ p ::ₘ F := fun hz =>
    Multiset.mem_cons_of_mem (Multiset.mem_cons_of_mem hz)
  have hr₄ := hs₄ first (hFm hfirst) _ hhalf.root
  have hp₄ := hs₄ p hpm _ hhalf.clone
  have hy₄ := hs₄ y (Multiset.mem_cons_self y _) _ hhalf.new
  have hrq : first ≠ q := hcr₄.ne hhalf.ok hz₃ hhalf.root hr₄ hq₄
  have hpq : p ≠ q := hcr₄.ne hhalf.ok hz₃ hhalf.clone hp₄ hq₄
  have hyq : y ≠ q := hcr₄.ne hhalf.ok hz₃ hhalf.new hy₄ hq₄
  obtain ⟨root, hroot, habove⟩ := nodeCopy_rootSeed (c := x) (w := w) hnok hfull
  have hclone : nodeCopy (zeroAt x) node = .ok (cloneRoot node x) :=
    nodeCopy_eq (fun _ => rfl) hnok.pages (by rw [hfull]; decide)
  have hseed : setChildVal { Node.zero with leaf := false, nrKeys := 0 } 0 (cloneRoot node x).block =
      .ok (rootSeed x) := setChildVal_eq (fun _ => rfl) (by decide)
  have hsplit := splitChild_eq (rootSeed x) (cloneRoot node x) (zeroAt w) (fun _ => rfl) (fun _ => rfl)
    (fun _ => rfl) le_rfl (show 0 < 2 * btreeT - 1 by decide) hfull
  refine Runs.step (getNode_run hr₄) (Runs.step (getNode_run hp₄) (Runs.step (slots_run hclone)
    (Runs.step (getNode_run hy₄) (Runs.step (slots_run hseed) (Runs.step (getNode_run hq₄)
    (Runs.step (slots_run hsplit) (Runs.step (slots_run hroot) ?_)))))))
  refine Runs.bind (setNode_run hok₄ hp₄ (by exact rfl)) fun _ c₅ ⟨hok₅, hq₅, hp₅, ho₅⟩ => ?_
  refine Runs.bind (setNode_run hok₅ (ho₅ y hyp _ hy₄) (by exact rfl)) fun _ c₆ ⟨hok₆, hq₆, hy₆, ho₆⟩ => ?_
  refine Runs.bind (setNode_run hok₆ (ho₆ q hyq.symm _ (ho₅ q hpq.symm _ hq₄)) (by exact rfl))
    fun _ c₇ ⟨hok₇, hq₇, hq₇', ho₇⟩ => ?_
  have hr₇ := ho₇ first hrq _ (ho₆ first hyr.symm _ (ho₅ first hrp _ hr₄))
  refine Runs.bind (setNode_run hok₇ hr₇ (habove.block.trans hnok.block.symm))
    fun _ c₈ ⟨hok₈, hq₈, hr₈, ho₈⟩ => ?_
  have hp₈ := ho₈ p hrp.symm _ (ho₇ p hpq _ (ho₆ p hyp.symm _ hp₅))
  have hq₈' := ho₈ q hrq.symm _ hq₇'
  have hy₈ := ho₈ y hyr _ (ho₇ y hyq _ hy₆)
  have hquiet : Quiet c₄ c₈ := ((hq₅.trans hq₆).trans hq₇).trans hq₈
  have hdone₈ : c₈.Done := by
    rw [Heap.Done, hquiet.outcome, hl₄.outcome, hhalf.logged.outcome]
    exact hdone
  have hst₃ : TreeStep c.sb c₃.sb [] [x] := by
    rw [hhalf.sb]
    exact hcr₁.step.trans (TreeStep.tried _ true) fun _ h => absurd h not_mem_nil
  have hkeep : ∀ {s : Sb} {m : Node} {z : ℕ}, s.Owned z → (s.writeNode m).Owned z := fun ho =>
    (TreeStep.writeNode _ _).owned ho
  have hxo : c₈.sb.Owned x := by
    rw [hquiet.sb]
    exact hcr₄.step.owned (hst₃.owned_fresh hz (mem_singleton_self x))
  have hwo : c₈.sb.Owned w := by
    rw [hquiet.sb]
    exact hcr₄.step.owned_fresh hz₃ (mem_singleton_self w)
  have hro : c₈.sb.Owned root.block := by
    rw [hquiet.sb, habove.block]
    exact hcr₄.step.owned (hst₃.owned hbo)
  obtain ⟨hrun₉, hok₉⟩ := writeNode_run hok₈ hdone₈ hp₈ hxo fun _ => rfl
  obtain ⟨hrun₁₀, hok₁₀⟩ := writeNode_run hok₉ hdone₈ hq₈' (hkeep hwo) fun _ => rfl
  obtain ⟨hrun₁₁, hok₁₁⟩ := writeNode_run hok₁₀ hdone₈ hr₈ (hkeep (hkeep hro)) habove.pages
  have hD : (((insert first (insert q (insert y (insert p ∅))) : Set ℕ) \ {p}) \ {q}) \ {first} ⊆ {y} := by
    intro z hz
    simp only [Set.mem_sdiff, Set.mem_insert_iff, Set.mem_singleton_iff, Set.mem_empty_iff_false] at hz ⊢
    tauto
  refine Runs.step hrun₉ (Runs.step hrun₁₀ (Runs.step hrun₁₁ ?_))
  rw [Multiset.cons_swap y p, Multiset.cons_swap q p] at hok₁₁
  refine Runs.bind (nodeDeref_run hok₁₁) fun _ c₁₂ ⟨hok₁₂, hq₁₂, hs₁₂⟩ => ?_
  refine Runs.bind (nodeDeref_run hok₁₂) fun _ c₁₃ ⟨hok₁₃, hq₁₃, hs₁₃⟩ => ?_
  have hlast : ∀ z ∈ y ::ₘ F, ∀ m, c₈.Has z m → c₁₃.Has z m := fun z hz m hm =>
    hs₁₃ z hz m (hs₁₂ z (Multiset.mem_cons_of_mem hz) m hm)
  refine Runs.bind (nodeFree_run hok₁₃ hyF (hlast y (Multiset.mem_cons_self y F) _ hy₈) rfl)
    fun _ c₁₄ ⟨hok₁₄, hq₁₄, hs₁₄⟩ => ?_
  have hend : ∀ z ∈ F, ∀ m, c₈.Has z m → c₁₄.Has z m := fun z hz m hm =>
    hs₁₄ z hz m (hlast z (Multiset.mem_cons_of_mem hz) m hm)
  have hq : Quiet _ c₁₄ := (hq₁₂.trans hq₁₃).trans hq₁₄
  refine Runs.pure (.inl ⟨root, x, w, rfl, ?_, hok₁₄.clean fun z hz hzF => hyF ?_, ?_, hend first hfirst _ hr₈, ?_⟩)
  · rw [hq.sb]
    show RootSplit c.sb (((c₈.sb.writeNode _).writeNode _).writeNode _) h b node root x w
    rw [hquiet.sb]
    exact .intro hsub hz hb hfull habove hcr₁ hhalf.sb hcr₄
  · rw [← Set.mem_singleton_iff.mp (hD hz)]
    exact hzF
  · refine Logged.quiet ?_ hq
    have hw₁₁ : Logged c₈ (((c₈.written .dropped { cloneRoot node x with nrKeys := btreeT - 1 }).written .dropped
        (splitNew (cloneRoot node x) (zeroAt w))).written .dropped root) _ :=
      ((written_logged .dropped).trans (written_logged .dropped)).trans (written_logged .dropped)
    exact ((hhalf.logged.trans hl₄).quiet hquiet).trans hw₁₁
  · intro z hz m hm
    rcases eq_or_ne z first with rfl | hzr
    · exact ⟨root, hend z hz _ hr₈, by rw [← hhas.unique hm, habove.block, hnok.block]⟩
    · have hzp : z ≠ p := fun heq => hpF (heq ▸ hz)
      have hzy : z ≠ y := fun heq => hyF (heq ▸ hz)
      have hm₃ := hhalf.same z hz m hm
      have hm₄ := hs₄ z (hFm hz) m hm₃
      have hzq : z ≠ q := hcr₄.ne hhalf.ok hz₃ hm₃ hm₄ hq₄
      exact ⟨m, hend z hz m (ho₈ z hzr m (ho₇ z hzq m (ho₆ z hzy m (ho₅ z hzp m hm₄)))), rfl⟩

/-- **The root split.** -/
theorem splitRoot_run (hok : Ok c F ∅) (hsub : Sub c.sb lo (h + 1) b) (hz : c.sb.bm 0 = true)
    (hb : c.sb.nodes b = some node) (hhas : c.Has first node) (hdone : c.Done)
    (hfull : node.nrKeys = 2 * btreeT - 1) : Runs (splitRoot first) c (RootRun c F h b first node) := by
  have hnok := hsub.nodeOk hb
  have hbo := hsub.owned b mem_blocks_self
  unfold splitRoot
  refine Runs.bind (nodeCreate_run hok hz) ?_
  rintro _ c₁ (⟨x, p, rfl, hcr₁, hok₁, hp₁, hl₁, hs₁⟩ | ⟨rfl, hst, hok₁, hl₁, hs₁, hcan⟩)
  swap
  · exact Runs.pure (.inr ⟨[], rfl, hst, hok₁, hl₁, nofun, hs₁, fun h => hcan (h.mono one_le_two)⟩)
  have hfirst := hok.mem hhas
  have hr₁ := hs₁ first hfirst _ hhas
  have hrp : first ≠ p := hcr₁.ne hok hz hhas hr₁ hp₁
  have hpF : p ∉ F := fun hp => by
    obtain ⟨y, hy⟩ := hok.has hp
    exact hcr₁.ne hok hz hy (hs₁ p hp y hy) hp₁ rfl
  have hxfree : c.sb.bm x = false := (hcr₁.step.free x (List.mem_singleton_self x)).1
  refine Runs.step (onSb_run (nextAlloc_run c₁.sb)) ?_
  cases hmem : !c₁.sb.env.fails c₁.sb.tick with
  | false =>
    let c₂ : Heap := { c₁ with sb := c₁.sb.tried false }
    have hst₂ : TreeStep c.sb c₂.sb [] [x] :=
      hcr₁.step.trans (TreeStep.tried _ false) fun _ h => absurd h List.not_mem_nil
    have hok₂ : Ok c₂ (p ::ₘ F) ∅ := hok₁.onSb (TreeStep.tried _ false)
    refine deleteDeref_run hok₂ hpF hp₁ (hst₂.owned_fresh hz (List.mem_singleton_self x))
      fun c₃ hok₃ hsb₃ hl₃ hs₃ => Runs.pure (.inr ⟨[zeroAt x], rfl, ?_, hok₃, ?_, ?_, ?_, ?_⟩)
    · rw [hsb₃]
      exact TreeStep.dropNode (by exact hst₂)
    · exact hl₁.trans (⟨hl₃.dev, hl₃.log, hl₃.outcome⟩ : Logged c₁ c₃ [])
    · intro m hm
      rw [List.mem_singleton.mp hm]
      exact hxfree
    · exact fun z hz y hy => hs₃ z hz y (hs₁ z hz y hy)
    · rintro ⟨hample, -⟩
      rw [hcr₁.step.env, hample.fails] at hmem
      cases hmem
  | true =>
    rw [if_pos rfl]
    let c₂ : Heap := { c₁ with sb := c₁.sb.tried true }
    let y := c₂.next
    let c₃ : Heap := c₂.alloced Node.zero
    have hok₂ : Ok c₂ (p ::ₘ F) ∅ := hok₁.onSb (TreeStep.tried _ true)
    have hok₃ : Ok c₃ (y ::ₘ p ::ₘ F) ∅ := hok₂.alloced rfl
    have hyp : y ∉ p ::ₘ F := hok₂.next_notMem
    have hs₃ : Same c₁ c₃ (p ::ₘ F) := by
      intro z hzm _ hnode
      have hne : z ≠ y := fun heq => hyp (heq ▸ hzm)
      exact (has_setObj_other (c := c₁) hne _).mpr hnode
    have hst₃ : TreeStep c.sb c₃.sb [] [x] :=
      hcr₁.step.trans (TreeStep.tried _ true) fun _ h => absurd h List.not_mem_nil
    have hz₃ := hst₃.marked hz
    have hy₃ : c₃.Has y Node.zero := ⟨_, setObj_self _, rfl⟩
    have hp₃ := hs₃ p (Multiset.mem_cons_self p F) _ hp₁
    have hr₃ := hs₃ first (Multiset.mem_cons_of_mem hfirst) _ hr₁
    have hl₃ : Logged c c₃ [zeroAt x] := ⟨hl₁.dev, hl₁.log, hl₁.outcome⟩
    refine Runs.step (show nodeAlloc Node.zero c₂ = .ok (y, c₃) from rfl) ?_
    refine Runs.bind (nodeCreate_run hok₃ hz₃) ?_
    rintro _ c₄ (⟨w, q, rfl, hcr₄, hok₄, hq₄, hl₄, hs₄⟩ | ⟨rfl, hst₄, hok₄, hl₄, hs₄, hcan⟩)
    swap
    · have hst : TreeStep c.sb c₄.sb [] [x] := hst₃.trans hst₄ fun _ h => absurd h List.not_mem_nil
      have hp₄ := hs₄ p (Multiset.mem_cons_of_mem (Multiset.mem_cons_self p F)) _ hp₃
      refine (splitRoot_undo hok₄ hyp hpF hp₄ (hst.owned_fresh hz (List.mem_singleton_self x))
        (hs₄ y (Multiset.mem_cons_self y _) _ hy₃) rfl).mono ?_
      rintro r c' ⟨hr, hsb, hok', hl', hs'⟩
      refine .inr ⟨[zeroAt x], hr, ?_, hok', (hl₃.trans hl₄).trans hl', ?_, ?_, fun hcan₂ => hcan ?_⟩
      · rw [hsb]
        exact TreeStep.dropNode (by exact hst)
      · intro m hm
        rw [List.mem_singleton.mp hm]
        exact hxfree
      · intro z hz y hy
        have hz' : z ∈ p ::ₘ F := Multiset.mem_cons_of_mem hz
        exact hs' z hz y (hs₄ z (Multiset.mem_cons_of_mem hz') y (hs₃ z hz' y (hs₁ z hz y hy)))
      · refine ⟨hst₃.ample hcan₂.1, ?_⟩
        rw [hl₃.outcome]
        exact hcan₂.2
    · exact splitRoot_last hok hsub hz hb hhas hdone hfull hcr₁ hpF hrp
        ⟨hok₃, hyp, hr₃, hp₃, hy₃, hl₃, rfl, fun z hz y hy =>
          hs₃ z (Multiset.mem_cons_of_mem hz) y (hs₁ z hz y hy)⟩ hcr₄ hok₄ hq₄ hl₄ hs₄

/-- Reading the child at `i`. -/
lemma At.read_child (hat : At c first n F lo (h + 1) b node) (hi : i ≤ node.nrKeys) : ∃ child m c₁,
    getChildVal node i = .ok (node.child i) ∧ nodeRead (node.child i) c = .ok (some m, c₁) ∧
      AtChild c₁ first n m F lo h b i node child ∧ Quiet c c₁ ∧ Same c c₁ (cursor first n F) := by
  have hok := hat.sub.nodeOk hat.stored
  have hchild := hat.sub.child hat.stored hi
  obtain ⟨child, hc, hcok⟩ := hchild.node
  have hget := getChildVal_eq hok.pages (hi.trans_lt (Nat.lt_of_succ_lt hok.nrKeys_lt_childSlots))
  obtain ⟨_, c₁, hrun, m, rfl, hok₁, hm₁, hq₁, hs₁⟩ :=
    nodeRead_run hat.ok (hchild.owned _ mem_blocks_self) hc hcok.block
  refine ⟨child, m, c₁, hget, hrun, ⟨hq₁.sb ▸ hat.sub, hq₁.sb ▸ hat.zero, hq₁.sb ▸ hat.stored, hi, hq₁.sb ▸ hc,
    hs₁ n (hat.ok.mem hat.has) _ hat.has, hm₁, hok₁, hat.mem, fun hn y hy => ?_⟩, hq₁, hs₁⟩
  obtain ⟨y', hy'⟩ := hat.ok.has (mem_cursor hat.mem)
  rw [hq₁.sb, hy.unique (hs₁ first (mem_cursor hat.mem) y' hy')]
  exact hat.apart hn y' hy'

/-- The body of `nkfs_btree_node_insert_nonfull` at an interior node, for a new key. -/
lemma insert_interior (hat : At c first n F lo (h + 1) b node) (hno : hasKey node k = .ok none) (fuel : ℕ) :
    ∃ i child m c₁, node.IsRank k i ∧ AtChild c₁ first n m F lo h b i node child ∧ Quiet c c₁ ∧
      Same c c₁ (cursor first n F) ∧
      insertNonfull first k v replace (fuel + 1) n c = (if child.isFull then do
          if ← splitFull first n m i node child then insertNonfull first k v replace fuel n
          else return .error .eio
        else do
          derefUnless first n
          insertNonfull first k v replace fuel m : P (Except Errno Unit)) c₁ := by
  have hok := hat.sub.nodeOk hat.stored
  obtain ⟨i, hi, hr⟩ := hat.sub.rank hat.stored hok k
  obtain ⟨child, m, c₁, hget, hread, hat₁, hq₁, hs₁⟩ := hat.read_child hr.le
  have hleaf : node.leaf = false := hok.leaf
  refine ⟨i, child, m, c₁, hr, hat₁, hq₁, hs₁, ?_⟩
  rw [insertNonfull, run_bind_ok (getNode_run hat.has), run_bind_ok (slots_run hno)]
  show (if node.leaf then _ else _ : P (Except Errno Unit)) c = _
  rw [hleaf, if_neg Bool.false_ne_true, run_bind_ok (slots_run hi), run_bind_ok (slots_run hget),
    run_bind_ok hread]
  exact run_bind_ok (getNode_run hat₁.hasChild)

/-- The cursor moves to the child. -/
lemma AtChild.move (hat : AtChild c first n m F lo h b i node child) : Runs (derefUnless first n) c fun _ c' =>
    At c' first m F (btreeT - 1) h (node.child i) child ∧ Quiet c c' ∧ Same c c' F := by
  have hok := hat.ok
  rw [← cursor_cons] at hok
  refine (derefUnless_run hok).mono fun _ c' ⟨hok', hq', hs'⟩ => ⟨?_, hq', hs'.mono fun x hx =>
    Multiset.mem_cons_of_mem hx⟩
  refine ⟨hq'.sb ▸ hat.sub.child hat.stored hat.le, hq'.sb ▸ hat.zero, hq'.sb ▸ hat.storedChild,
    hs' m (Multiset.mem_cons_self m F) _ hat.hasChild, ?_, hat.mem, fun _ y hy => ?_⟩
  · rw [cursor_of_ne hat.ne_first]
    exact hok'
  · obtain ⟨y', hy'⟩ := hat.ok.has (Multiset.mem_cons_of_mem (mem_cursor hat.mem))
    have heq := hy.unique (hs' first (Multiset.mem_cons_of_mem hat.mem) y' hy')
    rw [hq'.sb, heq]
    intro hmem
    by_cases hn : n = first
    · subst hn
      rw [← hat.has.unique hy', (hat.sub.nodeOk hat.stored).block] at hmem
      exact hat.sub.notMem_child hat.stored hat.le hmem
    · exact hat.apart hn y' hy' (mem_blocks_child hat.stored hat.le hmem)

lemma Quiet.canCreate {c₁ : Heap} (hq : Quiet c c₁) {room : ℕ} (hcan : c.CanCreate room) : c₁.CanCreate room := by
  rw [Heap.CanCreate, hq.sb, hq.outcome]
  exact hcan

lemma InsertRun.of_quiet {c₁ : Heap} {r : Except Errno Unit} {room : ℕ} (hq : Quiet c c₁) (hs : Same c c₁ F)
    (hrun : InsertRun c₁ F k v replace room h b node r c') : InsertRun c F k v replace room h b node r c' := by
  obtain ⟨ws, hins, hok, hl, hb, hfull⟩ := hrun
  exact ⟨ws, hq.sb ▸ hins, hok, hq.logged.trans hl, hs.blocks.trans hb, fun hr hcan => hfull hr (hq.canCreate hcan)⟩

lemma InsertRun.mono {r : Except Errno Unit} {room room' : ℕ} (hrun : InsertRun c F k v replace room h b node r c')
    (hle : room ≤ room') : InsertRun c F k v replace room' h b node r c' := by
  obtain ⟨ws, hins, hok, hl, hb, hfull⟩ := hrun
  exact ⟨ws, hins, hok, hl, hb, fun hr hcan => hfull hr (hcan.mono hle)⟩

/-- The insertion runs as it should at every node with room that has `h` levels below it, and creates at most one
node for each of them. -/
def RunsAt (k : Key) (v : ℕ) (replace : Bool) (h fuel : ℕ) : Prop :=
  ∀ ⦃c : Heap⦄ ⦃first n : ℕ⦄ ⦃F : Multiset ℕ⦄ ⦃lo b : ℕ⦄ ⦃node : Node⦄, At c first n F lo h b node → c.Done →
    node.nrKeys < 2 * btreeT - 1 →
    Runs (insertNonfull first k v replace fuel n) c (InsertRun c F k v replace h h b node)

lemma Quiet.done {c₁ : Heap} (hq : Quiet c c₁) (hdone : c.Done) : c₁.Done := by
  rw [Heap.Done, hq.outcome]
  exact hdone

/-- On to a child with room. -/
lemma insert_down {fuel : ℕ} (ih : RunsAt k v replace h fuel)
    (hat : AtChild c first n m F lo h b i node child) (hdone : c.Done) (hr : node.IsRank k i)
    (habs : ∀ j < node.nrKeys, node.key j ≠ k) (hlt : child.nrKeys < 2 * btreeT - 1) :
    Runs (derefUnless first n >>= fun _ => insertNonfull first k v replace fuel m) c
      (InsertRun c F k v replace h (h + 1) b node) := by
  refine Runs.bind hat.move fun _ c₁ ⟨hat₁, hq₁, hs₁⟩ => ?_
  refine (ih hat₁ (hq₁.done hdone) hlt).mono fun r c' ⟨ws, hins, hok, hl, hb, hfull⟩ => ?_
  refine ⟨ws, ?_, hok, hq₁.logged.trans hl, hs₁.blocks.trans hb, fun hr hcan => hfull hr (hq₁.canCreate hcan)⟩
  rw [hq₁.sb] at hins
  exact .down habs hr hat.storedChild hlt hins

/-- One level down: the child on the way has room. -/
lemma insert_descend {fuel : ℕ} (ih : RunsAt k v replace h fuel) (hat : At c first n F lo (h + 1) b node)
    (hdone : c.Done) (hroom : ChildRoom c.sb node k) :
    Runs (insertNonfull first k v replace (fuel + 1) n) c (InsertRun c F k v replace h (h + 1) b node) := by
  have hok := hat.sub.nodeOk hat.stored
  rcases (increasing_of_sorted (hat.sub.sorted_inorder hat.stored)).cases hok.nrKeys_lt_keySlots.le k with
    ⟨i, hkey, hi, rfl⟩ | ⟨hno, habs⟩
  · exact insert_present hat hdone hi hkey fuel _
  · obtain ⟨i, child, m, c₁, hr, hat₁, hq₁, hs₁, heq⟩ := insert_interior hat hno fuel
    have hlt := hroom i child hr (hq₁.sb ▸ hat₁.storedChild)
    rw [if_neg fun hfull => hlt.ne (isFull_iff.mp hfull)] at heq
    obtain ⟨r, c', hrun, hpost⟩ := insert_down ih hat₁ (hq₁.done hdone) hr habs hlt
    exact ⟨r, c', heq.trans hrun, hpost.of_quiet hq₁ (hs₁.mono fun x hx => mem_cursor hx)⟩

/-- The loop is still in place after a split. -/
lemma AtChild.split {s₁ : Sb} {w : ℕ} (hat : AtChild c first n m F lo h b i node child)
    (hn : node.nrKeys < 2 * btreeT - 1) (hfull : child.nrKeys = 2 * btreeT - 1) (hcr : Created c.sb s₁ w)
    (hsb : c'.sb = s₁.splitDone node child i (zeroAt w)) (hok : Ok c' (cursor first n F) ∅)
    (hhas : c'.Has n (splitNode node child i (zeroAt w)))
    (hothers : ∀ x ∈ F, x ≠ n → x ≠ m → ∀ y, c.Has x y → c'.Has x y) :
    At c' first n F lo (h + 1) b (splitNode node child i (zeroAt w)) := by
  obtain ⟨hre, hb', -, -⟩ := Reshape.splitDone hat.sub hat.zero hat.stored hn hat.le hat.storedChild hfull
    hcr.step hcr.fails
  refine ⟨hsb ▸ hre.sub, hsb ▸ hre.step.marked hat.zero, hsb ▸ hb', hhas, hok, hat.mem, fun hne y hy => ?_⟩
  obtain ⟨y', hy'⟩ := hat.ok.has (Multiset.mem_cons_of_mem (mem_cursor hat.mem))
  have heq := hy.unique (hothers first hat.mem (Ne.symm hne) hat.ne_first.symm y' hy')
  rw [hsb, heq]
  refine fun hmem => ?_
  rcases mem_cons.mp (hre.perm.mem_iff.mp hmem) with hw | hold
  · exact hcr.block_ne hat.ok hat.zero hy' hw
  · exact hat.apart hne y' hy' hold

/-- At a node with room: the child on the way is split first if it is full. -/
lemma insert_level {fuel : ℕ} (ih : RunsAt k v replace h fuel) (ih' : RunsAt k v replace h (fuel + 1))
    (hat : At c first n F lo (h + 1) b node) (hdone : c.Done) (hn : node.nrKeys < 2 * btreeT - 1) :
    Runs (insertNonfull first k v replace (fuel + 2) n) c (InsertRun c F k v replace (h + 1) (h + 1) b node) := by
  have hok := hat.sub.nodeOk hat.stored
  rcases (increasing_of_sorted (hat.sub.sorted_inorder hat.stored)).cases hok.nrKeys_lt_keySlots.le k with
    ⟨i, hkey, hi, rfl⟩ | ⟨hno, habs⟩
  · exact insert_present hat hdone hi hkey (fuel + 1) _
  obtain ⟨i, child, m, c₁, hr, hat₁, hq₁, hs₁, heq⟩ := insert_interior hat hno (fuel + 1)
  have hdone₁ := hq₁.done hdone
  suffices hruns : Runs _ c₁ (InsertRun c₁ F k v replace (h + 1) (h + 1) b node) by
    obtain ⟨r, c', hrun, hpost⟩ := hruns
    exact ⟨r, c', heq.trans hrun, hpost.of_quiet hq₁ (hs₁.mono fun x hx => mem_cursor hx)⟩
  by_cases hfull : child.isFull = true
  swap
  · have hcok := (hat₁.sub.child hat₁.stored hat₁.le).nodeOk hat₁.storedChild
    rw [if_neg hfull]
    have hlt : child.nrKeys < 2 * btreeT - 1 := lt_of_le_of_ne hcok.le fun h => hfull (isFull_iff.mpr h)
    exact (insert_down ih' hat₁ hdone₁ hr habs hlt).mono fun _ _ hpost => hpost.mono h.le_succ
  rw [if_pos hfull]
  rw [isFull_iff] at hfull
  refine Runs.bind (splitFull_run hat₁ hdone₁ hn hfull) ?_
  rintro _ c₂ (⟨rfl, s₁, w, hcr, hsb, hok₂, hl₂, hn₂, hb₂, ho₂⟩ | ⟨rfl, hst, hok₂, hl₂, hs₂, hcan⟩)
  · -- the key goes to one of the halves, which have room
    have hroom : ChildRoom c₂.sb (splitNode node child i (zeroAt w)) k := by
      obtain ⟨-, -, hc', hw'⟩ := Reshape.splitDone hat₁.sub hat₁.zero hat₁.stored hn hat₁.le hat₁.storedChild
        hfull hcr.step hcr.fails
      rw [hsb]
      exact ChildRoom.halves hr hc' hw'
    have hdone₂ : c₂.Done := by
      rw [Heap.Done, hl₂.outcome]
      exact hdone₁
    rw [if_pos rfl]
    refine (insert_descend ih (hat₁.split hn hfull hcr hsb hok₂ hn₂ ho₂) hdone₂ hroom).mono ?_
    rintro r c' ⟨ws, hins, hok', hl', hb', hroom'⟩
    have hample : c₁.CanCreate (h + 1) → c₂.CanCreate h := fun hcan => by
      obtain ⟨hre, -⟩ := Reshape.splitDone hat₁.sub hat₁.zero hat₁.stored hn hat₁.le hat₁.storedChild hfull
        hcr.step hcr.fails
      refine ⟨?_, by rw [hl₂.outcome]; exact hcan.2⟩
      rw [hsb]
      exact hre.step.ample hcan.1
    rw [hsb] at hins
    exact ⟨_, .split habs hr hat₁.storedChild hfull hn hcr hins, hok', hl₂.trans hl', hb₂.trans hb',
      fun hr hcan => hroom' hr (hample hcan)⟩
  · rw [if_neg Bool.false_ne_true]
    exact Runs.pure ⟨[], .refused habs hr hat₁.storedChild hfull hst, hok₂, hl₂, hs₂.blocks,
      fun _ hcan' => hcan (hcan'.mono (Nat.le_add_left 1 h))⟩

/-- **The descent.** Every run is a list of insertion steps and returns the references it took. -/
theorem insertNonfull_run (k : Key) (v : ℕ) (replace : Bool) : ∀ h fuel : ℕ, 2 * h < fuel →
    RunsAt k v replace h fuel
  | _, 0, hf => absurd hf (Nat.not_lt_zero _)
  | 0, fuel + 1, _ => by
    intro c first n F lo b node hat hdone hn
    have hok := hat.sub.nodeOk hat.stored
    rcases (increasing_of_sorted (hat.sub.sorted_inorder hat.stored)).cases hok.nrKeys_lt_keySlots.le k with
      ⟨i, hkey, hi, rfl⟩ | ⟨hno, habs⟩
    · exact insert_present hat hdone hi hkey fuel _
    · exact insert_leaf hat hdone hn hno habs fuel _
  | h + 1, 1, hf => absurd hf (by omega)
  | h + 1, fuel + 2, hf => fun _ _ _ _ _ _ _ hat hdone hn =>
    insert_level (insertNonfull_run k v replace h fuel (by omega))
      (insertNonfull_run k v replace h (fuel + 1) (by omega)) hat hdone hn

end run

/-! ### Whole trees -/

/-- A tree in service: it has one reference, on the node at its root block. -/
structure InService (c : Heap) (t : TreeObj) (strict : Bool) (b h : ℕ) (es : List (Key × ℕ)) (bs : List ℕ) : Prop where
  ok : Ok c {t.root} ∅
  tree : IsTree c.sb strict b h es bs
  root : ∃ node, c.Has t.root node ∧ node.block = b
  running : t.releasing = false

/-- A tree whose root node `root` has just been read, over a device that holds the nodes of `s`. -/
def Heap.opened (s : Sb) (root : Node) (outcome : WriteSite → ℕ → WriteOutcome) : Heap where
  sb := s
  dev := s.nodes
  log := []
  outcome := outcome
  writes _ := 0
  objs := Function.update (fun _ => none) 0 (some ⟨root, 1⟩)
  next := 1
  nodes := Function.update (fun _ => none) root.block (some 0)
  nodesActive := 1

/-- It is in service. -/
lemma inService_opened {s : Sb} {strict : Bool} {b h : ℕ} {es : List (Key × ℕ)} {bs : List ℕ} {root : Node}
    (ht : IsTree s strict b h es bs) (hb : s.nodes b = some root) (outcome : WriteSite → ℕ → WriteOutcome) :
    InService (Heap.opened s root outcome) ⟨0, false⟩ strict b h es bs := by
  obtain ⟨h, rfl⟩ := ht.succ
  have hblock := (ht.sub.nodeOk hb).block
  have hown := ht.sub.owned b mem_blocks_self
  have hzero : (Heap.opened s root outcome).objs 0 = some ⟨root, 1⟩ := rfl
  have hobj : ∀ {n o}, (Heap.opened s root outcome).objs n = some o → n = 0 ∧ o = ⟨root, 1⟩ := by
    intro n o ho
    change update (fun _ => none) 0 (some ⟨root, 1⟩) n = some o at ho
    by_cases hn : n = 0
    · subst hn
      rw [update_self, Option.some.injEq] at ho
      exact ⟨rfl, ho.symm⟩
    · rw [update_of_ne hn] at ho
      cases ho
  have hhas : ∀ {n node}, (Heap.opened s root outcome).Has n node ↔ n = 0 ∧ node = root := by
    intro n node
    constructor
    · rintro ⟨o, ho, rfl⟩
      obtain ⟨rfl, rfl⟩ := hobj ho
      exact ⟨rfl, rfl⟩
    · rintro ⟨rfl, rfl⟩
      exact ⟨_, hzero, rfl⟩
  have hcache : ∀ {x n}, (Heap.opened s root outcome).nodes x = some n ↔ x = b ∧ n = 0 := by
    intro x n
    change update (fun _ => none) root.block (some 0) x = some n ↔ _
    rw [hblock]
    by_cases hx : x = b
    · subst hx
      rw [update_self, Option.some.injEq]
      exact ⟨fun h => ⟨rfl, h.symm⟩, fun h => h.2.symm⟩
    · rw [update_of_ne hx]
      exact ⟨nofun, fun h => absurd h.1 hx⟩
  refine ⟨⟨fun n => ?_, fun ho => ?_, fun ho => ?_, fun x n => ?_, fun hx => ?_, fun hn _ _ => ?_, ?_⟩, ht,
    ⟨root, hhas.mpr ⟨rfl, rfl⟩, hblock⟩, rfl⟩
  · rw [Multiset.mem_singleton]
    exact ⟨fun hn => ⟨_, (congrArg _ hn).trans hzero⟩, fun ⟨_, ho⟩ => (hobj ho).1⟩
  · obtain ⟨rfl, rfl⟩ := hobj ho
    rw [Multiset.count_singleton_self]
    rfl
  · rw [(hobj ho).1]
    exact Nat.one_pos
  · rw [hcache]
    constructor
    · rintro ⟨rfl, rfl⟩
      exact ⟨hown.ne_zero, root, hhas.mpr ⟨rfl, rfl⟩, hblock⟩
    · rintro ⟨-, node, hnode, rfl⟩
      obtain ⟨rfl, rfl⟩ := hhas.mp hnode
      exact ⟨hblock, rfl⟩
  · rw [(hcache.mp hx).1]
    exact hown.marked
  · rw [(hhas.mp hn).2, hblock]
    exact hb
  · refine ⟨{b}, fun x => ?_, rfl⟩
    rw [Finset.mem_singleton, Option.isSome_iff_exists]
    exact ⟨fun hx => ⟨0, hcache.mpr ⟨hx, rfl⟩⟩, fun ⟨_, hn⟩ => (hcache.mp hn).1⟩

/-- The steps of `nkfs_btree_insert_key` on a tree with the root `n` at block `b` and `h` levels below it. -/
inductive KeyInsertion (k : Key) (v : ℕ) (replace : Bool) (s : Sb) (h b : ℕ) (n : Node) :
    List Node → Except Errno Unit → Sb → Prop
  | direct {ws : List Node} {r : Except Errno Unit} {s' : Sb} (hlt : n.nrKeys < 2 * btreeT - 1)
      (hins : Insertion k v replace s h b n ws r s') : KeyInsertion k v replace s h b n ws r s'
  | grown {ws : List Node} {r : Except Errno Unit} {s₁ s' : Sb} {root : Node} {x w : ℕ}
      (hfull : n.nrKeys = 2 * btreeT - 1) (hsplit : RootSplit s s₁ h b n root x w)
      (hins : Insertion k v replace s₁ (h + 1) b root ws r s') :
      KeyInsertion k v replace s h b n (rootWrites n root x w ++ ws) r s'
  | refused {ws : List Node} {s' : Sb} (hfull : n.nrKeys = 2 * btreeT - 1) (hst : TreeStep s s' [] [])
      (hfree : ∀ m ∈ ws, s.bm m.block = false) : KeyInsertion k v replace s h b n ws (.error .enomem) s'

section key

variable {c c' : Heap} {t : TreeObj} {strict : Bool} {b h v : ℕ} {es : List (Key × ℕ)} {bs : List ℕ} {k : Key}
  {replace : Bool} {node : Node}

lemma InService.stored (hin : InService c t strict b h es bs) :
    ∃ node, c.Has t.root node ∧ node.block = b ∧ c.sb.nodes b = some node := by
  obtain ⟨node, hhas, rfl⟩ := hin.root
  obtain ⟨h, rfl⟩ := hin.tree.succ
  have hne : node.block ≠ 0 := (hin.tree.sub.owned _ mem_blocks_self).ne_zero
  exact ⟨node, hhas, rfl, hin.ok.synced hhas (Set.notMem_empty _) hne⟩

/-- A loop that starts at the root. -/
lemma InService.at (hin : InService c t strict b (h + 1) es bs) (hhas : c.Has t.root node)
    (hb : c.sb.nodes b = some node) : At c t.root t.root {t.root} (rootLo strict (h + 1)) h b node where
  sub := hin.tree.sub
  zero := hin.tree.zero
  stored := hb
  has := hhas
  ok := by
    rw [cursor_self]
    exact hin.ok
  mem := Multiset.mem_singleton_self _
  apart hne := absurd rfl hne

/-- What `nkfs_btree_insert_key` returns with. -/
def InsertKeyRun (c : Heap) (t : TreeObj) (k : Key) (v : ℕ) (replace : Bool) (h b : ℕ) (r : Except Errno Unit)
    (c' : Heap) : Prop :=
  ∃ node ws, c.Has t.root node ∧ c.sb.nodes b = some node ∧ KeyInsertion k v replace c.sb h b node ws r c'.sb ∧
    Ok c' {t.root} ∅ ∧ Logged c c' ws ∧ SameBlocks c c' {t.root} ∧
    (c.CanCreate (h + 3) → r ≠ .error .eio ∧ r ≠ .error .enomem)

/-- The steps of an insertion below a node do not end in `-ENOMEM`. -/
lemma Insertion.ne_enomem {s s' : Sb} {n : Node} {ws : List Node} {r : Except Errno Unit}
    (hins : Insertion k v replace s h b n ws r s') : r ≠ .error .enomem := by
  induction hins with
  | found => exact nofun
  | replaced => exact nofun
  | leaf => exact nofun
  | down _ _ _ _ _ ih => exact ih
  | refused => exact nofun
  | split _ _ _ _ _ _ _ ih => exact ih

/-- **Insertion.** Every run is a list of steps, and the tree has its one reference again. -/
theorem insertKey_run (hin : InService c t strict b (h + 1) es bs) (hdone : c.Done) (k : Key) (v : ℕ)
    (replace : Bool) : Runs (insertKey t k v replace) c (InsertKeyRun c t k v replace h b) := by
  obtain ⟨node, hhas, hblock, hb⟩ := hin.stored
  have hok := hin.tree.sub.nodeOk hb
  have hheight := hin.tree.sub.height_le
  unfold insertKey
  rw [hin.running, if_neg Bool.false_ne_true]
  refine Runs.get (Runs.step (getNode_run hhas) ?_)
  by_cases hfull : node.isFull = true
  · rw [if_pos hfull]
    rw [isFull_iff] at hfull
    refine Runs.bind (splitRoot_run hin.ok hin.tree.sub hin.tree.zero hb hhas hdone hfull) ?_
    rintro _ c₁ (⟨root, x, w, rfl, hsplit, hok₁, hl₁, hhas₁, hs₁⟩ | ⟨ws, rfl, hst, hok₁, hl₁, hfree, hs₁, hcan⟩)
    · have hdone₁ : c₁.Done := by
        rw [Heap.Done, hl₁.outcome]
        exact hdone
      have hat₁ : At c₁ t.root t.root {t.root} 1 (h + 1) b root :=
        ⟨hsplit.shape.sub, hsplit.shape.step.marked hin.tree.zero, hsplit.stored, hhas₁,
          by rw [cursor_self]; exact hok₁, Multiset.mem_singleton_self _, fun hne => absurd rfl hne⟩
      have hheight₁ := hsplit.shape.sub.height_le
      rw [hsplit.shape.step.env] at hheight₁
      refine (insertNonfull_run k v replace (h + 1) c.sb.loopBound ?_ hat₁ hdone₁ ?_).mono ?_
      · unfold Sb.loopBound
        omega
      · rw [hsplit.above.nrKeys]
        decide
      · rintro r c' ⟨ws, hins, hok', hl', hs', hroom⟩
        refine ⟨node, _, hhas, hb, .grown hfull hsplit hins, hok', hl₁.trans hl', hs₁.trans hs', fun hcan => ⟨?_,
          hins.ne_enomem⟩⟩
        refine fun hr => hroom hr ⟨hsplit.shape.step.ample hcan.1, ?_⟩
        rw [hl₁.outcome]
        exact hcan.2
    · refine Runs.pure ⟨node, ws, hhas, hb, .refused hfull hst hfree, hok₁, hl₁, hs₁.blocks, fun hcan' => ?_⟩
      exact absurd (hcan'.mono (Nat.le_add_left 2 (h + 1))) hcan
  · rw [if_neg hfull]
    have hlt : node.nrKeys < 2 * btreeT - 1 := lt_of_le_of_ne hok.le fun h => hfull (isFull_iff.mpr h)
    refine (insertNonfull_run k v replace h c.sb.loopBound ?_ (hin.at hhas hb) hdone hlt).mono ?_
    · unfold Sb.loopBound
      omega
    · rintro r c' ⟨ws, hins, hok', hl', hs', hroom⟩
      exact ⟨node, ws, hhas, hb, .direct hlt hins, hok', hl', hs', fun hcan =>
        ⟨fun hr => hroom hr (hcan.mono (Nat.le_add_right h 3)), hins.ne_enomem⟩⟩

end key

end Nkfs.Refs
