import Nkfs.Btree.Find

/-!
# Splitting full nodes

A split moves the upper half of a full node to a new one. Read from left to right nothing changes:
`halves` says so for the two halves of a node, wherever they are stored, and covers the split of a
child (`Reshape.splitDone`) and of the root, which first moves to a clone (`splitRoot_spec`).
`Reshape` is what both do to a tree: same pairs, same invariant, new blocks taken.
-/

namespace Nkfs

open Lib.Program Lib.Slots Lib.Assoc Function List

/-! ### Two halves of a node -/

/-- The reading of a full node is that of its lower half, the middle key and that of its upper
half. -/
lemma inorder_halves {α : Type} (g f : ℕ → List α) {t : ℕ} (ht : 0 < t) : inorder g f (2 * t - 1) =
      inorder g f (t - 1) ++ f (t - 1) ++ inorder (fun j => g (j + t)) (fun j => f (j + t)) (t - 1) := by
  have hupper : inorder (fun j => g (j + t)) (fun j => f (j + t)) (t - 1) = g t ++ after g f t (t - 1) := by
    rw [inorder_split (Nat.zero_le _), Nat.sub_zero]
    show [] ++ g (0 + t) ++ _ = _
    rw [nil_append, zero_add]
    congr 1
    refine after_congr (fun j _ => ?_) fun j _ => ?_
    · show f (0 + j + t) = f (t + j)
      rw [zero_add, add_comm]
    · show g (0 + j + 1 + t) = g (t + j + 1)
      rw [zero_add, Nat.add_right_comm, add_comm j t]
  rw [inorder_split (show t - 1 ≤ 2 * t - 1 by omega), hupper,
    show 2 * t - 1 - (t - 1) = t - 1 + 1 by omega, after_succ, Nat.sub_add_cancel ht]
  simp only [inorder, append_assoc]

/-- `lower` at block `c` and `upper` at block `w` hold the two halves of the full node `m` with `h`
levels below; `t` is the tree's degree. -/
structure Halves (t : ℕ) (m lower upper : Node) (h c w : ℕ) : Prop where
  full : m.nrKeys = 2 * t - 1
  leaf : m.leaf = decide (h = 0)
  lowerBlock : lower.block = c
  upperBlock : upper.block = w
  lowerPages : lower.AllPages
  upperPages : upper.AllPages
  lowerNr : lower.nrKeys = t - 1
  upperNr : upper.nrKeys = t - 1
  lowerLeaf : lower.leaf = m.leaf
  upperLeaf : upper.leaf = m.leaf
  lowerKv : ∀ j < t - 1, lower.kv j = m.kv j
  upperKv : ∀ j < t - 1, upper.kv j = m.kv (j + t)
  lowerChild : ∀ j < t, lower.child j = m.child j
  upperChild : h ≠ 0 → ∀ j < t, upper.child j = m.child (j + t)

section halves

variable {m lower upper : Node} {nodes nodes' : ℕ → Option Node} {t h c w : ℕ}

/-- A reading of the children of the upper half, for readings that are empty at height 0. -/
lemma Halves.upper_child {α : Type} (hh : Halves t m lower upper h c w)
    (ht : 0 < t) (read : (ℕ → Option Node) → ℕ → ℕ → List α) (hread : ∀ nodes b, read nodes 0 b = [])
    (heq : ∀ j ≤ 2 * t - 1, read nodes' h (m.child j) = read nodes h (m.child j)) :
    ∀ j ≤ t - 1, read nodes' h (upper.child j) = read nodes h (m.child (j + t)) := by
  intro j hj
  by_cases h0 : h = 0
  · subst h0
    rw [hread, hread]
  · rw [hh.upperChild h0 j (by omega)]
    exact heq _ (by omega)

lemma halves (hh : Halves t m lower upper h c w) (ht : t = btreeT) (hc : nodes' c = some lower)
    (hw : nodes' w = some upper)
    (heq : ∀ j ≤ 2 * t - 1, entries nodes' h (m.child j) = entries nodes h (m.child j) ∧
      blocks nodes' h (m.child j) = blocks nodes h (m.child j) ∧
      Shape nodes' (btreeT - 1) h (m.child j)) :
    (inorder (fun i => entries nodes h (m.child i)) m.sep (2 * t - 1) =
      entries nodes' (h + 1) c ++ [m.kv (t - 1)] ++ entries nodes' (h + 1) w) ∧
    (blocks nodes' (h + 1) c ++ blocks nodes' (h + 1) w).Perm
      (w :: c :: inorder (fun i => blocks nodes h (m.child i)) (fun _ => []) (2 * t - 1)) ∧
    Shape nodes' (btreeT - 1) (h + 1) c ∧ Shape nodes' (btreeT - 1) (h + 1) w := by
  have hT : 0 < t := by rw [ht]; decide
  have hlower : ∀ {α : Type} (read : (ℕ → Option Node) → ℕ → ℕ → List α),
      (∀ j ≤ 2 * t - 1, read nodes' h (m.child j) = read nodes h (m.child j)) →
      ∀ j ≤ t - 1, read nodes' h (lower.child j) = read nodes h (m.child j) := by
    intro α read hr j hj
    rw [hh.lowerChild j (by omega)]
    exact hr j (by omega)
  have hle : t - 1 ≤ 2 * t - 1 := by omega
  refine ⟨?_, ?_, ?_, ?_⟩
  · have hlo := inorder_congr (q := m.sep) (fun j hj => hlower entries (fun j hj => (heq j hj).1) j hj)
      (f := lower.sep) fun j hj => congrArg (fun x => [x]) (hh.lowerKv j hj)
    have hup := inorder_congr (q := fun j => m.sep (j + t))
      (fun j hj => hh.upper_child hT entries (fun _ _ => rfl) (fun j hj => (heq j hj).1) j hj)
      (f := upper.sep) fun j hj => congrArg (fun x => [x]) (hh.upperKv j hj)
    rw [inorder_halves _ _ hT, entries_succ hc, entries_succ hw, hh.lowerNr, hh.upperNr, hlo, hup]
  · rw [inorder_halves _ _ hT, blocks_succ hc, blocks_succ hw, hh.lowerNr, hh.upperNr,
      inorder_congr (q := fun _ => [])
        (fun j hj => hlower blocks (fun j hj => (heq j hj).2.1) j hj) (fun _ _ => rfl),
      inorder_congr (q := fun _ => [])
        (fun j hj => hh.upper_child hT blocks (fun _ _ => rfl) (fun j hj => (heq j hj).2.1) j hj)
        (fun _ _ => rfl), append_nil]
    exact perm_middle
  · refine ⟨lower, hc, ⟨hh.lowerBlock, hh.lowerPages, ht ▸ hh.lowerNr.ge, ht ▸ hh.lowerNr.le.trans hle,
      hh.lowerLeaf.trans hh.leaf⟩, fun j hj => ?_⟩
    rw [hh.lowerNr] at hj
    rw [hh.lowerChild j (by omega)]
    exact (heq j (by omega)).2.2
  · refine ⟨upper, hw, ⟨hh.upperBlock, hh.upperPages, ht ▸ hh.upperNr.ge, ht ▸ hh.upperNr.le.trans hle,
      hh.upperLeaf.trans hh.leaf⟩, fun j hj => ?_⟩
    rw [hh.upperNr] at hj
    by_cases h0 : h = 0
    · subst h0
      exact trivial
    · rw [hh.upperChild h0 j (by omega)]
      exact (heq _ (by omega)).2.2

end halves

/-! ### Reshaping a tree -/

/-- The tree of height `h` at `b` became one of height `h'` and took the blocks `fresh`. -/
structure Grow (s s' : Sb) (lo h h' b : ℕ) (fresh : List ℕ) : Prop where
  step : TreeStep s s' (blocks s.nodes h b) fresh
  perm : (blocks s'.nodes h' b).Perm (fresh ++ blocks s.nodes h b)
  sub : Sub s' lo h' b

/-- A tree was rearranged: it grew and holds the same pairs. -/
structure Reshape (s s' : Sb) (lo h h' b : ℕ) (fresh : List ℕ) : Prop
    extends Grow s s' lo h h' b fresh where
  entries_eq : entries s'.nodes h' b = entries s.nodes h b
  fails : s'.allocFails = s.allocFails

section write

variable {s s' : Sb} {bs fresh : List ℕ} {n : Node}

/-- A step followed by writing a node that the tree owns. -/
lemma TreeStep.andWrite (hst : TreeStep s s' bs fresh) (hn : n.block ∈ bs ∨ n.block ∈ fresh) :
    TreeStep s (s'.writeNode n) bs fresh :=
  hst.trans (TreeStep.writeNode s' n) fun x hx => by
    rw [mem_singleton.mp hx]
    exact hn

lemma Sb.writeNode_self : (s.writeNode n).nodes n.block = some n := update_self ..

lemma Sb.writeNode_of_ne {x : ℕ} (hx : x ≠ n.block) : (s.writeNode n).nodes x = s.nodes x :=
  update_of_ne hx ..

/-- The invariant of a tree after a step, from its shape, order and blocks. -/
lemma Grow.intro {lo lo' h h' b : ℕ} (ht : Sub s lo' h b) (hz : s.bm 0 = true)
    (hst : TreeStep s s' (blocks s.nodes h b) fresh)
    (hperm : (blocks s'.nodes h' b).Perm (fresh ++ blocks s.nodes h b))
    (hshape : Shape s'.nodes lo h' b) (hs : Sorted (entries s'.nodes h' b)) :
    Grow s s' lo h h' b fresh where
  step := hst
  perm := hperm
  sub :=
    { shape := hshape
      sorted := hs
      nodup := hperm.nodup_iff.mpr (hst.nodup_append ht)
      owned := fun x hx => by
        rcases mem_append.mp (hperm.mem_iff.mp hx) with hx | hx
        · exact hst.owned_fresh hz hx
        · exact hst.owned (ht.owned x hx) }

lemma Grow.refl {lo h b : ℕ} (ht : Sub s lo h b) : Grow s s lo h h b [] :=
  ⟨TreeStep.refl s _, List.Perm.refl _, ht⟩

lemma Grow.trans {s₁ : Sb} {lo lo' h h₁ h' b : ℕ} {fresh₁ : List ℕ}
    (g₁ : Grow s s₁ lo h h₁ b fresh) (g₂ : Grow s₁ s' lo' h₁ h' b fresh₁) :
    Grow s s' lo' h h' b (fresh₁ ++ fresh) where
  step := g₁.step.trans g₂.step fun _ hx =>
    (mem_append.mp (g₁.perm.mem_iff.mp hx)).symm
  perm := by
    rw [append_assoc]
    exact g₂.perm.trans (g₁.perm.append_left fresh₁)
  sub := g₂.sub

/-- The invariant of a rearranged tree. -/
lemma Reshape.intro {lo lo' h h' b : ℕ} (ht : Sub s lo' h b) (hz : s.bm 0 = true)
    (hst : TreeStep s s' (blocks s.nodes h b) fresh)
    (hperm : (blocks s'.nodes h' b).Perm (fresh ++ blocks s.nodes h b))
    (hshape : Shape s'.nodes lo h' b) (hent : entries s'.nodes h' b = entries s.nodes h b)
    (hfails : s'.allocFails = s.allocFails) : Reshape s s' lo h h' b fresh where
  toGrow := Grow.intro ht hz hst hperm hshape (hent ▸ ht.sorted)
  entries_eq := hent
  fails := hfails

end write

/-! ### Splitting a child -/

section child

variable {s s₁ : Sb} {n m : Node} {lo h b c w i : ℕ}

/-- The state after the split of child `m` of `n`: both halves and the parent are written. -/
def Sb.splitDone (s : Sb) (n m : Node) (i : ℕ) (new : Node) : Sb :=
  ((s.writeNode (splitNode n m i new)).writeNode { m with nrKeys := btreeT - 1 }).writeNode
    (splitNew m new)

lemma splitNode_child_lt {j : ℕ} {new : Node} (hj : j ≤ i) :
    (splitNode n m i new).child j = n.child j := insertSlot_of_lt (Nat.lt_succ_of_le hj)

lemma splitNode_child_new {new : Node} : (splitNode n m i new).child (i + 1) = new.block :=
  insertSlot_self

lemma splitNode_child_gt {j : ℕ} {new : Node} (hi : i < j) (hj : j ≤ n.nrKeys) :
    (splitNode n m i new).child (j + 1) = n.child j := insertSlot_succ hi (Nat.lt_succ_of_le hj)

/-- A reading of the parent after a split, around the two halves. -/
lemma inorder_splitNode {α : Type} (new : Node) (read read' : ℕ → List α) {f q : ℕ → List α}
    (hi : i ≤ n.nrKeys) (hflt : ∀ j < i, q j = f j)
    (hfge : ∀ j, i ≤ j → j < n.nrKeys → q (j + 1) = f j)
    (hsib : ∀ j ≤ n.nrKeys, j ≠ i → read' (n.child j) = read (n.child j)) :
    inorder (fun j => read' ((splitNode n m i new).child j)) q (n.nrKeys + 1) =
      upto (fun j => read (n.child j)) f i ++ (read' (n.child i) ++ q i ++ read' new.block) ++
        after (fun j => read (n.child j)) f i (n.nrKeys - i) := by
  rw [inorder_insert hi hflt hfge (g := fun j => read (n.child j)), splitNode_child_lt le_rfl,
    splitNode_child_new]
  · intro j hj
    rw [splitNode_child_lt hj.le]
    exact hsib j (hj.le.trans hi) hj.ne
  · intro j hij hj
    rw [splitNode_child_gt hij hj]
    exact hsib j hj hij.ne'

/-- The two nodes after a split are the halves of the child. -/
lemma halves_splitNew (hok : NodeOk m lo h c) (hfull : m.nrKeys = 2 * btreeT - 1) :
    Halves btreeT m { m with nrKeys := btreeT - 1 } (splitNew m { Node.zero with block := w }) h c w where
  full := hfull
  leaf := hok.leaf
  lowerBlock := hok.block
  upperBlock := rfl
  lowerPages := hok.pages
  upperPages _ := rfl
  lowerNr := rfl
  upperNr := rfl
  lowerLeaf := rfl
  upperLeaf := rfl
  lowerKv _ _ := rfl
  upperKv _ hj := if_pos hj
  lowerChild _ _ := rfl
  upperChild h0 j hj := by
    show (if m.leaf then _ else _ : ℕ → ℕ) j = _
    rw [hok.leaf, decide_eq_false h0, if_neg Bool.false_ne_true]
    exact if_pos hj

/-- **Splitting a child.** Writing the two halves and the parent rearranges the tree. -/
theorem Reshape.splitDone (ht : Sub s lo (h + 2) b) (hz : s.bm 0 = true) (hb : s.nodes b = some n)
    (hn : n.nrKeys < 2 * btreeT - 1) (hi : i ≤ n.nrKeys) (hc : s.nodes (n.child i) = some m)
    (hfull : m.nrKeys = 2 * btreeT - 1) (hst : TreeStep s s₁ [] [w])
    (hfails : s₁.allocFails = s.allocFails) :
    let new : Node := { Node.zero with block := w }
    Reshape s (s₁.splitDone n m i new) lo (h + 2) (h + 2) b [w] ∧
      (s₁.splitDone n m i new).nodes b = some (splitNode n m i new) ∧
      (s₁.splitDone n m i new).nodes (n.child i) = some { m with nrKeys := btreeT - 1 } ∧
      (s₁.splitDone n m i new).nodes w = some (splitNew m new) := by
  intro new
  obtain ⟨n', hn', hok, hkids⟩ := ht.shape
  rw [hb, Option.some.injEq] at hn'
  subst hn'
  have hchild := ht.child hb hi
  have hmok := hchild.nodeOk hc
  have hnb : (splitNode n m i new).block = b := hok.block
  have hmb : ({ m with nrKeys := btreeT - 1 } : Node).block = n.child i := hmok.block
  have hwb : (splitNew m new).block = w := rfl
  have hbc : b ≠ n.child i := fun h => ht.notMem_child hb hi (h ▸ mem_blocks_self)
  have hfresh : ∀ x, s.Owned x → x ≠ w := fun x hx hxw => by
    have hfree := (hst.free w (List.mem_singleton_self w)).1
    rw [← hxw, hx.marked] at hfree
    cases hfree
  have hbw : b ≠ w := hfresh b (ht.owned b mem_blocks_self)
  have hcw : n.child i ≠ w := hfresh _ (hchild.owned _ mem_blocks_self)
  have hb₄ : (s₁.splitDone n m i new).nodes b = some (splitNode n m i new) := by
    rw [Sb.splitDone, Sb.writeNode_of_ne (hwb ▸ hbw), Sb.writeNode_of_ne (hmb ▸ hbc), ← hnb,
      Sb.writeNode_self]
  have hc₄ : (s₁.splitDone n m i new).nodes (n.child i) = some { m with nrKeys := btreeT - 1 } := by
    rw [Sb.splitDone, Sb.writeNode_of_ne (hwb ▸ hcw), ← hmb, Sb.writeNode_self]
  have hw₄ : (s₁.splitDone n m i new).nodes w = some (splitNew m new) := Sb.writeNode_self
  refine ⟨?_, hb₄, hc₄, hw₄⟩
  have hst₄ : TreeStep s (s₁.splitDone n m i new) [b, n.child i] [w] :=
    (((hst.mono fun x hx => absurd hx List.not_mem_nil).andWrite
      (Or.inl (hnb ▸ List.mem_cons_self ..))).andWrite
      (Or.inl (hmb ▸ List.mem_cons_of_mem _ (List.mem_singleton_self _)))).andWrite
      (Or.inr (List.mem_singleton_self w))
  -- the subtrees that the split does not touch: the other children and the grandchildren
  have hsib : ∀ j ≤ n.nrKeys, j ≠ i → _ := fun j hj hji => hst₄.subtree (ht.child hb hj)
    fun x hx hmem => by
      rcases List.mem_pair.mp hmem with rfl | rfl
      · exact ht.notMem_child hb hj hx
      · exact ht.disjoint_children hb hj hi hji hx mem_blocks_self
  have hgrand : ∀ j ≤ m.nrKeys, _ := fun j hj => hst₄.subtree (hchild.child hc hj)
    fun x hx hmem => by
      rcases List.mem_pair.mp hmem with rfl | rfl
      · exact ht.notMem_child hb hi (mem_blocks_child hc hj hx)
      · exact hchild.notMem_child hc hj hx
  obtain ⟨hent, hblk, hlow, hup⟩ := halves (halves_splitNew hmok hfull) rfl hc₄ hw₄
    fun j hj => (hgrand j (hfull ▸ hj)).imp_right fun hr => hr.imp_right Sub.shape
  have hent' : entries (s₁.splitDone n m i new).nodes (h + 2) b = entries s.nodes (h + 2) b := by
    have hread := inorder_splitNode (m := m) new (entries s.nodes (h + 1))
      (entries (s₁.splitDone n m i new).nodes (h + 1)) (f := n.sep)
      (q := (splitNode n m i new).sep) hi
      (fun j hj => congrArg (fun x => [x]) (insertSlot_of_lt hj))
      (fun j hij hj => congrArg (fun x => [x]) (insertSlot_succ hij hj))
      fun j hj hji => (hsib j hj hji).1
    have hmed : (splitNode n m i new).kv i = m.kv (btreeT - 1) := insertSlot_self
    rw [entries_succ hb₄, entries_succ hb, inorder_split hi, entries_succ hc, hfull, hent, ← hmed]
    exact hread
  have hblk' : (blocks (s₁.splitDone n m i new).nodes (h + 2) b).Perm
      ([w] ++ blocks s.nodes (h + 2) b) := by
    have hread := inorder_splitNode (m := m) new (blocks s.nodes (h + 1))
      (blocks (s₁.splitDone n m i new).nodes (h + 1)) (f := fun _ => [])
      (q := fun _ => []) hi (fun _ _ => rfl) (fun _ _ _ => rfl)
      fun j hj hji => (hsib j hj hji).2.1
    rw [blocks_succ hb₄, blocks_succ hb, inorder_split hi, blocks_succ hc, hfull]
    refine (List.Perm.of_eq (congrArg (b :: ·) hread)).trans ?_
    rw [List.append_nil]
    refine (((hblk.append_left _).append_right _).cons b).trans ?_
    -- the new block moves to the front
    refine (((List.perm_middle (a := w)).append_right _).cons b).trans ?_
    exact List.Perm.swap w b _
  refine Reshape.intro ht hz (hst₄.mono ?_) hblk' ?_ hent' hfails
  · intro x hx
    rcases List.mem_pair.mp hx with rfl | rfl
    · exact mem_blocks_self
    · exact mem_blocks_child hb hi mem_blocks_self
  · refine ⟨splitNode n m i new, hb₄, ⟨hnb, hok.pages, hok.lo_le.trans n.nrKeys.le_succ, hn,
      hok.leaf⟩, fun j hj => ?_⟩
    rcases lt_trichotomy j (i + 1) with hlt | rfl | hgt
    · rw [splitNode_child_lt (Nat.le_of_lt_succ hlt)]
      rcases (Nat.le_of_lt_succ hlt).lt_or_eq with hji | rfl
      · exact (hsib j (hji.le.trans hi) hji.ne).2.2.shape
      · exact hlow
    · rw [splitNode_child_new]
      exact hup
    · cases j with
      | zero => exact absurd hgt (Nat.not_lt_zero _)
      | succ j =>
        have hij : i < j := Nat.lt_of_succ_lt_succ hgt
        have hjn : j ≤ n.nrKeys := Nat.le_of_succ_le_succ hj
        rw [splitNode_child_gt hij hjn]
        exact (hsib j hjn hij.ne').2.2.shape

end child

/-! ### Splitting the root -/

section root

variable {s s' : Sb} {n r lower upper : Node} {lo h b c w : ℕ}

/-- `r` is the root above two halves, with the middle key of the old root `n`. -/
structure AboveHalves (r n : Node) (b c w : ℕ) : Prop where
  block : r.block = b
  pages : r.AllPages
  nrKeys : r.nrKeys = 1
  leaf : r.leaf = false
  kv : r.kv 0 = n.kv (btreeT - 1)
  left : r.child 0 = c
  right : r.child 1 = w

/-- A reading of such a root. -/
lemma AboveHalves.inorder {α : Type} (hr : AboveHalves r n b c w) (read : ℕ → List α)
    (f : ℕ → List α) : Lib.Slots.inorder (fun i => read (r.child i)) f r.nrKeys =
      read c ++ f 0 ++ read w := by
  rw [hr.nrKeys, Lib.Slots.inorder, upto, upto, nil_append, hr.left, hr.right]

/-- **Splitting the root.** With the halves of the old root below the new one the tree is
rearranged to one that is higher by one level. -/
theorem Reshape.rootSplit (ht : Sub s lo (h + 1) b) (hz : s.bm 0 = true) (hb : s.nodes b = some n)
    (hst : TreeStep s s' [b] [w, c]) (hfails : s'.allocFails = s.allocFails)
    (hh : Halves btreeT n lower upper h c w) (hr : AboveHalves r n b c w)
    (hb' : s'.nodes b = some r) (hc' : s'.nodes c = some lower) (hw' : s'.nodes w = some upper) :
    Reshape s s' 1 (h + 1) (h + 2) b [w, c] := by
  have hkids : ∀ j ≤ n.nrKeys, _ := fun j hj => hst.subtree (ht.child hb hj) fun x hx hmem => by
    rw [List.mem_singleton.mp hmem] at hx
    exact ht.notMem_child hb hj hx
  obtain ⟨hent, hblk, hlow, hup⟩ := halves hh rfl hc' hw'
    fun j hj => (hkids j (hh.full ▸ hj)).imp_right fun hr => hr.imp_right Sub.shape
  refine Reshape.intro ht hz (hst.mono fun x hx => ?_) ?_ ?_ ?_ hfails
  · rw [List.mem_singleton.mp hx]
    exact mem_blocks_self
  · rw [blocks_succ hb', blocks_succ hb, hh.full]
    refine (List.Perm.of_eq (congrArg (b :: ·) (hr.inorder _ _))).trans ?_
    rw [List.append_nil]
    refine (hblk.cons b).trans ?_
    exact (List.Perm.swap w b _).trans ((List.Perm.swap c b _).cons w)
  · refine ⟨r, hb', ⟨hr.block, hr.pages, hr.nrKeys.ge, hr.nrKeys.le.trans (by decide), hr.leaf⟩, ?_⟩
    intro j hj
    rw [hr.nrKeys, Nat.le_one_iff_eq_zero_or_eq_one] at hj
    rcases hj with rfl | rfl
    · rw [hr.left]
      exact hlow
    · rw [hr.right]
      exact hup
  · rw [entries_succ hb', entries_succ hb, hh.full, hent, ← hr.kv]
    exact hr.inorder _ _

/-- The state after a node was deleted. -/
def Sb.dropNode (s : Sb) (node : Node) : Sb :=
  { s.mark node.block false with
    nodes := Function.update s.nodes node.block (some { node with block := 0 }) }

lemma nodeDelete_run (hlt : n.block < s.env.nrBlocks) (hbm : s.bm n.block = true) :
    nodeDelete n s = .ok ({ n with block := 0 }, s.dropNode n) := by
  unfold nodeDelete
  rw [run_bind_ok (blockFree_run hlt hbm)]
  rfl

/-- Taking a block and giving it back. -/
lemma TreeStep.dropNode {bs : List ℕ} (hst : TreeStep s s' bs [n.block]) :
    TreeStep s (s'.dropNode n) bs [] := by
  obtain ⟨hfree, -⟩ := hst.free n.block (mem_singleton_self _)
  refine ⟨hst.env, hst.inodesTree, hst.stopping, fun x => ?_, ?_, nodup_nil,
    fun x hx => absurd hx not_mem_nil, fun x hx hxbs => ?_, hst.fails⟩
  · show update s'.bm n.block false x = _
    by_cases hx : x = n.block
    · rw [hx, update_self, hfree]
      rfl
    · rw [update_of_ne hx, hst.bm]
      simp [hx]
  · show s'.usedBlocks - 1 = _
    rw [hst.used]
    simp
  · have hxn : x ≠ n.block := by
      rintro rfl
      rw [hfree] at hx
      cases hx
    obtain ⟨hn, hi, hc⟩ := hst.other x hx hxbs
    exact ⟨(update_of_ne hxn ..).trans hn, hi, hc⟩

/-- The copy of a full root, at its new block. -/
def cloneRoot (n : Node) (c : ℕ) : Node :=
  { Node.zero with
    block := c
    leaf := n.leaf
    nrKeys := n.nrKeys
    kv := fun j => if j < n.nrKeys then n.kv j else Node.zero.kv j
    child := fun j => if j ≤ n.nrKeys then n.child j else Node.zero.child j }

/-- The node that becomes the root, before its split. -/
def rootSeed (c : ℕ) : Node :=
  { Node.zero with leaf := false, nrKeys := 0, child := Function.update Node.zero.child 0 c }

lemma halves_cloneRoot (hok : NodeOk n lo h b) (hfull : n.nrKeys = 2 * btreeT - 1) :
    Halves btreeT n { cloneRoot n c with nrKeys := btreeT - 1 }
      (splitNew (cloneRoot n c) { Node.zero with block := w }) h c w := by
  have hkv : ∀ j < 2 * btreeT - 1, (cloneRoot n c).kv j = n.kv j := fun j hj =>
    if_pos (hfull ▸ hj)
  have hchild : ∀ j ≤ 2 * btreeT - 1, (cloneRoot n c).child j = n.child j := fun j hj =>
    if_pos (hfull ▸ hj)
  have hcok : NodeOk (cloneRoot n c) lo h c := ⟨rfl, fun _ => rfl, hok.lo_le, hok.le, hok.leaf⟩
  have hh := halves_splitNew (w := w) hcok hfull
  exact
    { hh with
      lowerKv := fun j hj => hkv j (by omega)
      upperKv := fun j hj => (hh.upperKv j hj).trans (hkv _ (by omega))
      lowerChild := fun j hj => hchild j (by omega)
      upperChild := fun h0 j hj => (hh.upperChild h0 j hj).trans (hchild _ (by omega)) }

/-- The root node after the split. -/
lemma nodeCopy_rootSeed (hok : NodeOk n lo h b) (hfull : n.nrKeys = 2 * btreeT - 1) :
    ∃ root, nodeCopy n (splitNode (rootSeed c) (cloneRoot n c) 0 { Node.zero with block := w }) =
      .ok root ∧ AboveHalves root n b c w := by
  refine ⟨_, nodeCopy_eq hok.pages (fun _ => rfl) (show 1 < keySlots by decide), ?_⟩
  have hmid : btreeT - 1 < n.nrKeys := by
    rw [hfull]
    decide
  exact
    { block := hok.block
      pages := hok.pages
      nrKeys := rfl
      leaf := rfl
      kv := if_pos hmid
      left := rfl
      right := rfl }

/-- All that the root split can do: it rearranges the tree, or a block or memory was missing and
nothing is left behind. -/
lemma splitRoot_spec (ht : Sub s lo (h + 1) b) (hz : s.bm 0 = true) (hb : s.nodes b = some n)
    (hfull : n.nrKeys = 2 * btreeT - 1) : Runs (splitRoot n) s fun r s' =>
      (∃ root c w, r = .ok root ∧ s'.nodes b = some root ∧ root.nrKeys = 1 ∧
        Reshape s s' 1 (h + 1) (h + 2) b [w, c]) ∨
      (r = .error .enomem ∧ TreeStep s s' [] [] ∧ s.allocFails < s'.allocFails ∧ ¬ s.Ample 2) := by
  have hok := ht.nodeOk hb
  unfold splitRoot
  refine Runs.bind (nodeCreate_spec hz) ?_
  rintro _ s₁ (⟨c, rfl, hst₁, hc₁, hf₁⟩ | ⟨rfl, hst₁, hf₁, hfull⟩)
  swap
  · exact Runs.pure (Or.inr ⟨rfl, hst₁, hf₁, fun hample => hfull (hample.mono one_le_two)⟩)
  -- giving the clone back after a later allocation failed
  have hback : ∀ {s₂ : Sb}, TreeStep s s₂ [] [c] → s.allocFails < s₂.allocFails → ¬ s.Ample 2 →
      Runs (do let _ ← nodeDelete { Node.zero with block := c }; return .error .enomem :
        M (Except Errno Node)) s₂ fun r s' =>
          r = .error .enomem ∧ TreeStep s s' [] [] ∧ s.allocFails < s'.allocFails ∧ ¬ s.Ample 2 := by
    intro s₂ hst₂ hf₂ hfull
    have ho := hst₂.owned_fresh hz (mem_singleton_self c)
    refine Runs.step (nodeDelete_run (n := { Node.zero with block := c }) ho.lt ho.marked) ?_
    exact Runs.pure ⟨rfl, TreeStep.dropNode (by exact hst₂), hf₂, hfull⟩
  refine Runs.step (nextAlloc_run s₁) ?_
  have hst₂ : TreeStep s (s₁.tried (!s₁.env.fails s₁.tick)) [] [c] :=
    hst₁.trans (TreeStep.tried s₁ _) fun x hx => absurd hx not_mem_nil
  cases hok₂ : !s₁.env.fails s₁.tick with
  | false =>
    rw [hok₂] at hst₂
    refine (hback hst₂ (hf₁ ▸ Nat.lt_succ_self _) fun hample => ?_).mono fun _ _ h => Or.inr h
    rw [hst₁.env, hample.fails] at hok₂
    cases hok₂
  | true =>
    rw [hok₂] at hst₂
    refine Runs.bind (nodeCreate_spec (hst₂.marked hz)) ?_
    rintro _ s₃ (⟨w, rfl, hst₃, hw₃, hf₃⟩ | ⟨rfl, hst₃, hf₃, hfull⟩)
    swap
    · exact (hback (hst₂.trans hst₃ fun x hx => absurd hx not_mem_nil)
        (hf₁ ▸ hf₃) fun hample => hfull (hst₂.ample hample)).mono fun _ _ h => Or.inr h
    have hst : TreeStep s s₃ [b] [w, c] :=
      (hst₂.trans hst₃ fun x hx => absurd hx not_mem_nil).mono fun x hx =>
        absurd hx not_mem_nil
    obtain ⟨root, hroot, habove⟩ := nodeCopy_rootSeed (c := c) (w := w) hok hfull
    have hclone : nodeCopy { Node.zero with block := c } n = .ok (cloneRoot n c) :=
      nodeCopy_eq (fun _ => rfl) hok.pages (by rw [hfull]; decide)
    have hseed : setChildVal { Node.zero with leaf := false, nrKeys := 0 } 0 c =
        .ok (rootSeed c) := setChildVal_eq (fun _ => rfl) (by decide)
    have hsplit := splitChild_eq (rootSeed c) (cloneRoot n c) { Node.zero with block := w }
      (fun _ => rfl) (fun _ => rfl) (fun _ => rfl) le_rfl (show 0 < 2 * btreeT - 1 by decide) hfull
    have hh := halves_cloneRoot (c := c) (w := w) hok hfull
    refine Runs.liftExcept hclone (Runs.liftExcept hseed (Runs.liftExcept hsplit (Runs.liftExcept hroot ?_)))
    have hwm : w ∈ [w, c] := mem_cons_self ..
    have hcm : c ∈ [w, c] := mem_cons_of_mem _ (mem_singleton_self c)
    have hst₄ : TreeStep s (s₃.writeNode { cloneRoot n c with nrKeys := btreeT - 1 }) [b] [w, c] :=
      hst.andWrite (Or.inr hcm)
    have hst₅ := hst₄.andWrite (n := splitNew (cloneRoot n c) { Node.zero with block := w })
      (Or.inr hwm)
    have hst₆ := hst₅.andWrite (n := root) (Or.inl (habove.block ▸ mem_singleton_self b))
    have hbo := ht.owned b mem_blocks_self
    have hne : ∀ x ∈ [w, c], x ≠ root.block := fun x hx hxb => by
      have hfree := (hst.free x hx).1
      rw [hxb, habove.block, hbo.marked] at hfree
      cases hfree
    have hcw : c ≠ w := fun h => (nodup_cons.mp hst.nodup).1 (h ▸ mem_singleton_self c)
    refine Runs.step (nodeWrite_run (hst.owned_fresh hz hcm) hh.lowerPages)
      (Runs.step (nodeWrite_run (hst₄.owned_fresh hz hwm) hh.upperPages)
      (Runs.step (nodeWrite_run (habove.block ▸ hst₅.owned hbo) habove.pages)
      (Runs.pure (Or.inl ⟨root, c, w, rfl, ?_, habove.nrKeys, ?_⟩))))
    · exact habove.block ▸ Sb.writeNode_self
    · refine Reshape.rootSplit ht hz hb hst₆ (hf₃.trans hf₁) hh habove
        (habove.block ▸ Sb.writeNode_self) ?_ ?_
      · rw [Sb.writeNode_of_ne (hne c hcm), Sb.writeNode_of_ne (by exact hcw)]
        exact Sb.writeNode_self
      · rw [Sb.writeNode_of_ne (hne w hwm)]
        exact Sb.writeNode_self

end root

end Nkfs
