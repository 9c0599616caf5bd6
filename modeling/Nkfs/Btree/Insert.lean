import Nkfs.Btree.Split

/-!
# Insertion

`nkfs_btree_insert_key` on a tree returns, keeps the invariant and the root block, and either has
put the pair, or found the key (`-EEXIST`) or was refused a block or memory; then the pairs are
those from before (`insertKey_spec`). The proof goes down the tree with
`nkfs_btree_node_insert_nonfull`: one level (`insertNonfull_descend`) when the child on the way is
not full, a split and the same level again otherwise.
-/

namespace Nkfs

open Lib.Program Lib.Slots Lib.Assoc Function List

/-! ### Writing the top node -/

section top

variable {s : Sb} {n m : Node} {lo lo' h b : ℕ}

lemma inorder_nil (c : ℕ) : inorder (fun _ => ([] : List ℕ)) (fun _ => []) c = [] := by
  refine eq_nil_iff_forall_not_mem.mpr fun x hx => ?_
  rcases mem_inorder.mp hx with ⟨_, _, hx⟩ | ⟨_, _, hx⟩
  · exact absurd hx not_mem_nil
  · exact absurd hx not_mem_nil

/-- Writing another top node over the same children (a leaf has none). -/
lemma Grow.writeTop (ht : Sub s lo (h + 1) b) (hz : s.bm 0 = true) (hb : s.nodes b = some n)
    (hok : NodeOk m lo' h b) (hkids : h = 0 ∨ (m.nrKeys = n.nrKeys ∧ m.child = n.child))
    (hs : Sorted (inorder (s.part h m) m.sep m.nrKeys)) :
    Grow s (s.writeNode m) lo' (h + 1) (h + 1) b [] ∧
      entries (s.writeNode m).nodes (h + 1) b = inorder (s.part h m) m.sep m.nrKeys := by
  have hst : TreeStep s (s.writeNode m) [b] [] := hok.block ▸ TreeStep.writeNode s m
  have hb' : (s.writeNode m).nodes b = some m := hok.block ▸ Sb.writeNode_self
  have hsub : ∀ j ≤ m.nrKeys, entries (s.writeNode m).nodes h (m.child j) = s.part h m j ∧
      blocks (s.writeNode m).nodes h (m.child j) = blocks s.nodes h (m.child j) ∧
      Shape (s.writeNode m).nodes (btreeT - 1) h (m.child j) := by
    intro j hj
    rcases hkids with rfl | ⟨hnr, hch⟩
    · exact ⟨rfl, rfl, trivial⟩
    · rw [hnr] at hj
      have hrest := hst.subtree (ht.child hb hj) fun x hx hmem =>
        ht.notMem_child hb hj (mem_singleton.mp hmem ▸ hx)
      rw [Sb.part, hch]
      exact hrest.imp_right fun hr => hr.imp_right Sub.shape
  have hent : entries (s.writeNode m).nodes (h + 1) b = inorder (s.part h m) m.sep m.nrKeys := by
    rw [entries_succ hb']
    exact inorder_congr (fun j hj => (hsub j hj).1) fun _ _ => rfl
  have hblk : blocks (s.writeNode m).nodes (h + 1) b = blocks s.nodes (h + 1) b := by
    rw [blocks_succ hb', blocks_succ hb,
      inorder_congr (q := fun _ => []) (fun j hj => (hsub j hj).2.1) fun _ _ => rfl]
    rcases hkids with rfl | ⟨hnr, hch⟩
    · exact congrArg _ ((inorder_nil _).trans (inorder_nil _).symm)
    · rw [hnr, hch]
  refine ⟨Grow.intro ht hz (hst.mono fun x hx => ?_) (List.Perm.of_eq hblk) ?_ (hent ▸ hs), hent⟩
  · rw [mem_singleton.mp hx]
    exact mem_blocks_self
  · exact ⟨m, hb', hok, fun j hj => (hsub j hj).2.2⟩

/-- The pairs of a node after the value of key `i` was changed. -/
lemma inorder_putValue {g : ℕ → List (Key × ℕ)} {i v : ℕ}
    (hs : Sorted (inorder g n.sep n.nrKeys)) (hi : i < n.nrKeys)
    (hkv : m.kv = update n.kv i (n.key i, v)) (hnr : m.nrKeys = n.nrKeys) :
    inorder g m.sep m.nrKeys = put (n.key i) v (inorder g n.sep n.nrKeys) := by
  have hsep : ∀ j, j ≠ i → m.sep j = n.sep j := fun j hj => by
    rw [Node.sep, hkv, update_of_ne hj]
  have hself : m.kv i = (n.key i, v) := by rw [hkv, update_self]
  rw [inorder_at_key g (hnr ▸ hi), hself, upto_congr (fun _ _ => rfl) (fun j hj => hsep j hj.ne),
    after_congr (fun j _ => hsep _ (by omega)) (fun _ _ => rfl), hnr, inorder_at_key g hi]
  have hbelow := below_of_sorted hs hi
  rw [inorder_at_key g hi, sorted_mid] at hs
  have habove : Above (n.key i) _ := hs.2.2.2
  rw [put_append hbelow, ← singleton_append (x := n.kv i), put_append_above habove,
    put_singleton (show (n.kv i).1 = n.key i from rfl)]
  rfl

/-- The pairs of a leaf after a pair was inserted at the rank of its key. -/
lemma inorder_insertLeaf {k : Key} {i v : ℕ} (hs : Sorted (inorder (s.part 0 n) n.sep n.nrKeys))
    (hr : n.IsRank k i) (habs : ∀ j < n.nrKeys, n.key j ≠ k)
    (hkv : m.kv = insertSlot n.kv i n.nrKeys (k, v)) (hnr : m.nrKeys = n.nrKeys + 1) :
    inorder (s.part 0 m) m.sep m.nrKeys = put k v (inorder (s.part 0 n) n.sep n.nrKeys) := by
  have hins := inorder_insert (f := n.sep) (q := m.sep) (g := s.part 0 n) (p := s.part 0 m) hr.le
    (fun j hj => by rw [Node.sep, hkv, insertSlot_of_lt hj])
    (fun j hij hj => by rw [Node.sep, hkv, insertSlot_succ hij hj]) (fun _ _ => rfl)
    fun _ _ _ => rfl
  have hself : m.kv i = (k, v) := by rw [hkv, insertSlot_self]
  rw [hnr, hins, put_at_rank hs hr habs, Node.sep, hself]
  rfl

end top

/-! ### What an insertion does -/

/-- The result of inserting `(k, v)` into the pairs `es`: the pair was put, or it was there already,
or an allocation failed; `f` and `f'` count the failed allocations before and after. -/
def Inserted (k : Key) (v : ℕ) (replace : Bool) (es es' : List (Key × ℕ)) (f f' : ℕ) :
    Except Errno Unit → Prop
  | .ok () => es' = put k v es ∧ (replace = true ∨ find es k = none) ∧ f' = f
  | .error e => es' = es ∧
      (e = .eexist ∧ replace = false ∧ find es k ≠ none ∧ f' = f ∨ (e = .eio ∨ e = .enomem) ∧ f < f')

/-- What an insertion into the tree of height `h` at `b` ends in; with `room` free blocks no
allocation fails. -/
def InsertPost (s : Sb) (lo h h' b : ℕ) (k : Key) (v : ℕ) (replace : Bool) (room : ℕ)
    (r : Except Errno Unit) (s' : Sb) : Prop :=
  (∃ fresh, Grow s s' lo h h' b fresh ∧ Inserted k v replace (entries s.nodes h b)
    (entries s'.nodes h' b) s.allocFails s'.allocFails r) ∧
  (s.Ample room → s'.allocFails = s.allocFails)

section insert

variable {s s' : Sb} {n : Node} {lo h b v i : ℕ} {k : Key} {replace : Bool}

/-- A node of a tree has the key in one of its slots or in none. -/
lemma Node.Increasing.cases (hn : n.Increasing) (hnr : n.nrKeys ≤ keySlots) (k : Key) :
    (∃ i, hasKey n k = .ok (some i) ∧ i < n.nrKeys ∧ n.key i = k) ∨
      (hasKey n k = .ok none ∧ ∀ j < n.nrKeys, n.key j ≠ k) := by
  by_cases h : ∃ i < n.nrKeys, n.key i = k
  · obtain ⟨i, hi, hk⟩ := h
    exact Or.inl ⟨i, hasKey_of_mem hn hnr hi hk, hi, hk⟩
  · have habs : ∀ j < n.nrKeys, n.key j ≠ k := fun j hj hk => h ⟨j, hj, hk⟩
    exact Or.inr ⟨hasKey_of_notMem hn hnr habs, habs⟩

/-- A key of the node is found in its subtree. -/
lemma find_key {g : ℕ → List (Key × ℕ)} (hs : Sorted (inorder g n.sep n.nrKeys))
    (hi : i < n.nrKeys) : find (inorder g n.sep n.nrKeys) (n.key i) = some (n.kv i).2 := by
  rw [inorder_at_key g hi, find_append_of_below (below_of_sorted hs hi)]
  exact find_cons_self

/-- Insertion of a key that is in the top node. -/
lemma insertNonfull_present (ht : Sub s lo (h + 1) b) (hz : s.bm 0 = true)
    (hb : s.nodes b = some n) (hi : i < n.nrKeys) (hkey : hasKey n (n.key i) = .ok (some i))
    (fuel room : ℕ) : Runs (insertNonfull (n.key i) v replace (fuel + 1) n) s
      (InsertPost s lo (h + 1) (h + 1) b (n.key i) v replace room) := by
  have hok := ht.nodeOk hb
  have hs := ht.sorted_inorder hb
  have hfind : find (entries s.nodes (h + 1) b) (n.key i) = some (n.kv i).2 := by
    rw [entries_succ hb]
    exact find_key hs hi
  unfold insertNonfull
  refine Runs.liftExcept hkey ?_
  cases replace with
  | false => exact Runs.pure ⟨⟨[], Grow.refl ht, rfl, Or.inl ⟨rfl, rfl, by simp [hfind], rfl⟩⟩, fun _ => rfl⟩
  | true =>
    have hslots : keySlots ≤ btreeValuePages * 512 := by decide
    have hcopy : copyValue n i v = .ok { n with kv := update n.kv i (n.key i, v) } :=
      if_pos ((hi.trans hok.nrKeys_lt_keySlots).trans_le hslots)
    have hput := inorder_putValue (m := { n with kv := update n.kv i (n.key i, v) }) hs
      hi rfl rfl
    obtain ⟨hgrow, hent⟩ := Grow.writeTop ht hz hb
      (m := { n with kv := update n.kv i (n.key i, v) })
      ⟨hok.block, hok.pages, hok.lo_le, hok.le, hok.leaf⟩ (Or.inr ⟨rfl, rfl⟩)
      (by exact hput ▸ sorted_put hs)
    refine Runs.liftExcept hcopy (Runs.step (nodeWrite_run (n := { n with kv := update n.kv i (n.key i, v) })
      (hok.block ▸ ht.owned b mem_blocks_self) hok.pages)
      (Runs.pure ⟨⟨[], hgrow, ?_, Or.inl rfl, rfl⟩, fun _ => rfl⟩))
    rw [hent, entries_succ hb]
    exact hput

/-- Insertion of a new key into a leaf with a free slot. -/
lemma insertNonfull_leaf (ht : Sub s lo 1 b) (hz : s.bm 0 = true) (hb : s.nodes b = some n)
    (hn : n.nrKeys < 2 * btreeT - 1) (hno : hasKey n k = .ok none)
    (habs : ∀ j < n.nrKeys, n.key j ≠ k) (fuel room : ℕ) :
    Runs (insertNonfull k v replace (fuel + 1) n) s (InsertPost s lo 1 1 b k v replace room) := by
  have hok := ht.nodeOk hb
  have hs := ht.sorted_inorder hb
  obtain ⟨i, hi, hr⟩ := ht.rank hb hok k
  have hput : putKeyValue n i k v = .ok { n with kv := insertSlot n.kv i n.nrKeys (k, v) } :=
    putKeyValue_eq hr.le hok.nrKeys_lt_keySlots
  have hent' := inorder_insertLeaf (s := s) (v := v)
    (m := { n with kv := insertSlot n.kv i n.nrKeys (k, v), nrKeys := n.nrKeys + 1 }) hs hr habs rfl
    rfl
  obtain ⟨hgrow, hent⟩ := Grow.writeTop ht hz hb
    (m := { n with kv := insertSlot n.kv i n.nrKeys (k, v), nrKeys := n.nrKeys + 1 })
    ⟨hok.block, hok.pages, hok.lo_le.trans n.nrKeys.le_succ, hn, hok.leaf⟩ (Or.inl rfl)
    (by exact hent' ▸ sorted_put hs)
  unfold insertNonfull
  refine Runs.liftExcept hno ?_
  rw [hok.leaf]
  refine Runs.liftExcept hi (Runs.liftExcept hput (Runs.step (nodeWrite_run
    (n := { n with kv := insertSlot n.kv i n.nrKeys (k, v), nrKeys := n.nrKeys + 1 })
    (hok.block ▸ ht.owned b mem_blocks_self) hok.pages)
    (Runs.pure ⟨⟨[], hgrow, ?_, Or.inr ?_, rfl⟩, fun _ => rfl⟩)))
  · rw [hent, entries_succ hb]
    exact hent'
  · rw [entries_succ hb, find_at_rank hs hr habs]
    rfl

/-- An insertion below one child is an insertion into the tree. -/
lemma InsertPost.child {room : ℕ} {r : Except Errno Unit} (ht : Sub s lo (h + 1) b) (hz : s.bm 0 = true)
    (hb : s.nodes b = some n) (hr : n.IsRank k i) (habs : ∀ j < n.nrKeys, n.key j ≠ k)
    (hpost : InsertPost s (btreeT - 1) h h (n.child i) k v replace room r s') :
    InsertPost s lo (h + 1) (h + 1) b k v replace room r s' := by
  obtain ⟨⟨fresh, hgrow, hres⟩, hroom⟩ := hpost
  refine ⟨?_, hroom⟩
  have hs := ht.sorted_inorder hb
  have hput := put_at_rank hs hr habs v
  have hfind := find_at_rank hs hr habs
  have hrep := fun hsort => ht.replaceChild hz hb hr.le hgrow.step hgrow.sub hgrow.perm hsort
  have hstep : TreeStep s s' (blocks s.nodes (h + 1) b) fresh :=
    hgrow.step.mono fun x hx => mem_blocks_child hb hr.le hx
  cases r with
  | ok u =>
    obtain ⟨hent, hpre, hf⟩ := hres
    obtain ⟨-, hent', hperm, hsub⟩ := hrep (by rw [hent, ← hput]; exact sorted_put hs)
    refine ⟨fresh, ⟨hstep, hperm, hsub⟩, ?_, ?_, hf⟩
    · rw [hent', hent, entries_succ hb, ← hput]
    · rw [entries_succ hb, hfind]
      exact hpre
  | error e =>
    obtain ⟨hent, hwhy⟩ := hres
    have hsame := inorder_split (g := s.part h n) (f := n.sep) hr.le
    obtain ⟨-, hent', hperm, hsub⟩ := hrep (by rw [hent, ← hsame]; exact hs)
    refine ⟨fresh, ⟨hstep, hperm, hsub⟩, ?_, ?_⟩
    · rw [hent', hent, entries_succ hb, ← hsame]
    · rw [entries_succ hb, hfind]
      exact hwhy

/-- An insertion after the tree was rearranged. -/
lemma InsertPost.reshape {s₁ : Sb} {h₁ h' lo' room : ℕ} {fresh : List ℕ} {r : Except Errno Unit}
    (hre : Reshape s s₁ lo' h h₁ b fresh) (hpost : InsertPost s₁ lo h₁ h' b k v replace room r s') :
    InsertPost s lo h h' b k v replace (room + fresh.length) r s' := by
  obtain ⟨⟨fresh', hgrow, hres⟩, hroom⟩ := hpost
  rw [hre.entries_eq, hre.fails] at hres
  exact ⟨⟨fresh' ++ fresh, hre.toGrow.trans hgrow, hres⟩, fun hample =>
    (hroom (hre.step.ample hample)).trans hre.fails⟩

/-- A failed allocation leaves the tree as it is. -/
lemma InsertPost.failed {e : Errno} {room : ℕ} (ht : Sub s lo h b) (hst : TreeStep s s' [] [])
    (he : e = .eio ∨ e = .enomem) (hf : s.allocFails < s'.allocFails) (hfull : ¬ s.Ample room) :
    InsertPost s lo h h b k v replace room (.error e) s' := by
  obtain ⟨hent, hblk, hsub⟩ := hst.subtree ht fun _ _ => not_mem_nil
  exact ⟨⟨[], ⟨hst.mono fun x hx => absurd hx not_mem_nil, List.Perm.of_eq hblk, hsub⟩, hent,
    Or.inr ⟨he, hf⟩⟩, fun hample => absurd hample hfull⟩

lemma InsertPost.mono_room {h' m m' : ℕ} {r : Except Errno Unit}
    (hpost : InsertPost s lo h h' b k v replace m r s') (hm : m ≤ m') :
    InsertPost s lo h h' b k v replace m' r s' :=
  ⟨hpost.1, fun hample => hpost.2 (hample.mono hm)⟩

/-- The insertion goes on at `n` without splitting the child on its way. -/
def ChildRoom (s : Sb) (n : Node) (k : Key) : Prop :=
  ∀ i c, n.IsRank k i → s.nodes (n.child i) = some c → c.nrKeys < 2 * btreeT - 1

/-- The body of `nkfs_btree_node_insert_nonfull` at an interior node, for a new key. -/
lemma insertNonfull_interior (ht : Sub s lo (h + 2) b) (hb : s.nodes b = some n)
    (hno : hasKey n k = .ok none) (fuel : ℕ) :
    ∃ i c, n.IsRank k i ∧ s.nodes (n.child i) = some c ∧ NodeOk c (btreeT - 1) h (n.child i) ∧
      insertNonfull k v replace (fuel + 1) n s = (if c.isFull then do
          match ← nodeCreate with
          | none => return .error .eio
          | some new =>
            let (node, child, new) ← splitChild n c i new
            nodeWrite node
            nodeWrite child
            nodeWrite new
            insertNonfull k v replace fuel node
        else insertNonfull k v replace fuel c : M (Except Errno Unit)) s := by
  have hok := ht.nodeOk hb
  obtain ⟨i, hi, hr⟩ := ht.rank hb hok k
  have hchild := ht.child hb hr.le
  obtain ⟨c, hc, hcok⟩ := hchild.node
  have hget := getChildVal_eq hok.pages (hr.le.trans_lt (Nat.lt_of_succ_lt hok.nrKeys_lt_childSlots))
  have hread := nodeRead_run (hchild.owned _ mem_blocks_self) hc hcok.block
  refine ⟨i, c, hr, hc, hcok, ?_⟩
  rw [insertNonfull, run_bind_ok (run_lift hno)]
  show (if n.leaf then _ else _ : M (Except Errno Unit)) s = _
  rw [hok.leaf, decide_eq_false (Nat.succ_ne_zero h), if_neg Bool.false_ne_true,
    run_bind_ok (run_lift hi), run_bind_ok (run_lift hget)]
  exact run_bind_ok hread

lemma isFull_iff : n.isFull = true ↔ n.nrKeys = 2 * btreeT - 1 := by
  rw [Node.isFull, beq_iff_eq, eq_comm]

/-- Insertion is right at every node with room that has `h` levels below it, and takes at most one
block for each of them. -/
def InsertsAt (k : Key) (v : ℕ) (replace : Bool) (h fuel : ℕ) : Prop :=
  ∀ ⦃s : Sb⦄ ⦃lo b : ℕ⦄ ⦃n : Node⦄, Sub s lo (h + 1) b → s.bm 0 = true → s.nodes b = some n →
    n.nrKeys < 2 * btreeT - 1 →
    Runs (insertNonfull k v replace fuel n) s (InsertPost s lo (h + 1) (h + 1) b k v replace h)

/-- One level down: the child on the way has room. -/
lemma insertNonfull_descend {fuel : ℕ} (ih : InsertsAt k v replace h fuel)
    (ht : Sub s lo (h + 2) b) (hz : s.bm 0 = true) (hb : s.nodes b = some n)
    (hroom : ChildRoom s n k) :
    Runs (insertNonfull k v replace (fuel + 1) n) s (InsertPost s lo (h + 2) (h + 2) b k v replace h) := by
  have hok := ht.nodeOk hb
  rcases (increasing_of_sorted (ht.sorted_inorder hb)).cases hok.nrKeys_lt_keySlots.le k with
    ⟨i, hkey, hi, rfl⟩ | ⟨hno, habs⟩
  · exact insertNonfull_present ht hz hb hi hkey fuel _
  · obtain ⟨i, c, hr, hc, hcok, heq⟩ := insertNonfull_interior ht hb hno fuel
    have hlt := hroom i c hr hc
    rw [if_neg (fun hfull => hlt.ne (isFull_iff.mp hfull))] at heq
    obtain ⟨r, s', hrun, hpost⟩ := ih (ht.child hb hr.le) hz hc hlt
    exact ⟨r, s', heq.trans hrun, hpost.child ht hz hb hr habs⟩

/-- After a split the rank of a key moves at most past the new separator. -/
lemma Node.IsRank.splitNode {m new : Node} {j : ℕ} (hr : n.IsRank k i)
    (hj : (Nkfs.splitNode n m i new).IsRank k j) : j = i ∨ j = i + 1 := by
  have hlow : i ≤ j := by
    by_contra hlt
    rw [not_le] at hlt
    have hkey : (Nkfs.splitNode n m i new).key j = n.key j := congrArg Prod.fst (insertSlot_of_lt hlt)
    have hle := hj.above j le_rfl (hlt.trans_le (hr.le.trans n.nrKeys.le_succ))
    rw [hkey] at hle
    exact absurd (hr.below j hlt) (not_lt.mpr hle)
  have hhigh : j ≤ i + 1 := by
    by_contra hgt
    rw [not_le] at hgt
    have hin : i < n.nrKeys := Nat.lt_of_succ_lt_succ (hgt.trans_le hj.le)
    have hkey : (Nkfs.splitNode n m i new).key (i + 1) = n.key i :=
      congrArg Prod.fst (insertSlot_succ le_rfl hin)
    have hlt := hj.below (i + 1) hgt
    rw [hkey] at hlt
    exact absurd hlt (not_lt.mpr (hr.above i le_rfl hin))
  omega

/-- Both halves of a child that was split have room. -/
lemma ChildRoom.halves {m : Node} {i w : ℕ} (hr : n.IsRank k i)
    (hc : s.nodes (n.child i) = some { m with nrKeys := btreeT - 1 })
    (hw : s.nodes w = some (splitNew m { Node.zero with block := w })) :
    ChildRoom s (splitNode n m i { Node.zero with block := w }) k := by
  have hT : btreeT - 1 < 2 * btreeT - 1 := by decide
  intro j d hj hd
  rcases hr.splitNode hj with rfl | rfl
  · rw [splitNode_child_lt le_rfl, hc, Option.some.injEq] at hd
    exact hd ▸ hT
  · rw [splitNode_child_new] at hd
    rw [Option.some.inj (hw.symm.trans hd).symm]
    exact hT

/-- At a node with room: the child on the way is split first if it is full. -/
lemma insertNonfull_level {fuel : ℕ} (ih : InsertsAt k v replace h fuel)
    (ih' : InsertsAt k v replace h (fuel + 1)) (ht : Sub s lo (h + 2) b) (hz : s.bm 0 = true)
    (hb : s.nodes b = some n) (hn : n.nrKeys < 2 * btreeT - 1) :
    Runs (insertNonfull k v replace (fuel + 2) n) s
      (InsertPost s lo (h + 2) (h + 2) b k v replace (h + 1)) := by
  have hok := ht.nodeOk hb
  rcases (increasing_of_sorted (ht.sorted_inorder hb)).cases hok.nrKeys_lt_keySlots.le k with
    ⟨i, hkey, hi, rfl⟩ | ⟨hno, habs⟩
  · exact insertNonfull_present ht hz hb hi hkey (fuel + 1) _
  · obtain ⟨i, c, hr, hc, hcok, heq⟩ := insertNonfull_interior ht hb hno (fuel + 1)
    by_cases hfull : c.isFull = true
    · rw [if_pos hfull] at heq
      rw [isFull_iff] at hfull
      suffices hruns : Runs _ s (InsertPost s lo (h + 2) (h + 2) b k v replace (h + 1)) by
        obtain ⟨r, s', hrun, hpost⟩ := hruns
        exact ⟨r, s', heq.trans hrun, hpost⟩
      refine Runs.bind (nodeCreate_spec hz) ?_
      rintro _ s₁ (⟨w, rfl, hst, hw, hf⟩ | ⟨rfl, hst, hf, hfull⟩)
      · obtain ⟨hre, hb', hc', hw'⟩ := Reshape.splitDone ht hz hb hn hr.le hc hfull hst hf
        have hsplit := splitChild_eq n c { Node.zero with block := w } hok.pages hcok.pages
          (fun _ => rfl) hr.le hn hfull
        have hroom : ChildRoom (s₁.splitDone n c i { Node.zero with block := w })
            (splitNode n c i { Node.zero with block := w }) k := ChildRoom.halves hr hc' hw'
        have hbo := hst.owned (ht.owned b mem_blocks_self)
        have hco := hst.owned ((ht.child hb hr.le).owned _ mem_blocks_self)
        have hwo := hst.owned_fresh hz (mem_singleton_self w)
        have hkeep : ∀ {s : Sb} {m : Node} {x : ℕ}, s.Owned x → (s.writeNode m).Owned x :=
          fun ho => (TreeStep.writeNode _ _).owned ho
        refine Runs.liftExcept hsplit (Runs.step (nodeWrite_run (hok.block ▸ hbo) hok.pages)
          (Runs.step (nodeWrite_run (by exact hcok.block ▸ hkeep hco) hcok.pages)
          (Runs.step (nodeWrite_run (by exact hkeep (hkeep hwo)) fun _ => rfl) ?_)))
        exact (insertNonfull_descend ih hre.sub (hre.step.marked hz) hb' hroom).mono
          fun _ _ hpost => hpost.reshape hre
      · exact Runs.pure (InsertPost.failed ht hst (Or.inl rfl) hf fun hample =>
          hfull (hample.mono (Nat.le_add_left 1 h)))
    · rw [if_neg hfull] at heq
      have hlt : c.nrKeys < 2 * btreeT - 1 :=
        lt_of_le_of_ne hcok.le fun h => hfull (isFull_iff.mpr h)
      obtain ⟨r, s', hrun, hpost⟩ := ih' (ht.child hb hr.le) hz hc hlt
      exact ⟨r, s', heq.trans hrun, (hpost.child ht hz hb hr habs).mono_room h.le_succ⟩

/-- **The descent.** Insertion below a node with room, on a bound of two steps per level. -/
theorem insertNonfull_spec (k : Key) (v : ℕ) (replace : Bool) : ∀ h fuel : ℕ, 2 * h < fuel →
    InsertsAt k v replace h fuel
  | _, 0, hf => absurd hf (Nat.not_lt_zero _)
  | 0, fuel + 1, _ => by
    intro s lo b n ht hz hb hn
    have hok := ht.nodeOk hb
    rcases (increasing_of_sorted (ht.sorted_inorder hb)).cases hok.nrKeys_lt_keySlots.le k with
      ⟨i, hkey, hi, rfl⟩ | ⟨hno, habs⟩
    · exact insertNonfull_present ht hz hb hi hkey fuel _
    · exact insertNonfull_leaf ht hz hb hn hno habs fuel _
  | h + 1, 1, hf => absurd hf (by omega)
  | h + 1, fuel + 2, hf => fun _ _ _ _ ht hz hb hn =>
    insertNonfull_level (insertNonfull_spec k v replace h fuel (by omega))
      (insertNonfull_spec k v replace h (fuel + 1) (by omega)) ht hz hb hn

end insert

/-! ### Insertion into a tree -/

section tree

variable {s s' : Sb} {t : Tree} {strict : Bool} {n : Node} {lo lo' h b : ℕ} {es : List (Key × ℕ)}
  {bs : List ℕ}

lemma Sub.mono_lo (ht : Sub s lo h b) (hlo : lo' ≤ lo) : Sub s lo' h b where
  shape := by
    cases h with
    | zero => trivial
    | succ h =>
      obtain ⟨n, hb, hok, hkids⟩ := ht.shape
      exact ⟨n, hb, { hok with lo_le := hlo.trans hok.lo_le }, hkids⟩
  sorted := ht.sorted
  nodup := ht.nodup
  owned := ht.owned

lemma rootLo_le : rootLo strict h ≤ 1 := by
  unfold rootLo
  split_ifs
  · exact le_rfl
  · exact Nat.zero_le 1

lemma IsTree.succ (ht : IsTree s strict b h es bs) : ∃ h', h = h' + 1 :=
  ⟨h - 1, (Nat.succ_pred_eq_of_pos ht.pos).symm⟩

lemma treeRoot_run (hb : s.nodes t.root = some n) : treeRoot t s = .ok (n, s) := by
  unfold treeRoot
  rw [run_get, hb]
  rfl

/-- What an insertion into a whole tree ends in. -/
def TreeInserted (s : Sb) (strict : Bool) (b h : ℕ) (es : List (Key × ℕ)) (bs : List ℕ) (k : Key)
    (v : ℕ) (replace : Bool) (r : Except Errno Unit) (s' : Sb) : Prop :=
  ∃ h' es' bs' fresh, IsTree s' strict b h' es' bs' ∧ TreeStep s s' bs fresh ∧
    bs'.Perm (fresh ++ bs) ∧ Inserted k v replace es es' s.allocFails s'.allocFails r ∧
    (s.Ample (h + 2) → s'.allocFails = s.allocFails)

lemma InsertPost.tree {k : Key} {v h' : ℕ} {replace : Bool} {r : Except Errno Unit}
    (ht : IsTree s strict b h es bs) (hpos : 0 < h') (hlo : rootLo strict h' ≤ lo)
    (hpost : InsertPost s lo h h' b k v replace (h + 2) r s') :
    TreeInserted s strict b h es bs k v replace r s' := by
  obtain ⟨⟨fresh, hgrow, hres⟩, hroom⟩ := hpost
  have hstep := hgrow.step
  have hperm := hgrow.perm
  rw [ht.blocks_eq] at hstep hperm
  rw [ht.entries_eq] at hres
  exact ⟨h', _, _, fresh, ⟨hpos, hgrow.sub.mono_lo hlo, rfl, rfl, hstep.marked ht.zero⟩, hstep,
    hperm, hres, hroom⟩

/-- **Insertion.** `nkfs_btree_insert_key` on a tree returns and leaves a tree at the same root
block. -/
theorem insertKey_spec (hrel : t.releasing = false) (ht : IsTree s strict t.root h es bs) (k : Key)
    (v : ℕ) (replace : Bool) : Runs (insertKey t k v replace) s
      (TreeInserted s strict t.root h es bs k v replace) := by
  obtain ⟨h, rfl⟩ := ht.succ
  obtain ⟨root, hroot, hok⟩ := ht.sub.node
  have hheight := ht.sub.height_le
  unfold insertKey
  rw [hrel]
  refine Runs.get (Runs.step (treeRoot_run hroot) ?_)
  by_cases hfull : root.isFull = true
  · rw [if_pos hfull]
    rw [isFull_iff] at hfull
    refine Runs.bind (splitRoot_spec ht.sub ht.zero hroot hfull) ?_
    rintro _ s₁ (⟨root₁, c, w, rfl, hroot₁, hnr, hre⟩ | ⟨rfl, hst, hf, hnospace⟩)
    · have hheight₁ := hre.sub.height_le
      rw [hre.step.env] at hheight₁
      refine (insertNonfull_spec k v replace (h + 1) s.loopBound ?_ hre.sub
        (hre.step.marked ht.zero) hroot₁ ?_).mono fun r s' hpost =>
          (hpost.reshape hre).tree ht (Nat.succ_pos _) rootLo_le
      · unfold Sb.loopBound
        omega
      · rw [hnr]
        decide
    · exact Runs.pure ((InsertPost.failed ht.sub hst (Or.inr rfl) hf fun hample =>
        hnospace (hample.mono (Nat.le_add_left 2 _))).tree ht (Nat.succ_pos _) le_rfl)
  · rw [if_neg hfull]
    have hlt : root.nrKeys < 2 * btreeT - 1 :=
      lt_of_le_of_ne hok.le fun h => hfull (isFull_iff.mpr h)
    refine (insertNonfull_spec k v replace h s.loopBound ?_ ht.sub ht.zero hroot hlt).mono
      fun r s' hpost => (hpost.mono_room (Nat.le_add_right h 3)).tree ht (Nat.succ_pos _) le_rfl
    unfold Sb.loopBound
    omega

end tree

end Nkfs
