import Nkfs.Btree.Insert

/-!
# Deletion

`nkfs_btree_delete_key` goes down the tree and keeps every node on its way at `T` keys or more, by
moving a key from a neighbour or merging two children. Both call
`__nkfs_btree_node_delete_child_index`, which shifts the array of child pages where the child slots
are meant, so they never come back: the array ends, or the cleared page is read when the node is
written (`childRefill_stops`, `deleteMerge_stops`).

`Roomy` says that the descent for a key meets no such node. Then the deletion is that of a finite map
(`nodeDeleteKey_roomy`); otherwise it stops with a fault (`nodeDeleteKey_stops`).
-/

namespace Nkfs

open Lib.Program Lib.Slots Lib.Assoc Function

/-! ### The descent -/

/-- Number of keys of the node at a block. -/
def keysAt (nodes : ℕ → Option Node) (b : ℕ) : ℕ :=
  match nodes b with
  | none => 0
  | some n => n.nrKeys

/-- The child that `nkfs_btree_node_find_left_most` (`last`) or `nkfs_btree_node_find_right_most`
goes to. -/
def Node.edge (n : Node) (last : Bool) : ℕ := if last then n.nrKeys else 0

/-- Along the last or the first children, `h` levels below block `b`, every node has `T` keys. -/
def SpineRoomy (nodes : ℕ → Option Node) (last : Bool) : ℕ → ℕ → Prop
  | 0, _ => True
  | h + 1, b => ∀ n, nodes b = some n →
      btreeT ≤ keysAt nodes (n.child (n.edge last)) ∧
        SpineRoomy nodes last h (n.child (n.edge last))

/-- On the way of `nkfs_btree_delete_key` for `k`, from block `b` with `h` levels below, no node has
fewer than `T` keys: neither on the descent to `k` nor, if `k` is in an interior node, on the one to
its neighbour. -/
def Roomy (nodes : ℕ → Option Node) (k : Key) : ℕ → ℕ → Prop
  | 0, _ => True
  | h + 1, b => ∀ n, nodes b = some n →
      (∀ i < n.nrKeys, n.key i = k →
        if btreeT ≤ keysAt nodes (n.child i) then SpineRoomy nodes true h (n.child i)
        else btreeT ≤ keysAt nodes (n.child (i + 1)) ∧ SpineRoomy nodes false h (n.child (i + 1))) ∧
      ((∀ i < n.nrKeys, n.key i ≠ k) → ∀ i, n.IsRank k i →
        btreeT ≤ keysAt nodes (n.child i) ∧ Roomy nodes k h (n.child i))

/-! ### Deletion from a leaf -/

/-- A node without its pair `i`. -/
def Node.dropKv (n : Node) (i : ℕ) : Node :=
  { n with
    kv := Function.update (removeSlot n.kv i n.nrKeys) (n.nrKeys - 1) (Key.zero, 0)
    nrKeys := n.nrKeys - 1 }

section leaf

variable {s : Sb} {n : Node} {lo h b i : ℕ} {k : Key}

lemma Node.dropKv_of_lt {j : ℕ} (hj : j < i) (hi : i < n.nrKeys) : (n.dropKv i).kv j = n.kv j := by
  show update _ (n.nrKeys - 1) _ j = _
  rw [update_of_ne (by omega), removeSlot_of_lt hj]

lemma Node.dropKv_of_ge {j : ℕ} (hij : i ≤ j) (hj : j + 1 < n.nrKeys) : (n.dropKv i).kv j = n.kv (j + 1) := by
  show update _ (n.nrKeys - 1) _ j = _
  rw [update_of_ne (by omega), removeSlot_of_ge hij hj]

lemma leafDeleteKey_eq (hl : n.leaf = true) (hkey : hasKey n k = .ok (some i)) (hi : i < n.nrKeys)
    (hnr : n.nrKeys ≤ keySlots) : leafDeleteKey n k = .ok (n.dropKv i) := by
  rw [leafDeleteKey, hl, Bool.not_true, if_neg Bool.false_ne_true, hkey]
  show (if i ≥ n.nrKeys then _ else deleteKeyIndex n i >>= _) = _
  rw [if_neg (not_le.mpr hi), deleteKeyIndex_eq hi hnr]
  rfl

/-- The pairs of a leaf around its pair `i`, before and after that one was deleted. -/
lemma inorder_dropKv (hi : i < n.nrKeys) : ∃ l₁ l₂, inorder (s.part 0 n) n.sep n.nrKeys = l₁ ++ n.kv i :: l₂ ∧
      inorder (s.part 0 (n.dropKv i)) (n.dropKv i).sep (n.dropKv i).nrKeys = l₁ ++ l₂ ∧
      (i = 0 → l₁ = []) ∧ (i = n.nrKeys - 1 → l₂ = []) := by
  have hle : i ≤ (n.dropKv i).nrKeys := Nat.le_sub_one_of_lt hi
  have hafter : after (s.part 0 (n.dropKv i)) (n.dropKv i).sep i (n.nrKeys - 1 - i) =
      after (s.part 0 n) n.sep (i + 1) (n.nrKeys - 1 - i) :=
    after_congr (fun j hj => congrArg (fun x => [x])
      ((Node.dropKv_of_ge (by omega) (by omega)).trans (congrArg n.kv (by omega)))) fun _ _ => rfl
  have hupto : upto (s.part 0 (n.dropKv i)) (n.dropKv i).sep i = upto (s.part 0 n) n.sep i :=
    upto_congr (fun _ _ => rfl) fun j hj => congrArg (fun x => [x]) (Node.dropKv_of_lt hj hi)
  refine ⟨upto (s.part 0 n) n.sep i, after (s.part 0 n) n.sep (i + 1) (n.nrKeys - 1 - i), ?_, ?_, ?_, ?_⟩
  · rw [inorder_at_key _ hi, show n.nrKeys - (i + 1) = n.nrKeys - 1 - i by omega]
    show (_ ++ []) ++ _ :: ([] ++ _) = _
    rw [List.append_nil, List.nil_append]
  · rw [inorder_split hle, hupto]
    show (_ ++ []) ++ after _ _ i (n.nrKeys - 1 - i) = _
    rw [hafter, List.append_nil]
  · rintro rfl
    rfl
  · intro hlast
    rw [← hlast, Nat.sub_self]
    rfl

/-- Deleting pair `i` of a leaf that keeps at least `lo` keys. -/
lemma Grow.dropKv (ht : Sub s lo 1 b) (hz : s.bm 0 = true) (hb : s.nodes b = some n)
    (hi : i < n.nrKeys) (hlo : lo ≤ n.nrKeys - 1) :
    Grow s (s.writeNode (n.dropKv i)) lo 1 1 b [] ∧ ∃ l₁ l₂, entries s.nodes 1 b = l₁ ++ n.kv i :: l₂ ∧
      entries (s.writeNode (n.dropKv i)).nodes 1 b = l₁ ++ l₂ ∧
      (i = 0 → l₁ = []) ∧ (i = n.nrKeys - 1 → l₂ = []) := by
  have hok := ht.nodeOk hb
  obtain ⟨l₁, l₂, hold, hnew, hfirst, hlast⟩ := inorder_dropKv (s := s) hi
  have hs := ht.sorted_inorder hb
  rw [hold] at hs
  obtain ⟨hgrow, hent⟩ := Grow.writeTop ht hz hb (m := n.dropKv i)
    ⟨hok.block, hok.pages, hlo, (Nat.sub_le _ _).trans hok.le, hok.leaf⟩ (Or.inl rfl)
    (by rw [hnew]; exact hs.sublist (List.Sublist.append_left (List.sublist_cons_self _ _) _))
  refine ⟨hgrow, l₁, l₂, ?_, hent.trans hnew, hfirst, hlast⟩
  rw [entries_succ hb]
  exact hold

/-- `nkfs_btree_node_delete_key` at a leaf that has the key. -/
lemma nodeDeleteKey_leaf {s : Sb} (ho : s.Owned n.block) (hp : n.AllPages) (hl : n.leaf = true)
    (hkey : hasKey n k = .ok (some i)) (hi : i < n.nrKeys) (hnr : n.nrKeys ≤ keySlots) (fuel : ℕ) :
    nodeDeleteKey (fuel + 1) n k s = .ok (.ok (), s.writeNode (n.dropKv i)) := by
  rw [nodeDeleteKey, run_bind_ok (run_lift hkey)]
  show (if n.leaf then _ else _ : M (Except Errno Unit)) s = _
  rw [hl, if_pos rfl, run_bind_ok (run_lift (leafDeleteKey_eq hl hkey hi hnr)),
    run_bind_ok (nodeWrite_run (n := n.dropKv i) ho hp)]
  rfl

end leaf

/-! ### The neighbour of a key in an interior node -/

/-- `p` at block `q` is the leaf at the end of the spine that starts at a block with `h` levels
below it. -/
inductive SpineEnd (nodes : ℕ → Option Node) (last : Bool) : ℕ → ℕ → ℕ → Node → Prop
  | leaf {b : ℕ} {p : Node} (hb : nodes b = some p) : SpineEnd nodes last 0 b b p
  | down {h b q : ℕ} {n p : Node} (hb : nodes b = some n)
      (hrest : SpineEnd nodes last h (n.child (n.edge last)) q p) : SpineEnd nodes last (h + 1) b q p

section spine

variable {s : Sb} {n p : Node} {last : Bool} {lo h b q : ℕ}

lemma Node.edge_le (n : Node) (last : Bool) : n.edge last ≤ n.nrKeys := by
  unfold Node.edge
  split_ifs
  · exact le_rfl
  · exact Nat.zero_le _

/-- The slot at the end of a spine. -/
def Node.endSlot (p : Node) (last : Bool) : ℕ := if last then p.nrKeys - 1 else 0

lemma Node.endSlot_lt (hp : 0 < p.nrKeys) : p.endSlot last < p.nrKeys := by
  unfold Node.endSlot
  split_ifs
  · exact Nat.sub_lt hp Nat.one_pos
  · exact hp

/-- The pair `x` taken off the end of a list. -/
def AtEnd (last : Bool) (x : Key × ℕ) (l l' : List (Key × ℕ)) : Prop :=
  if last then l = l' ++ [x] else l = x :: l'

lemma AtEnd.sublist {x : Key × ℕ} {l l' : List (Key × ℕ)} (h : AtEnd last x l l') : l'.Sublist l := by
  unfold AtEnd at h
  split_ifs at h
  · exact h ▸ List.sublist_append_left ..
  · exact h ▸ List.sublist_cons_self ..

/-- The end of the reading of a node is the end of its outermost part. -/
lemma AtEnd.inorder {g : ℕ → List (Key × ℕ)} {x : Key × ℕ} {l' : List (Key × ℕ)}
    (h : AtEnd last x (g (n.edge last)) l') :
    AtEnd last x (Lib.Slots.inorder g n.sep n.nrKeys)
      (upto g n.sep (n.edge last) ++ l' ++ after g n.sep (n.edge last) (n.nrKeys - n.edge last)) := by
  rw [inorder_split (n.edge_le last)]
  cases last with
  | true =>
    have hend : g (n.edge true) = l' ++ [x] := h
    show _ = _ ++ [x]
    rw [hend, show n.nrKeys - n.edge true = 0 from Nat.sub_self _, after]
    simp only [List.append_nil, List.append_assoc]
  | false =>
    have hend : g (n.edge false) = x :: l' := h
    show _ = x :: _
    rw [hend, show n.edge false = 0 from rfl, upto]
    simp only [List.nil_append, List.cons_append]

/-- Deleting the pair at the end of a spine. -/
lemma SpineEnd.dropKv (he : SpineEnd s.nodes last h b q p) (hz : s.bm 0 = true)
    (hp : btreeT ≤ p.nrKeys) : ∀ {lo : ℕ}, Sub s lo (h + 1) b → lo ≤ btreeT - 1 →
    Grow s (s.writeNode (p.dropKv (p.endSlot last))) lo (h + 1) (h + 1) b [] ∧
      AtEnd last (p.kv (p.endSlot last)) (entries s.nodes (h + 1) b)
        (entries (s.writeNode (p.dropKv (p.endSlot last))).nodes (h + 1) b) := by
  have hpos : 0 < p.nrKeys := hp.trans_lt' (by decide)
  induction he with
  | leaf hb =>
    intro lo ht hlo
    obtain ⟨hgrow, l₁, l₂, hold, hnew, hfirst, hlast⟩ :=
      Grow.dropKv ht hz hb (Node.endSlot_lt hpos) (hlo.trans (Nat.sub_le_sub_right hp 1))
    refine ⟨hgrow, ?_⟩
    rw [hold, hnew]
    cases last with
    | true =>
      rw [hlast rfl, List.append_nil]
      rfl
    | false =>
      rw [hfirst rfl]
      rfl
  | down hb hrest ih =>
    rename_i n _
    intro lo ht hlo
    obtain ⟨hgrow, hend⟩ := ih hp hpos (ht.child hb (n.edge_le last)) le_rfl
    have hend' := AtEnd.inorder (n := n) (g := s.part _ n) hend
    obtain ⟨-, hent, hperm, hsub⟩ := ht.replaceChild hz hb (n.edge_le last) hgrow.step hgrow.sub
      hgrow.perm ((ht.sorted_inorder hb).sublist hend'.sublist)
    refine ⟨⟨hgrow.step.mono fun x hx => mem_blocks_child hb (n.edge_le last) hx, hperm, hsub⟩, ?_⟩
    rw [hent, entries_succ hb]
    exact hend'

end spine

/-! ### Moving and merging never come back -/

section stops

variable {s : Sb} {node child sib dst src : Node} {i : ℕ}

lemma putChild_ok (hpd : dst.AllPages) (hps : src.AllPages) (di si : ℕ) (hi : di ≤ dst.nrKeys + 1)
    (h : dst.nrKeys + 1 < childSlots) (hs : si < childSlots) : ∃ d, putChild dst di src si = .ok d := by
  rw [putChild, except_bind_ok (shiftChildrenUp_eq di _ dst hpd (by omega))]
  exact ⟨_, copyChild_eq (by exact hpd) hps (by omega) hs⟩

/-- Removing a child of a node with many keys leaves the array of page pointers. -/
lemma deleteChildIndex_oob (hi : i ≤ node.nrKeys) (hnr : btreeChildPages ≤ node.nrKeys) :
    deleteChildIndex node i = .error .oob := by
  rcases deleteChildIndex_cases hi with h | ⟨_, _, _, hlt, _⟩
  · exact h
  · exact absurd hlt (not_lt.mpr hnr)

/-- Moving a key from a neighbour with `T` keys or more leaves the array of page pointers. -/
lemma giveKeySlots_oob {left : Bool} (hpc : child.AllPages) (hps : sib.AllPages)
    (hn : node.nrKeys < keySlots) (hc : child.nrKeys < btreeT) (hs : sib.nrKeys < keySlots)
    (hT : btreeT ≤ sib.nrKeys) (hi : if left then 0 < i ∧ i ≤ node.nrKeys else i < node.nrKeys) :
    giveKeySlots node child i sib left = .error .oob := by
  have hT' : btreeT = 896 := rfl
  have hks : keySlots = 1792 := rfl
  have hcs : childSlots = 2048 := rfl
  have hpages : btreeChildPages ≤ sib.nrKeys := le_trans (by decide) hT
  have hdel : ∀ j < sib.nrKeys, ∃ d, deleteKeyIndex sib j = .ok d ∧ d.nrKeys = sib.nrKeys :=
    fun j hj => ⟨_, deleteKeyIndex_eq hj hs.le, rfl⟩
  cases left with
  | false =>
    have hi : i < node.nrKeys := hi
    obtain ⟨c, hc₁, hpc₁⟩ : ∃ c, copyKv child child.nrKeys node i = .ok c ∧
        (c.AllPages ∧ c.nrKeys = child.nrKeys) :=
      ⟨_, copyKv_eq (by omega) (by omega), hpc, rfl⟩
    obtain ⟨d, hd, hnr⟩ := hdel 0 (by omega)
    rw [giveKeySlots, Bool.not_false, if_pos rfl, except_bind_ok hc₁,
      except_bind_ok (copyKv_eq (by omega) (by omega)),
      except_bind_ok (copyChild_eq hpc₁.1 hps (by omega) (by omega)), except_bind_ok hd]
    exact except_bind_error (deleteChildIndex_oob (Nat.zero_le _) (hnr ▸ hpages))
  | true =>
    have hi : 0 < i ∧ i ≤ node.nrKeys := hi
    obtain ⟨c, hc₁, hpc₁⟩ : ∃ c, putKv child 0 node (i - 1) = .ok c ∧
        (c.AllPages ∧ c.nrKeys = child.nrKeys) :=
      ⟨_, putKv_eq child node (Nat.zero_le _) (by omega) (by omega), hpc, rfl⟩
    obtain ⟨c', hc'⟩ := putChild_ok hpc₁.1 hps 0 sib.nrKeys (Nat.zero_le _) (by omega) (by omega)
    obtain ⟨d, hd, hnr⟩ := hdel (sib.nrKeys - 1) (by omega)
    rw [giveKeySlots, Bool.not_true, if_neg Bool.false_ne_true, except_bind_ok hc₁,
      except_bind_ok (copyKv_eq (by omega) (by omega)), except_bind_ok hc', except_bind_ok hd]
    exact except_bind_error (deleteChildIndex_oob le_rfl (hnr ▸ hpages))

/-- Merging two nodes leaves the array of page pointers of the parent, or clears one of its entries. -/
lemma mergeSlots_cases (hpd : dst.AllPages) (hps : src.AllPages) (hn : node.nrKeys < keySlots)
    (hi : i < node.nrKeys) (hd : dst.nrKeys < btreeT) (hs : src.nrKeys < btreeT) :
    mergeSlots node i dst src = .error .oob ∨ ∃ node' dst' p,
      mergeSlots node i dst src = .ok (node', dst') ∧ p < btreeChildPages ∧ node'.page p = false ∧
        node'.block = node.block ∧ dst'.block = dst.block ∧ dst'.AllPages := by
  have hT' : btreeT = 896 := rfl
  have hks : keySlots = 1792 := rfl
  have hkey : nodeKey node i = .ok (node.key i) := nodeKey_eq (hi.trans hn)
  have hval : nodeValue node i = .ok (node.kv i).2 :=
    if_pos ((hi.trans hn).trans_le (by decide))
  obtain ⟨m, hm, hmb, hmp⟩ := nodeMerge_ok hpd hps (node.key i) (node.kv i).2
    (show dst.nrKeys + 1 + src.nrKeys < keySlots by omega)
  obtain ⟨d, hdel, hnr, hdb⟩ : ∃ d, deleteKeyIndex node i = .ok d ∧ d.nrKeys = node.nrKeys ∧
      d.block = node.block := ⟨_, deleteKeyIndex_eq hi hn.le, rfl, rfl⟩
  rw [mergeSlots, except_bind_ok hkey, except_bind_ok hval, except_bind_ok hm, except_bind_ok hdel]
  have hid : i + 1 ≤ d.nrKeys := hnr ▸ hi
  rcases deleteChildIndex_cases hid with
    hoob | ⟨node', hok, hpage, hlt, hb⟩
  · exact Or.inl (except_bind_error hoob)
  · exact Or.inr ⟨_, m, d.nrKeys, except_bind_ok hok, hlt, hpage, hb.trans hdb, hmb, hmp⟩

/-- The program stops with a fault of the source; up to there no failed allocation was undone. -/
def Faults {α : Type} (x : M α) (s : Sb) : Prop :=
  Stops x s fun e s' => e ≠ .fuel ∧ s.allocFails ≤ s'.allocFails

lemma Faults.of_error {α : Type} {x : M α} {e : Fault} (h : x s = .error (e, s))
    (he : e ≠ .fuel) : Faults x s := ⟨e, s, h, he, le_rfl⟩

/-- A step with a known result, then a fault. -/
lemma Faults.step {α β : Type} {x : M α} {f : α → M β} {a : α} {s' : Sb} (hx : x s = .ok (a, s'))
    (hs : s'.allocFails = s.allocFails) (h : Faults (f a) s') : Faults (x >>= f) s :=
  Stops.step hx (h.mono fun _ _ he => hs ▸ he)

lemma Faults.of_left {α β : Type} {x : M α} {f : α → M β} (h : Faults x s) : Faults (x >>= f) s :=
  Stops.of_left h

/-- A program with the same outcome. -/
lemma Faults.of_eq {α : Type} {x y : M α} (heq : x s = y s) (h : Faults y s) : Faults x s := by
  obtain ⟨e, s', he, hP⟩ := h
  exact ⟨e, s', heq.trans he, hP⟩

/-- A node that can be read and written. -/
structure Sb.Holds (s : Sb) (n : Node) : Prop where
  owned : s.Owned n.block
  pages : n.AllPages
  lt : n.nrKeys < keySlots

lemma childGiveKey_stops {left : Bool} (hn : s.Holds node) (hc : s.Holds child) (hs : s.Holds sib)
    (hlt : child.nrKeys < btreeT) (hT : btreeT ≤ sib.nrKeys)
    (hi : if left then 0 < i ∧ i ≤ node.nrKeys else i < node.nrKeys) :
    Faults (childGiveKey node child i sib left) s := by
  refine Faults.of_error (e := .oob) ?_ (by decide)
  have hgive := giveKeySlots_oob hc.pages hs.pages hn.lt hlt hs.lt hT hi
  rw [childGiveKey, run_bind_error (run_lift_error hgive)]

lemma childMerge_stops (left : Bool) (hn : s.Holds node) (hc : s.Holds child) (hs : s.Holds sib)
    (hlt : child.nrKeys < btreeT) (hT : sib.nrKeys < btreeT)
    (hi : if left then 0 < i ∧ i ≤ node.nrKeys else i < node.nrKeys) :
    Faults (childMerge node child i sib left) s := by
  -- both ways write the merged node and then the parent
  have key : ∀ {j : ℕ} {dst src : Node} {f : Node × Node → M Node}, j < node.nrKeys → s.Holds dst →
      s.Holds src → dst.nrKeys < btreeT → src.nrKeys < btreeT →
      (∀ a b, ∃ g : PUnit → M Node, f (a, b) = nodeWrite b >>= fun _ => nodeWrite a >>= g) →
      Faults ((liftM (mergeSlots node j dst src) : M (Node × Node)) >>= f) s := by
    intro j dst src f hj hd hsrc hdlt hslt hf
    rcases mergeSlots_cases hd.pages hsrc.pages hn.lt hj hdlt hslt with
      hoob | ⟨node', dst', p, hok, hp, hpage, hnb, hdb, hdp⟩
    · exact Faults.of_error (run_bind_error (run_lift_error hoob)) (by decide)
    · obtain ⟨g, hg⟩ := hf node' dst'
      refine Faults.step (run_lift hok) rfl ?_
      rw [hg]
      refine Faults.step (nodeWrite_run (hdb ▸ hd.owned) hdp) rfl ?_
      refine Faults.of_error (run_bind_error (nodeWrite_null ?_ hp hpage)) (by decide)
      exact hnb ▸ (TreeStep.writeNode _ _).owned hn.owned
  cases left with
  | true =>
    have hi : 0 < i ∧ i ≤ node.nrKeys := hi
    exact key (show i - 1 < node.nrKeys by omega) hs hc hT hlt fun _ _ => ⟨_, rfl⟩
  | false =>
    have hi : i < node.nrKeys := hi
    exact key hi hc hs hlt hT fun _ _ => ⟨_, rfl⟩

lemma deleteMerge_stops {pre suc : Node} (hn : s.Holds node) (hp : s.Holds pre) (hs : s.Holds suc)
    (hplt : pre.nrKeys < btreeT) (hslt : suc.nrKeys < btreeT) (hi : i < node.nrKeys) :
    Faults (deleteMerge node pre suc i) s := by
  unfold deleteMerge
  rcases mergeSlots_cases hp.pages hs.pages hn.lt hi hplt hslt with
    hoob | ⟨node', dst', p, hok, hp, hpage, hnb, -, -⟩
  · exact Faults.of_error (run_bind_error (run_lift_error hoob)) (by decide)
  · refine Faults.step (run_lift hok) rfl (Faults.of_error (run_bind_error
      (nodeWrite_null (hnb ▸ hn.owned) hp hpage)) (by decide))

/-- **A child with fewer than `T` keys.** Whatever its neighbours hold, bringing it to `T` keys ends
in a fault. -/
theorem childRefill_stops {left right : Option Node} (hn : s.Holds node) (hc : s.Holds child)
    (hlt : child.nrKeys < btreeT) (hl : ∀ l, left = some l → s.Holds l ∧ 0 < i ∧ i ≤ node.nrKeys)
    (hr : ∀ r, right = some r → s.Holds r ∧ i < node.nrKeys) :
    Faults (childRefill node child i left right) s := by
  have hgiveRight : ∀ r, right = some r → btreeT ≤ r.nrKeys →
      Faults (childGiveKey node child i r false) s := fun r h hT =>
    childGiveKey_stops hn hc (hr r h).1 hlt hT (hr r h).2
  cases left with
  | none =>
    cases right with
    | none => exact Faults.of_error rfl (by decide)
    | some r =>
      show Faults (if r.nrKeys ≥ btreeT then _ else _) s
      split_ifs with hT
      · exact hgiveRight r rfl hT
      · exact childMerge_stops false hn hc (hr r rfl).1 hlt (not_le.mp hT) (hr r rfl).2
  | some l =>
    obtain ⟨hlh, hli⟩ := hl l rfl
    show Faults (if l.nrKeys ≥ btreeT then _ else _) s
    split_ifs with hlT
    · exact childGiveKey_stops hn hc hlh hlt hlT hli
    · have hmerge := childMerge_stops true hn hc hlh hlt (not_le.mp hlT) hli
      cases right with
      | none => exact hmerge
      | some r =>
        show Faults (if r.nrKeys ≥ btreeT then _ else _) s
        split_ifs with hT
        · exact hgiveRight r rfl hT
        · exact hmerge

end stops

/-! ### Bringing a child to `T` keys -/

section balance

variable {s : Sb} {n c : Node} {lo h b i : ℕ}

lemma Sub.holds (ht : Sub s lo (h + 1) b) (hb : s.nodes b = some n) : s.Holds n := by
  have hok := ht.nodeOk hb
  exact ⟨hok.block ▸ ht.owned b mem_blocks_self, hok.pages, hok.nrKeys_lt_keySlots⟩

/-- Reading a child of an interior node. -/
lemma readChild_run (ht : Sub s lo (h + 2) b) (hb : s.nodes b = some n) (hi : i ≤ n.nrKeys) :
    ∃ c, s.nodes (n.child i) = some c ∧ s.Holds c ∧ getChildVal n i = .ok (n.child i) ∧
      nodeRead (n.child i) s = .ok (some c, s) := by
  have hok := ht.nodeOk hb
  have hchild := ht.child hb hi
  obtain ⟨c, hc, hcok⟩ := hchild.node
  exact ⟨c, hc, hchild.holds hc,
    getChildVal_eq hok.pages (hi.trans_lt (Nat.lt_of_succ_lt hok.nrKeys_lt_childSlots)),
    nodeRead_run (hchild.owned _ mem_blocks_self) hc hcok.block⟩

lemma readChildIf_run (cond : Bool) (ht : Sub s lo (h + 2) b) (hb : s.nodes b = some n)
    (hi : cond = true → i ≤ n.nrKeys) : ∃ r, readChildIf cond n i s = .ok (r, s) ∧
      ∀ c, r = some c → cond = true ∧ s.Holds c := by
  unfold readChildIf
  cases cond with
  | false => exact ⟨none, rfl, fun c hc => nomatch hc⟩
  | true =>
    obtain ⟨c, -, hholds, hget, hread⟩ := readChild_run ht hb (hi rfl)
    refine ⟨some c, ?_, fun c' hc' => ⟨rfl, Option.some.inj hc' ▸ hholds⟩⟩
    rw [if_pos rfl, run_bind_ok (run_lift hget), hread]

lemma Sub.leaf_eq (ht : Sub s lo (h + 1) b) (hb : s.nodes b = some n) : n.leaf = decide (h = 0) := by
  exact (ht.nodeOk hb).leaf

/-- A child with `T` keys is left alone. -/
lemma childBalance_run (ht : Sub s lo (h + 2) b) (hb : s.nodes b = some n) (hi : i ≤ n.nrKeys)
    (hc : s.nodes (n.child i) = some c) (hT : btreeT ≤ c.nrKeys) :
    childBalance n i s = .ok (some c, s) := by
  obtain ⟨c', hc', -, hget, hread⟩ := readChild_run ht hb hi
  rw [hc, Option.some.injEq] at hc'
  subst hc'
  rw [childBalance, ht.leaf_eq hb, decide_eq_false (Nat.succ_ne_zero h), if_neg Bool.false_ne_true,
    run_bind_ok (run_lift hget), run_bind_ok hread]
  show (if c.nrKeys < btreeT then _ else _ : M (Option Node)) s = _
  rw [if_neg (not_lt.mpr hT)]
  rfl

lemma childBalance_stops (ht : Sub s lo (h + 2) b) (hb : s.nodes b = some n) (hi : i ≤ n.nrKeys)
    (hc : s.nodes (n.child i) = some c) (hT : c.nrKeys < btreeT) : Faults (childBalance n i) s := by
  obtain ⟨c', hc', hholds, hget, hread⟩ := readChild_run ht hb hi
  rw [hc, Option.some.injEq] at hc'
  subst hc'
  obtain ⟨left, hleft, hl⟩ := readChildIf_run (i := i - 1) (i > 0) ht hb
    fun _ => (Nat.sub_le i 1).trans hi
  obtain ⟨right, hright, hr⟩ := readChildIf_run (i := i + 1) (i < n.nrKeys) ht hb
    fun h => of_decide_eq_true h
  rw [childBalance, ht.leaf_eq hb, decide_eq_false (Nat.succ_ne_zero h), if_neg Bool.false_ne_true]
  refine Faults.step (run_lift hget) rfl (Faults.step hread rfl ?_)
  show Faults (if c.nrKeys < btreeT then _ else _) s
  rw [if_pos hT]
  refine Faults.step hleft rfl (Faults.step hright rfl (Faults.of_left ?_))
  exact childRefill_stops (ht.holds hb) hholds hT (fun l h => ⟨(hl l h).2, of_decide_eq_true (hl l h).1, hi⟩)
    fun r h => ⟨(hr r h).2, of_decide_eq_true (hr r h).1⟩

/-- One level of the loops that look for the neighbour of a key. -/
lemma findMost_succ (ht : Sub s lo (h + 2) b) (hb : s.nodes b = some n) (hpos : 0 < n.nrKeys)
    (last : Bool) (fuel : ℕ) : findMost last (fuel + 1) n s = (do match ← childBalance n (n.edge last) with
          | none => stop (if last then .bug else .null)
          | some next => findMost last fuel next : M (Node × ℕ)) s := by
  rw [findMost, if_neg hpos.ne', ht.leaf_eq hb, decide_eq_false (Nat.succ_ne_zero h),
    if_neg Bool.false_ne_true]
  rfl

lemma keysAt_eq {nodes : ℕ → Option Node} (hb : nodes b = some n) : keysAt nodes b = n.nrKeys := by
  rw [keysAt, hb]

lemma Sub.increasing (ht : Sub s lo (h + 1) b) (hb : s.nodes b = some n) : n.Increasing :=
  increasing_of_sorted (ht.sorted_inorder hb)

/-- What the loops return: the leaf at the end of the spine and its last or first slot. -/
structure SpineLeaf (s : Sb) (last : Bool) (h b q : ℕ) (p : Node) : Prop where
  atEnd : SpineEnd s.nodes last h b q p
  block : p.block = q
  mem : q ∈ blocks s.nodes (h + 1) b
  holds : s.Holds p
  leaf : p.leaf = true
  le : btreeT ≤ p.nrKeys
  increasing : p.Increasing

lemma findMost_run (last : Bool) : ∀ (h fuel : ℕ) {lo b : ℕ} {n : Node}, h < fuel →
    Sub s lo (h + 1) b → s.nodes b = some n → btreeT ≤ n.nrKeys → SpineRoomy s.nodes last h b →
    ∃ q p, findMost last fuel n s = .ok ((p, p.endSlot last), s) ∧ SpineLeaf s last h b q p
  | _, 0, _, _, _, hf, _, _, _, _ => absurd hf (Nat.not_lt_zero _)
  | 0, fuel + 1, lo, b, n, _, ht, hb, hT, _ => by
    have hpos : n.nrKeys ≠ 0 := (hT.trans_lt' (by decide)).ne'
    have hleaf : n.leaf = true := ht.leaf_eq hb
    have hok := ht.nodeOk hb
    refine ⟨b, n, ?_, .leaf hb, hok.block, mem_blocks_self, ht.holds hb, hleaf, hT, ht.increasing hb⟩
    rw [findMost, if_neg hpos, hleaf, if_pos rfl]
    rfl
  | h + 1, fuel + 1, lo, b, n, hf, ht, hb, hT, hroomy => by
    obtain ⟨c, hc, -⟩ := readChild_run ht hb (n.edge_le last)
    obtain ⟨hcT, hrest⟩ := hroomy n hb
    rw [keysAt_eq hc] at hcT
    obtain ⟨q, p, hrun, hp⟩ := findMost_run last h fuel (Nat.lt_of_succ_lt_succ hf)
      (ht.child hb (n.edge_le last)) hc hcT hrest
    refine ⟨q, p, ?_, { hp with
      atEnd := .down hb hp.atEnd, mem := mem_blocks_child hb (n.edge_le last) hp.mem }⟩
    rw [findMost_succ ht hb (hT.trans_lt' (by decide)),
      run_bind_ok (childBalance_run ht hb (n.edge_le last) hc hcT)]
    exact hrun

lemma findMost_stops (last : Bool) : ∀ (h fuel : ℕ) {lo b : ℕ} {n : Node}, h < fuel →
    Sub s lo (h + 1) b → s.nodes b = some n → btreeT ≤ n.nrKeys → ¬ SpineRoomy s.nodes last h b →
    Faults (findMost last fuel n) s
  | _, 0, _, _, _, hf, _, _, _, _ => absurd hf (Nat.not_lt_zero _)
  | 0, _ + 1, _, _, _, _, _, _, _, hroomy => absurd trivial hroomy
  | h + 1, fuel + 1, lo, b, n, hf, ht, hb, hT, hroomy => by
    obtain ⟨c, hc, -⟩ := readChild_run ht hb (n.edge_le last)
    refine Faults.of_eq (findMost_succ ht hb (hT.trans_lt' (by decide)) last fuel) ?_
    rcases lt_or_ge c.nrKeys btreeT with hlt | hge
    · exact Faults.of_left (childBalance_stops ht hb (n.edge_le last) hc hlt)
    · refine Faults.step (childBalance_run ht hb (n.edge_le last) hc hge) rfl ?_
      refine findMost_stops last h fuel (Nat.lt_of_succ_lt_succ hf)
        (ht.child hb (n.edge_le last)) hc hge fun hrest => hroomy fun n' hn' => ?_
      rw [hb, Option.some.injEq] at hn'
      subst hn'
      exact ⟨(keysAt_eq hc).symm ▸ hge, hrest⟩

end balance

/-! ### Replacing a key by its neighbour -/

section replace

variable {s : Sb} {n p : Node} {last : Bool} {lo h b q i : ℕ}

lemma Sb.writeNode_comm {m : Node} (hne : n.block ≠ m.block) :
    (s.writeNode n).writeNode m = (s.writeNode m).writeNode n := by
  simp only [Sb.writeNode, update_comm hne, update_of_ne hne, update_of_ne hne.symm]

/-- The child of key `i` that holds its neighbour. -/
def besideKey (last : Bool) (i : ℕ) : ℕ := if last then i else i + 1

/-- The reading of a node whose key `i` was replaced by its neighbour `x`, which was taken off the
end of its part. -/
lemma inorder_replace {g p : ℕ → List (Key × ℕ)} {x : Key × ℕ} {m : Node} (hi : i < n.nrKeys)
    (hs : Sorted (inorder g n.sep n.nrKeys)) (hkv : m.kv = update n.kv i x)
    (hnr : m.nrKeys = n.nrKeys) (hend : AtEnd last x (g (besideKey last i)) (p (besideKey last i)))
    (hother : ∀ j ≤ n.nrKeys, j ≠ besideKey last i → p j = g j) :
    inorder p m.sep m.nrKeys = del (n.key i) (inorder g n.sep n.nrKeys) := by
  have hsep : ∀ j, j ≠ i → m.sep j = n.sep j := fun j hj => by
    rw [Node.sep, hkv, update_of_ne hj]
  have hself : m.kv i = x := by rw [hkv, update_self]
  have hbeside : i ≤ besideKey last i ∧ besideKey last i ≤ i + 1 := by
    unfold besideKey
    split_ifs <;> omega
  have hupto : upto p m.sep i = upto g n.sep i :=
    upto_congr (fun j hj => hother j (by omega) (by omega)) fun j hj => hsep j hj.ne
  have hafter : after p m.sep (i + 1) (n.nrKeys - (i + 1)) = after g n.sep (i + 1) (n.nrKeys - (i + 1)) :=
    after_congr (fun j _ => hsep _ (by omega)) fun j hj => hother _ (by omega) (by omega)
  rw [inorder_at_key g hi] at hs
  rw [inorder_at_key p (hnr ▸ hi), hnr, hself, hupto, hafter, inorder_at_key g hi,
    show n.key i = (n.kv i).1 from rfl, del_mid hs]
  cases last with
  | true =>
    have hend : g i = p i ++ [x] := hend
    rw [hend, hother (i + 1) hi (Nat.succ_ne_self i)]
    simp only [List.append_assoc, List.singleton_append]
  | false =>
    have hend : g (i + 1) = x :: p (i + 1) := hend
    rw [hend, hother i hi.le (Nat.succ_ne_self i).symm]
    simp only [List.append_assoc, List.cons_append]

/-- Key `i` of an interior node is replaced by its neighbour, which is deleted from its leaf. -/
lemma Grow.replaceKey (ht : Sub s lo (h + 2) b) (hz : s.bm 0 = true) (hb : s.nodes b = some n)
    (hi : i < n.nrKeys) (hp : SpineLeaf s last h (n.child (besideKey last i)) q p) :
    let s' := (s.writeNode { n with
      kv := update n.kv i (p.kv (p.endSlot last)) }).writeNode (p.dropKv (p.endSlot last))
    Grow s s' lo (h + 2) (h + 2) b [] ∧
      entries s'.nodes (h + 2) b = del (n.key i) (entries s.nodes (h + 2) b) := by
  intro s'
  have hok := ht.nodeOk hb
  have hci : besideKey last i ≤ n.nrKeys := by
    unfold besideKey
    split_ifs
    · exact hi.le
    · exact hi
  have hs := ht.sorted_inorder hb
  have hbq : n.block ≠ (p.dropKv (p.endSlot last)).block := by
    rw [hok.block]
    show b ≠ p.block
    rw [hp.block]
    rintro rfl
    exact ht.notMem_child hb hci hp.mem
  -- the neighbour is deleted first, so that the keys stay sorted at every step
  obtain ⟨hgrow, hend⟩ := hp.atEnd.dropKv hz hp.le (ht.child hb hci) le_rfl
  have hother : ∀ j ≤ n.nrKeys, j ≠ besideKey last i →
      (s.writeNode (p.dropKv (p.endSlot last))).part (h + 1) n j = s.part (h + 1) n j :=
    fun j hj hne => (hgrow.step.subtree (ht.child hb hj) fun x hx => ht.disjoint_children hb hj hci hne hx).1
  have hsub : (entries (s.writeNode (p.dropKv (p.endSlot last))).nodes (h + 1)
      (n.child (besideKey last i))).Sublist (s.part (h + 1) n (besideKey last i)) := hend.sublist
  obtain ⟨hb₁, -, hperm₁, hsub₁⟩ := ht.replaceChild hz hb hci hgrow.step hgrow.sub hgrow.perm
    (hs.sublist (by
      rw [inorder_split hci]
      exact (hsub.append_left _).append_right _))
  have hgrow₁ : Grow s (s.writeNode (p.dropKv (p.endSlot last))) lo (h + 2) (h + 2) b [] :=
    ⟨hgrow.step.mono fun x hx => mem_blocks_child hb hci hx, hperm₁, hsub₁⟩
  have hread := inorder_replace (g := s.part (h + 1) n)
    (p := (s.writeNode (p.dropKv (p.endSlot last))).part (h + 1) n)
    (m := { n with kv := update n.kv i (p.kv (p.endSlot last)) }) hi hs rfl rfl hend hother
  obtain ⟨hgrow₂, hent⟩ := Grow.writeTop hsub₁ (hgrow₁.step.marked hz) hb₁
    (m := { n with kv := update n.kv i (p.kv (p.endSlot last)) })
    ⟨hok.block, hok.pages, hok.lo_le, hok.le, hok.leaf⟩ (Or.inr ⟨rfl, rfl⟩)
    (by exact hread ▸ sorted_del hs)
  have hcomm : s' = (s.writeNode (p.dropKv (p.endSlot last))).writeNode
      { n with kv := update n.kv i (p.kv (p.endSlot last)) } := Sb.writeNode_comm hbq
  rw [hcomm, entries_succ hb]
  exact ⟨hgrow₁.trans hgrow₂, hent.trans hread⟩

end replace

/-! ### The descent of the deletion -/

/-- What `nkfs_btree_delete_key` returns for the pairs of a tree. -/
def deleteResult (es : List (Key × ℕ)) (k : Key) : Except Errno Unit :=
  match find es k with
  | none => .error .enoent
  | some _ => .ok ()

/-- What a deletion from the tree of height `h` at `b` ends in: the map without the key, on the same
blocks. -/
structure DeletePost (s : Sb) (lo h b : ℕ) (k : Key) (r : Except Errno Unit) (s' : Sb) : Prop where
  grow : Grow s s' lo h h b []
  entries_eq : entries s'.nodes h b = del k (entries s.nodes h b)
  result : r = deleteResult (entries s.nodes h b) k
  fails : s'.allocFails = s.allocFails

section delete

variable {s : Sb} {n c : Node} {lo h b i fuel : ℕ} {k : Key}

/-- The part of `nkfs_btree_node_delete_key` that replaces a key by its neighbour. -/
def deleteNeighbour (last : Bool) (fuel : ℕ) (node : Node) (index : ℕ) (child : Node) :
    M (Except Errno Unit) := do
  let (p, pIndex) ← findMost last fuel child
  let node ← copyKv node index p pIndex
  nodeWrite node
  let key ← nodeKey p pIndex
  nodeDeleteKey fuel p key

lemma nodeDeleteKey_present (ht : Sub s lo (h + 2) b) (hb : s.nodes b = some n)
    (hi : i < n.nrKeys) (hkey : hasKey n k = .ok (some i)) (fuel : ℕ) : ∃ pre suc,
      s.nodes (n.child i) = some pre ∧ s.nodes (n.child (i + 1)) = some suc ∧ s.Holds pre ∧
      s.Holds suc ∧ nodeDeleteKey (fuel + 1) n k s =
        (if pre.nrKeys ≥ btreeT then deleteNeighbour true fuel n i pre
        else if suc.nrKeys ≥ btreeT then deleteNeighbour false fuel n i suc
        else do
          let (node, key) ← deleteMerge n pre suc i
          nodeDeleteKey fuel node key) s := by
  obtain ⟨pre, hpre, hpreh, hpget, hpread⟩ := readChild_run ht hb hi.le
  obtain ⟨suc, hsuc, hsuch, hsget, hsread⟩ := readChild_run ht hb (Nat.succ_le_of_lt hi)
  refine ⟨pre, suc, hpre, hsuc, hpreh, hsuch, ?_⟩
  rw [nodeDeleteKey, run_bind_ok (run_lift hkey)]
  show (if n.leaf then _ else _ : M (Except Errno Unit)) s = _
  rw [ht.leaf_eq hb, decide_eq_false (Nat.succ_ne_zero h), if_neg Bool.false_ne_true,
    run_bind_ok (run_lift hpget), run_bind_ok hpread, run_bind_ok (run_lift hsget),
    run_bind_ok hsread]
  rfl

lemma nodeDeleteKey_absent (ht : Sub s lo (h + 2) b) (hb : s.nodes b = some n)
    (hkey : hasKey n k = .ok none) (fuel : ℕ) : ∃ i, n.IsRank k i ∧ nodeDeleteKey (fuel + 1) n k s =
      (do match ← childBalance n i with
          | none => stop .null
          | some child => nodeDeleteKey fuel child k : M (Except Errno Unit)) s := by
  have hok := ht.nodeOk hb
  obtain ⟨i, hi, hr⟩ := ht.rank hb hok k
  refine ⟨i, hr, ?_⟩
  rw [nodeDeleteKey, run_bind_ok (run_lift hkey)]
  show (if n.leaf then _ else _ : M (Except Errno Unit)) s = _
  rw [hok.leaf, decide_eq_false (Nat.succ_ne_zero h), if_neg Bool.false_ne_true]
  exact run_bind_ok (run_lift hi)

/-- A key of an interior node whose neighbour can be reached is deleted. -/
lemma deleteNeighbour_run (last : Bool) (ht : Sub s lo (h + 2) b) (hz : s.bm 0 = true)
    (hb : s.nodes b = some n) (hi : i < n.nrKeys) (hc : s.nodes (n.child (besideKey last i)) = some c)
    (hT : btreeT ≤ c.nrKeys) (hroomy : SpineRoomy s.nodes last h (n.child (besideKey last i)))
    (hfuel : h < fuel) : Runs (deleteNeighbour last fuel n i c) s (DeletePost s lo (h + 2) b (n.key i)) := by
  have hci : besideKey last i ≤ n.nrKeys := by
    unfold besideKey
    split_ifs
    · exact hi.le
    · exact hi
  obtain ⟨q, p, hrun, hp⟩ := findMost_run last h fuel hfuel (ht.child hb hci) hc hT hroomy
  have hslot : p.endSlot last < p.nrKeys := Node.endSlot_lt (hp.le.trans_lt' (by decide))
  have hholds := ht.holds hb
  obtain ⟨fuel, rfl⟩ : ∃ f, fuel = f + 1 := ⟨fuel - 1, by omega⟩
  obtain ⟨hgrow, hent⟩ := Grow.replaceKey ht hz hb hi hp
  refine Runs.step hrun (Runs.liftExcept (copyKv_eq (hi.trans hholds.lt) (hslot.trans hp.holds.lt))
    (Runs.step (nodeWrite_run (by exact hholds.owned) hholds.pages)
    (Runs.liftExcept (nodeKey_eq (hslot.trans hp.holds.lt)) (Runs.intro (nodeDeleteKey_leaf
      ((TreeStep.writeNode _ _).owned hp.holds.owned) hp.holds.pages hp.leaf
      (hasKey_of_mem hp.increasing hp.holds.lt.le hslot rfl) hslot hp.holds.lt.le fuel) ?_))))
  refine ⟨hgrow, hent, ?_, rfl⟩
  rw [deleteResult, entries_succ hb, find_key (ht.sorted_inorder hb) hi]

/-- A deletion below one child is a deletion from the tree. -/
lemma DeletePost.child {s' : Sb} {r : Except Errno Unit} (ht : Sub s lo (h + 1) b)
    (hz : s.bm 0 = true) (hb : s.nodes b = some n) (hr : n.IsRank k i)
    (habs : ∀ j < n.nrKeys, n.key j ≠ k) (hpost : DeletePost s (btreeT - 1) h (n.child i) k r s') :
    DeletePost s lo (h + 1) b k r s' := by
  have hs := ht.sorted_inorder hb
  have hdel := del_at_rank hs hr habs
  obtain ⟨-, hent, hperm, hsub⟩ := ht.replaceChild hz hb hr.le hpost.grow.step hpost.grow.sub
    hpost.grow.perm (by rw [hpost.entries_eq, ← hdel]; exact sorted_del hs)
  refine ⟨⟨hpost.grow.step.mono fun x hx => mem_blocks_child hb hr.le hx, hperm, hsub⟩, ?_, ?_, hpost.fails⟩
  · rw [hent, hpost.entries_eq, entries_succ hb, ← hdel]
  · rw [hpost.result, deleteResult, deleteResult, entries_succ hb, find_at_rank hs hr habs]

/-- A leaf. -/
lemma nodeDeleteKey_height_one (ht : Sub s lo 1 b) (hz : s.bm 0 = true) (hb : s.nodes b = some n)
    (hlo : lo ≤ n.nrKeys - 1) (fuel : ℕ) :
    Runs (nodeDeleteKey (fuel + 1) n k) s (DeletePost s lo 1 b k) := by
  have hs := ht.sorted_inorder hb
  have hholds := ht.holds hb
  have hleaf : n.leaf = true := ht.leaf_eq hb
  rcases (ht.increasing hb).cases hholds.lt.le k with ⟨i, hkey, hi, rfl⟩ | ⟨hno, habs⟩
  · obtain ⟨hgrow, l₁, l₂, hold, hnew, -⟩ := Grow.dropKv ht hz hb hi hlo
    refine Runs.intro (nodeDeleteKey_leaf hholds.owned hholds.pages hleaf hkey hi hholds.lt.le fuel)
      ⟨hgrow, ?_, ?_, rfl⟩
    · rw [hnew, hold, show n.key i = (n.kv i).1 from rfl, del_mid (hold ▸ ht.sorted)]
    · rw [deleteResult, entries_succ hb, find_key hs hi]
  · obtain ⟨n', hn', hok⟩ := ht.node
    rw [hb, Option.some.injEq] at hn'
    subst hn'
    obtain ⟨i, -, hr⟩ := ht.rank hb hok k
    have hrun : nodeDeleteKey (fuel + 1) n k s = .ok (.error .enoent, s) := by
      rw [nodeDeleteKey, run_bind_ok (run_lift hno)]
      show (if n.leaf then _ else _ : M (Except Errno Unit)) s = _
      rw [hleaf, if_pos rfl]
      rfl
    refine Runs.intro hrun ⟨Grow.refl ht, ?_, ?_, rfl⟩
    · rw [entries_succ hb, del_at_rank hs hr habs, inorder_split hr.le]
      rfl
    · rw [deleteResult, entries_succ hb, find_at_rank hs hr habs]
      rfl

/-- **Deletion where the descent has room.** -/
theorem nodeDeleteKey_roomy (k : Key) : ∀ (h fuel : ℕ) {lo b : ℕ} {n : Node}, h < fuel →
    Sub s lo (h + 1) b → s.bm 0 = true → s.nodes b = some n → (h = 0 → lo ≤ n.nrKeys - 1) →
    Roomy s.nodes k h b → Runs (nodeDeleteKey fuel n k) s (DeletePost s lo (h + 1) b k)
  | _, 0, _, _, _, hf, _, _, _, _, _ => absurd hf (Nat.not_lt_zero _)
  | 0, fuel + 1, _, _, _, _, ht, hz, hb, hlo, _ => nodeDeleteKey_height_one ht hz hb (hlo rfl) fuel
  | h + 1, fuel + 1, lo, b, n, hf, ht, hz, hb, _, hroomy => by
    have hf : h < fuel := Nat.lt_of_succ_lt_succ hf
    obtain ⟨hpres, habsent⟩ := hroomy n hb
    rcases (ht.increasing hb).cases (ht.holds hb).lt.le k with ⟨i, hkey, hi, rfl⟩ | ⟨hno, habs⟩
    · obtain ⟨pre, suc, hpre, hsuc, -, -, heq⟩ := nodeDeleteKey_present ht hb hi hkey fuel
      have hroom := hpres i hi rfl
      rw [keysAt_eq hpre, keysAt_eq hsuc] at hroom
      by_cases hT : btreeT ≤ pre.nrKeys
      · rw [if_pos hT] at hroom heq
        obtain ⟨r, s', hrun, hpost⟩ := deleteNeighbour_run true ht hz hb hi hpre hT hroom hf
        exact ⟨r, s', heq.trans hrun, hpost⟩
      · rw [if_neg hT] at hroom heq
        rw [if_pos hroom.1] at heq
        obtain ⟨r, s', hrun, hpost⟩ :=
          deleteNeighbour_run false ht hz hb hi hsuc hroom.1 hroom.2 hf
        exact ⟨r, s', heq.trans hrun, hpost⟩
    · obtain ⟨i, hr, heq⟩ := nodeDeleteKey_absent ht hb hno fuel
      obtain ⟨hcT, hrest⟩ := habsent habs i hr
      obtain ⟨c, hc, -⟩ := readChild_run ht hb hr.le
      rw [keysAt_eq hc] at hcT
      obtain ⟨r, s', hrun, hpost⟩ := nodeDeleteKey_roomy k h fuel hf (ht.child hb hr.le) hz hc
        (fun _ => Nat.sub_le_sub_right hcT 1) hrest
      refine ⟨r, s', ?_, hpost.child ht hz hb hr habs⟩
      rw [heq, run_bind_ok (childBalance_run ht hb hr.le hc hcT)]
      exact hrun

lemma Node.IsRank.unique {j : ℕ} (hi : n.IsRank k i) (hj : n.IsRank k j) : i = j := by
  have key : ∀ {i j : ℕ}, n.IsRank k i → n.IsRank k j → ¬ i < j := fun hi hj hlt =>
    absurd (hj.below _ hlt) (not_lt.mpr (hi.above _ le_rfl (hlt.trans_le hj.le)))
  rcases lt_trichotomy i j with hlt | heq | hgt
  · exact absurd hlt (key hi hj)
  · exact heq
  · exact absurd hgt (key hj hi)

lemma roomy_of_present (ht : Sub s lo (h + 2) b) (hb : s.nodes b = some n) (hi : i < n.nrKeys)
    (hroom : if btreeT ≤ keysAt s.nodes (n.child i) then SpineRoomy s.nodes true h (n.child i)
      else btreeT ≤ keysAt s.nodes (n.child (i + 1)) ∧
        SpineRoomy s.nodes false h (n.child (i + 1))) : Roomy s.nodes (n.key i) (h + 1) b := by
  intro n' hn'
  rw [hb, Option.some.injEq] at hn'
  subst hn'
  refine ⟨fun j hj hji => ?_, fun habs => absurd rfl (habs i hi)⟩
  rw [(ht.increasing hb).injective hj hi hji]
  exact hroom

lemma roomy_of_absent (hb : s.nodes b = some n) (habs : ∀ j < n.nrKeys, n.key j ≠ k) (hr : n.IsRank k i)
    (hroom : btreeT ≤ keysAt s.nodes (n.child i) ∧ Roomy s.nodes k h (n.child i)) :
    Roomy s.nodes k (h + 1) b := by
  intro n' hn'
  rw [hb, Option.some.injEq] at hn'
  subst hn'
  refine ⟨fun j hj hjk => absurd hjk (habs j hj), fun _ j hj => ?_⟩
  rw [← hr.unique hj]
  exact hroom

/-- **Deletion where it has not** stops with a fault. -/
theorem nodeDeleteKey_stops (k : Key) : ∀ (h fuel : ℕ) {lo b : ℕ} {n : Node}, h < fuel →
    Sub s lo (h + 1) b → s.nodes b = some n → ¬ Roomy s.nodes k h b →
    Faults (nodeDeleteKey fuel n k) s
  | _, 0, _, _, _, hf, _, _, _ => absurd hf (Nat.not_lt_zero _)
  | 0, _ + 1, _, _, _, _, _, _, hroomy => absurd trivial hroomy
  | h + 1, fuel + 1, lo, b, n, hf, ht, hb, hroomy => by
    have hf : h < fuel := Nat.lt_of_succ_lt_succ hf
    rcases (ht.increasing hb).cases (ht.holds hb).lt.le k with ⟨i, hkey, hi, rfl⟩ | ⟨hno, habs⟩
    · obtain ⟨pre, suc, hpre, hsuc, hpreh, hsuch, heq⟩ := nodeDeleteKey_present ht hb hi hkey fuel
      refine Faults.of_eq heq ?_
      have hroom := fun hroom => hroomy (roomy_of_present ht hb hi hroom)
      rw [keysAt_eq hpre, keysAt_eq hsuc] at hroom
      by_cases hT : btreeT ≤ pre.nrKeys
      · rw [if_pos hT] at hroom ⊢
        exact Faults.of_left (findMost_stops true h fuel hf (ht.child hb hi.le) hpre hT hroom)
      · rw [if_neg hT] at hroom ⊢
        by_cases hsT : btreeT ≤ suc.nrKeys
        · rw [if_pos hsT]
          exact Faults.of_left (findMost_stops false h fuel hf (ht.child hb hi) hsuc hsT
            fun hrest => hroom ⟨hsT, hrest⟩)
        · rw [if_neg hsT]
          exact Faults.of_left (deleteMerge_stops (ht.holds hb) hpreh hsuch (not_le.mp hT)
            (not_le.mp hsT) hi)
    · obtain ⟨i, hr, heq⟩ := nodeDeleteKey_absent ht hb hno fuel
      obtain ⟨c, hc, -⟩ := readChild_run ht hb hr.le
      refine Faults.of_eq heq ?_
      rcases lt_or_ge c.nrKeys btreeT with hlt | hge
      · exact Faults.of_left (childBalance_stops ht hb hr.le hc hlt)
      · refine Faults.step (childBalance_run ht hb hr.le hc hge) rfl ?_
        exact nodeDeleteKey_stops k h fuel hf (ht.child hb hr.le) hc
          fun hrest => hroomy (roomy_of_absent hb habs hr ⟨(keysAt_eq hc).symm ▸ hge, hrest⟩)

end delete

/-! ### Deletion from a tree -/

section tree

variable {s : Sb} {t : Tree} {strict : Bool} {h : ℕ} {es : List (Key × ℕ)} {bs : List ℕ}

lemma deleteKey_eq {root : Node} (hrel : t.releasing = false) (hb : s.nodes t.root = some root)
    (k : Key) : deleteKey t k s = nodeDeleteKey s.loopBound root k s := by
  unfold deleteKey
  rw [hrel, if_neg Bool.false_ne_true, run_get, run_bind_ok (treeRoot_run hb)]

lemma IsTree.height_lt (ht : IsTree s strict t.root (h + 1) es bs) : h < s.loopBound := by
  have := ht.sub.height_le
  unfold Sb.loopBound
  omega

/-- **Deletion.** Where the descent has room, `nkfs_btree_delete_key` deletes the key from the map
and leaves a tree on the same blocks. -/
theorem deleteKey_roomy (hrel : t.releasing = false) (ht : IsTree s strict t.root h es bs) (k : Key)
    (hroomy : Roomy s.nodes k (h - 1) t.root) : Runs (deleteKey t k) s fun r s' =>
      r = deleteResult es k ∧ TreeStep s s' bs [] ∧ s'.allocFails = s.allocFails ∧
        ∃ bs', IsTree s' strict t.root h (del k es) bs' ∧ bs'.Perm bs := by
  obtain ⟨h, rfl⟩ := ht.succ
  obtain ⟨root, hroot, -⟩ := ht.sub.node
  have hlo : h = 0 → rootLo strict (h + 1) ≤ root.nrKeys - 1 := by
    rintro rfl
    exact (Nat.zero_le _).trans' (by unfold rootLo; simp)
  obtain ⟨r, s', hrun, hpost⟩ := nodeDeleteKey_roomy k h s.loopBound ht.height_lt ht.sub ht.zero
    hroot hlo hroomy
  have hent := hpost.entries_eq
  have hres := hpost.result
  have hstep := hpost.grow.step
  have hperm := hpost.grow.perm
  rw [ht.entries_eq] at hent hres
  rw [ht.blocks_eq] at hstep hperm
  exact ⟨r, s', (deleteKey_eq hrel hroot k).trans hrun, hres, hstep, hpost.fails, _,
    ⟨ht.pos, hpost.grow.sub, hent, rfl, hstep.marked ht.zero⟩, hperm⟩

lemma deleteKey_stops (hrel : t.releasing = false) (ht : IsTree s strict t.root h es bs) (k : Key)
    (hroomy : ¬ Roomy s.nodes k (h - 1) t.root) : Faults (deleteKey t k) s := by
  obtain ⟨h, rfl⟩ := ht.succ
  obtain ⟨root, hroot, -⟩ := ht.sub.node
  exact Faults.of_eq (deleteKey_eq hrel hroot k)
    (nodeDeleteKey_stops k h s.loopBound ht.height_lt ht.sub hroot hroomy)

end tree

end Nkfs
