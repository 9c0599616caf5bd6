import Nkfs.Btree.Map
import Nkfs.Btree.Erase

/-!
# Traversals

`nkfs_btree_erase`, `nkfs_btree_enum_tree` and `nkfs_btree_stats` go through a whole tree. Their
callbacks get a context, so the programs here run on the superblock together with it. What a traversal
does is a list that only depends on the tree: the calls and the freed blocks of an erasure
(`eraseEvents`), the slots that an enumeration calls back with (`enumVisits`). The runs are those of the
lists (`eraseNodeWith_run`, `enumNode_run`), and the lists hold each pair and each block once
(`eraseEvents_calls`, `eraseEvents_frees`, `enumVisits_pairs`). A node without keys ends a traversal, so an
interior root without keys hides its child (`not_traversals_visit_once`).
-/

namespace Nkfs

open Lib.Program Lib.Slots List

/-! ### The traversals -/

/-- Programs on the superblock and the context of a callback. -/
abbrev V (C : Type) := Prog (Sb × C) Fault

section defs

variable {C : Type}

/-- A call on the superblock. -/
def onSb {α : Type} (x : M α) : V C α := zoom Prod.fst (fun s p => (s, p.2)) x

/-- `child = nkfs_btree_node_read(tree, nkfs_btree_node_get_child_val(node, i)); NKFS_BUG_ON(!child)`. -/
def childAt (node : Node) (i : ℕ) : M Node := do
  let block ← getChildVal node i
  match ← nodeRead block with
  | none => stop .bug
  | some child => return child

/-- The child slots that a traversal goes to: those of an interior node that has keys. -/
def Node.kids (node : Node) : List ℕ :=
  if node.nrKeys ≠ 0 && !node.leaf then List.range (node.nrKeys + 1) else []

/-- With a callback that has a context. Source: `core/btree.c` `nkfs_btree_erase_node` -/
def eraseNodeWith (clb : Key → ℕ → V C Unit) : ℕ → Node → V C Unit
  | 0, _ => stop .fuel
  | fuel + 1, node => do
    node.kids.forM fun i => do
      let child ← onSb (childAt node i)
      eraseNodeWith clb fuel child
    (List.range node.nrKeys).forM fun i => do
      let key ← nodeKey node i
      let value ← nodeValue node i
      clb key value
    let _ ← onSb (nodeDelete node)

/-- The tree afterwards. Source: `core/btree.c` `nkfs_btree_erase` -/
def btreeEraseWith (tree : Tree) (clb : Key → ℕ → V C Unit) : V C Tree := do
  let p ← get
  let root ← onSb (treeRoot tree)
  eraseNodeWith clb p.1.loopBound root
  return { tree with releasing := true }

/-- Whether a callback returned non-zero. Source: `core/btree.c` `nkfs_btree_enum_node` -/
def enumNode (clb : Node → ℕ → V C Bool) : ℕ → Node → V C Bool
  | 0, _ => stop .fuel
  | fuel + 1, node => do
    if ← (List.range node.nrKeys).anyM (clb node) then return true
    else node.kids.anyM fun i => do
      let child ← onSb (childAt node i)
      enumNode clb fuel child

/-- Source: `core/btree.c` `nkfs_btree_enum_tree` -/
def enumTree (tree : Tree) (clb : Node → ℕ → V C Bool) : V C Bool := do
  let p ← get
  let root ← onSb (treeRoot tree)
  enumNode clb p.1.loopBound root

end defs

/-- Source: `core/btree.h` `struct nkfs_btree_info` -/
structure BtreeInfo where
  nrKeys : ℕ
  nrNodes : ℕ
  deriving DecidableEq, Repr

def BtreeInfo.add (info : BtreeInfo) (nrKeys nrNodes : ℕ) : BtreeInfo :=
  { nrKeys := info.nrKeys + nrKeys, nrNodes := info.nrNodes + nrNodes }

lemma BtreeInfo.add_add (info : BtreeInfo) (k k' n n' : ℕ) : (info.add k n).add k' n' = info.add (k + k') (n + n') := by
  simp only [BtreeInfo.add, add_assoc]

/-- Source: `core/btree.c` `nkfs_btree_node_stats` -/
def nodeStats : ℕ → Node → BtreeInfo → M BtreeInfo
  | 0, _, _ => stop .fuel
  | fuel + 1, node, info => do
    let info ← node.kids.foldlM (fun info i => do
      let child ← childAt node i
      nodeStats fuel child info) info
    return info.add node.nrKeys 1

/-- Source: `core/btree.c` `nkfs_btree_stats` -/
def btreeStats (tree : Tree) : M BtreeInfo := do
  let s ← get
  if tree.releasing then return { nrKeys := 0, nrNodes := 0 }
  else
    let root ← treeRoot tree
    nodeStats s.loopBound root { nrKeys := 0, nrNodes := 0 }

/-! ### What a traversal does -/

/-- A call of the callback, or a node whose block is freed. -/
inductive TreeEvent where
  | call (key : Key) (value : ℕ)
  | free (block : ℕ)

def TreeEvent.calls : TreeEvent → List (Key × ℕ)
  | .call key value => [(key, value)]
  | .free _ => []

def TreeEvent.frees : TreeEvent → List ℕ
  | .call _ _ => []
  | .free block => [block]

/-- First the children, then the pairs of the node, then the node. -/
def eraseEvents (nodes : ℕ → Option Node) : ℕ → ℕ → List TreeEvent
  | 0, _ => []
  | h + 1, b =>
    match nodes b with
    | none => []
    | some n => (List.range (n.nrKeys + 1)).flatMap (fun i => eraseEvents nodes h (n.child i)) ++
        (List.range n.nrKeys).flatMap (fun i => [.call (n.kv i).1 (n.kv i).2]) ++ [.free b]

/-- First the pairs of the node, then the children. -/
def enumVisits (nodes : ℕ → Option Node) : ℕ → ℕ → List (Node × ℕ)
  | 0, _ => []
  | h + 1, b =>
    match nodes b with
    | none => []
    | some n => (List.range n.nrKeys).map (fun i => (n, i)) ++
        (List.range (n.nrKeys + 1)).flatMap fun i => enumVisits nodes h (n.child i)

section lists

variable {nodes : ℕ → Option Node} {h b : ℕ} {n : Node}

lemma eraseEvents_succ (hb : nodes b = some n) : eraseEvents nodes (h + 1) b =
    (range (n.nrKeys + 1)).flatMap (fun i => eraseEvents nodes h (n.child i)) ++
      (range n.nrKeys).flatMap (fun i => [.call (n.kv i).1 (n.kv i).2]) ++ [.free b] := by
  rw [eraseEvents, hb]

lemma enumVisits_succ (hb : nodes b = some n) : enumVisits nodes (h + 1) b =
    (range n.nrKeys).map (fun i => (n, i)) ++
      (range (n.nrKeys + 1)).flatMap fun i => enumVisits nodes h (n.child i) := by
  rw [enumVisits, hb]

/-- The pairs of a subtree, children first. -/
lemma entries_perm (hb : nodes b = some n) : (entries nodes (h + 1) b).Perm
    ((range (n.nrKeys + 1)).flatMap (fun i => entries nodes h (n.child i)) ++
      (range n.nrKeys).flatMap n.sep) := by
  rw [entries_succ hb]
  exact inorder_perm _ _ _

/-- The blocks of a subtree, children first. -/
lemma blocks_perm (hb : nodes b = some n) : (blocks nodes (h + 1) b).Perm
    ((range (n.nrKeys + 1)).flatMap (fun i => blocks nodes h (n.child i)) ++ [b]) := by
  have hperm := inorder_perm (fun i => blocks nodes h (n.child i)) (fun _ => []) n.nrKeys
  have hnil : (range n.nrKeys).flatMap (fun _ => ([] : List ℕ)) = [] := by simp
  rw [hnil, append_nil] at hperm
  rw [blocks_succ hb]
  exact (hperm.cons b).trans (perm_append_singleton b _).symm

/-- An erasure calls back with each pair once. -/
lemma eraseEvents_calls : ∀ h b, ((eraseEvents nodes h b).flatMap TreeEvent.calls).Perm (entries nodes h b)
  | 0, _ => List.Perm.refl _
  | h + 1, b => by
    cases hb : nodes b with
    | none =>
      rw [eraseEvents, hb, entries, hb]
      exact List.Perm.refl _
    | some n =>
      refine List.Perm.trans ?_ (entries_perm hb).symm
      rw [eraseEvents_succ hb, flatMap_append, flatMap_append, flatMap_assoc, flatMap_assoc]
      simp only [flatMap_cons, flatMap_nil, TreeEvent.calls, append_nil]
      refine List.Perm.append_right _ (List.Perm.flatMap_left _ fun i _ => ?_)
      exact eraseEvents_calls h (n.child i)

/-- An erasure frees the block of each node once. -/
lemma eraseEvents_frees : ∀ {lo h b : ℕ}, Shape nodes lo h b →
    ((eraseEvents nodes h b).flatMap TreeEvent.frees).Perm (blocks nodes h b)
  | _, 0, _, _ => List.Perm.refl _
  | lo, h + 1, b, hshape => by
    obtain ⟨n, hb, -, hkids⟩ := hshape
    refine List.Perm.trans ?_ (blocks_perm hb).symm
    rw [eraseEvents_succ hb, flatMap_append, flatMap_append, flatMap_assoc, flatMap_assoc]
    have hnil : (range n.nrKeys).flatMap (fun _ => ([] : List ℕ)) = [] := by simp
    simp only [flatMap_cons, flatMap_nil, TreeEvent.frees, append_nil, hnil]
    refine List.Perm.append_right _ (List.Perm.flatMap_left _ fun i hi => ?_)
    exact eraseEvents_frees (hkids i (Nat.lt_succ_iff.mp (mem_range.mp hi)))

/-- An enumeration visits each pair once. -/
lemma enumVisits_pairs : ∀ h b, ((enumVisits nodes h b).map fun v => v.1.kv v.2).Perm (entries nodes h b)
  | 0, _ => List.Perm.refl _
  | h + 1, b => by
    cases hb : nodes b with
    | none =>
      rw [enumVisits, hb, entries, hb]
      exact List.Perm.refl _
    | some n =>
      refine List.Perm.trans ?_ (entries_perm hb).symm
      rw [enumVisits_succ hb, map_append, map_map, map_flatMap]
      refine perm_append_comm.trans (List.Perm.append ?_ ?_)
      · exact List.Perm.flatMap_left _ fun i _ => enumVisits_pairs h (n.child i)
      · rw [map_eq_flatMap]
        exact List.Perm.refl _

end lists

/-! ### Runs -/

/-- From `s` to `s'` nodes and bits of the blocks `bs` are the same, apart from `xs`. -/
structure Spares (bs xs : List ℕ) (s s' : Sb) : Prop where
  env : s'.env = s.env
  same : ∀ b ∈ bs, b ∉ xs → s'.nodes b = s.nodes b ∧ s'.bm b = s.bm b

lemma Spares.refl (bs : List ℕ) (s : Sb) : Spares bs [] s s := ⟨rfl, fun _ _ _ => ⟨rfl, rfl⟩⟩

lemma Spares.trans {bs xs ys : List ℕ} {s s₁ s' : Sb} (h : Spares bs xs s s₁) (h' : Spares bs ys s₁ s') :
    Spares bs (xs ++ ys) s s' := by
  refine ⟨h'.env.trans h.env, fun b hb hxs => ?_⟩
  rw [mem_append, not_or] at hxs
  obtain ⟨hnodes, hbm⟩ := h.same b hb hxs.1
  obtain ⟨hnodes', hbm'⟩ := h'.same b hb hxs.2
  exact ⟨hnodes'.trans hnodes, hbm'.trans hbm⟩

lemma Spares.dropNode (bs : List ℕ) (s : Sb) (n : Node) : Spares bs [n.block] s (s.dropNode n) := by
  have hst := FreeStep.dropNode s n
  refine ⟨hst.env, fun b _ hb => ⟨hst.nodes b hb, ?_⟩⟩
  rw [hst.bm, decide_eq_true hb, Bool.and_true]

section runs

variable {C : Type}

/-- The call returns, and leaves the nodes and the bits of the blocks `bs` alone. -/
def Minds {α : Type} (bs : List ℕ) (x : V C α) : Prop := ∀ p, Runs x p fun _ p' => Spares bs [] p.1 p'.1

/-- The node at a block is deleted. -/
def freeNode (block : ℕ) : M Unit := do
  let s ← get
  match s.nodes block with
  | none => stop .null
  | some node =>
    let _ ← nodeDelete node
    return ()

def TreeEvent.run (clb : Key → ℕ → V C Unit) : TreeEvent → V C Unit
  | .call key value => clb key value
  | .free block => onSb (freeNode block)

def runEvents (clb : Key → ℕ → V C Unit) (evs : List TreeEvent) : V C Unit := evs.forM (TreeEvent.run clb)

variable {s₀ : Sb} {bs : List ℕ}

lemma runEvents_append {clb : Key → ℕ → V C Unit} (evs evs' : List TreeEvent) : runEvents clb (evs ++ evs') =
    runEvents clb evs >>= fun _ => runEvents clb evs' := by
  exact forM_append

/-- From `p` the program does what the events do, and leaves a superblock in `Q`. -/
def Follows (clb : Key → ℕ → V C Unit) (x : V C Unit) (evs : List TreeEvent) (p : Sb × C) (Q : Sb → Prop) : Prop :=
  ∃ p', x p = .ok ((), p') ∧ runEvents clb evs p = .ok ((), p') ∧ Q p'.1

section follows

variable {clb : Key → ℕ → V C Unit} {x y : V C Unit} {evs evs' : List TreeEvent} {p : Sb × C} {Q R : Sb → Prop}

lemma Follows.seq (h : Follows clb x evs p Q) (h' : ∀ p', Q p'.1 → Follows clb y evs' p' R) :
    Follows clb (x >>= fun _ => y) (evs ++ evs') p R := by
  obtain ⟨p₁, hx, hevs, hQ⟩ := h
  obtain ⟨p₂, hy, hevs', hR⟩ := h' p₁ hQ
  rw [Follows, runEvents_append]
  exact ⟨p₂, (run_bind_ok hx).trans hy, (run_bind_ok hevs).trans hevs', hR⟩

lemma Follows.pure (h : Q p.1) : Follows clb (Pure.pure ()) [] p Q := ⟨p, rfl, rfl, h⟩

lemma Follows.mono (h : Follows clb x evs p Q) (hQ : ∀ s, Q s → R s) : Follows clb x evs p R := by
  obtain ⟨p', hx, hevs, hq⟩ := h
  exact ⟨p', hx, hevs, hQ _ hq⟩

/-- A call on the superblock that changes nothing, in front. -/
lemma Follows.onSb {α : Type} {x : M α} {f : α → V C Unit} {a : α} (hx : x p.1 = .ok (a, p.1))
    (h : Follows clb (f a) evs p Q) : Follows clb (Nkfs.onSb x >>= f) evs p Q := by
  obtain ⟨p', hf, hevs, hQ⟩ := h
  have hon : Nkfs.onSb x p = .ok (a, p) := zoom_ok hx
  exact ⟨p', (run_bind_ok hon).trans hf, hevs, hQ⟩

/-- A loop each of whose rounds does its own events and takes its own blocks. -/
lemma Follows.forM {f : ℕ → V C Unit} {evs : ℕ → List TreeEvent} {ys : ℕ → List ℕ} : ∀ {is : List ℕ}
    {xs : List ℕ} {p : Sb × C}, Spares bs xs s₀ p.1 → (is.flatMap ys).Nodup → (∀ x ∈ is.flatMap ys, x ∉ xs) →
    (∀ i ∈ is, ∀ p xs, Spares bs xs s₀ p.1 → (∀ x ∈ ys i, x ∉ xs) →
      Follows clb (f i) (evs i) p (Spares bs (xs ++ ys i) s₀)) →
    Follows clb (is.forM f) (is.flatMap evs) p (Spares bs (xs ++ is.flatMap ys) s₀)
  | [], xs, p, hst, _, _, _ => Follows.pure (by simpa using hst)
  | i :: is, xs, p, hst, hnd, hnew, hf => by
    rw [flatMap_cons] at hnd hnew
    rw [flatMap_cons, flatMap_cons, ← append_assoc]
    obtain ⟨-, hnd', hdis⟩ := nodup_append.mp hnd
    refine Follows.seq (hf i (mem_cons_self ..) p xs hst fun x hx => hnew x (mem_append_left _ hx))
      fun p' hst' => ?_
    refine Follows.forM hst' hnd' (fun x hx hmem => ?_) fun j hj => hf j (mem_cons_of_mem _ hj)
    rcases mem_append.mp hmem with hmem | hmem
    · exact hnew x (mem_append_right _ hx) hmem
    · exact hdis x hmem x hx rfl

end follows

lemma NodeOk.kids_leaf {n : Node} {lo b : ℕ} (hok : NodeOk n lo 0 b) : n.kids = [] := by
  rw [Node.kids, hok.leaf]
  simp

lemma NodeOk.kids_interior {n : Node} {lo h b : ℕ} (hok : NodeOk n lo (h + 1) b) (hlo : 0 < lo) :
    n.kids = range (n.nrKeys + 1) := by
  have hpos : n.nrKeys ≠ 0 := (hlo.trans_le hok.lo_le).ne'
  rw [Node.kids, hok.leaf]
  simp [hpos]

/-- A child of a node whose subtree was spared so far is read as it was. -/
lemma childAt_run {n : Node} {lo h b i : ℕ} {xs : List ℕ} {s : Sb} (ht : Sub s₀ lo (h + 1 + 1) b)
    (hb : s₀.nodes b = some n) (hi : i ≤ n.nrKeys) (hst : Spares bs xs s₀ s) (hmem : n.child i ∈ bs)
    (hxs : n.child i ∉ xs) : ∃ c, s₀.nodes (n.child i) = some c ∧ childAt n i s = .ok (c, s) := by
  have hok := ht.nodeOk hb
  obtain ⟨c, hc, hcok⟩ := (ht.child hb hi).node
  have hown := (ht.child hb hi).owned _ mem_blocks_self
  obtain ⟨hnodes, hbm⟩ := hst.same _ hmem hxs
  have hown' : s.Owned (n.child i) := ⟨hbm.trans hown.marked, hown.ne_zero, hst.env ▸ hown.lt⟩
  refine ⟨c, hc, ?_⟩
  have hval := getChildVal_eq hok.pages ((Nat.lt_succ_of_le hi).trans hok.nrKeys_lt_childSlots)
  exact (run_bind_ok (run_lift hval)).trans (run_bind_ok (nodeRead_run hown' (hnodes.trans hc) hcok.block))

/-- The pairs of a node, one call each. -/
lemma eraseKeys_run {clb : Key → ℕ → V C Unit} (hclb : ∀ key value, Minds bs (clb key value)) {n : Node}
    {p : Sb × C} {xs : List ℕ} (hnr : n.nrKeys ≤ keySlots) (hst : Spares bs xs s₀ p.1) :
    Follows clb ((range n.nrKeys).forM fun i => do
        let key ← nodeKey n i
        let value ← nodeValue n i
        clb key value)
      ((range n.nrKeys).flatMap fun i => [.call (n.kv i).1 (n.kv i).2]) p (Spares bs xs s₀) := by
  have hnil : (range n.nrKeys).flatMap (fun _ => ([] : List ℕ)) = [] := by simp
  have hxs : xs = xs ++ (range n.nrKeys).flatMap fun _ => [] := by rw [hnil, append_nil]
  rw [hxs]
  refine Follows.forM hst (by rw [hnil]; exact nodup_nil)
    (by rw [hnil]; exact fun x hx => absurd hx not_mem_nil) fun i hi p' xs' hst' _ => ?_
  have hlt : i < keySlots := (mem_range.mp hi).trans_le hnr
  have hvalue : nodeValue n i = .ok (n.kv i).2 := if_pos (hlt.trans (by decide))
  obtain ⟨u, p₁, hrun, hspares⟩ := hclb (n.kv i).1 (n.kv i).2 p'
  refine ⟨p₁, (run_bind_ok (run_lift (nodeKey_eq hlt))).trans ((run_bind_ok (run_lift hvalue)).trans hrun), ?_,
    hst'.trans hspares⟩
  exact run_bind_ok hrun

/-- Deleting a node. -/
lemma eraseLast_run {clb : Key → ℕ → V C Unit} {n : Node} {p : Sb × C} {xs : List ℕ} {b : ℕ}
    (hb : s₀.nodes b = some n) (hblock : n.block = b) (hown : s₀.Owned b) (hmem : b ∈ bs) (hxs : b ∉ xs)
    (hst : Spares bs xs s₀ p.1) :
    Follows clb (do let _ ← onSb (nodeDelete n)) [.free b] p (Spares bs (xs ++ [b]) s₀) := by
  obtain ⟨hnodes, hbm⟩ := hst.same b hmem hxs
  have hdel : nodeDelete n p.1 = .ok ({ n with block := 0 }, p.1.dropNode n) := by
    refine nodeDelete_run ?_ ?_
    · rw [hblock, hst.env]
      exact hown.lt
    · rw [hblock, hbm]
      exact hown.marked
  have hon : onSb (nodeDelete n) p = .ok ({ n with block := 0 }, (p.1.dropNode n, p.2)) := zoom_ok hdel
  have hfree : freeNode b p.1 = .ok ((), p.1.dropNode n) := by
    refine run_get.trans ?_
    rw [hnodes, hb]
    exact run_bind_ok hdel
  have hev : onSb (freeNode b) p = .ok ((), (p.1.dropNode n, p.2)) := zoom_ok hfree
  refine ⟨(p.1.dropNode n, p.2), run_bind_ok hon, run_bind_ok hev, ?_⟩
  have hdrop := Spares.dropNode bs p.1 n
  rw [hblock] at hdrop
  exact hst.trans hdrop

/-- Erasing a subtree does its events. -/
lemma eraseNodeWith_run {clb : Key → ℕ → V C Unit} (hclb : ∀ key value, Minds bs (clb key value)) :
    ∀ {h fuel lo b : ℕ} {n : Node} {p : Sb × C} {xs : List ℕ}, Sub s₀ lo (h + 1) b → s₀.nodes b = some n →
      h < fuel → (h = 0 ∨ 0 < lo) → (∀ x ∈ blocks s₀.nodes (h + 1) b, x ∈ bs ∧ x ∉ xs) →
      Spares bs xs s₀ p.1 → Follows clb (eraseNodeWith clb fuel n) (eraseEvents s₀.nodes (h + 1) b) p
        (Spares bs (xs ++ blocks s₀.nodes (h + 1) b) s₀)
  | _, 0, _, _, _, _, _, _, _, hf, _, _, _ => absurd hf (Nat.not_lt_zero _)
  | h, fuel + 1, lo, b, n, p, xs, ht, hb, hf, hlo, hbs, hst => by
    have hok := ht.nodeOk hb
    have hperm := blocks_perm (h := h) hb
    have hnd := nodup_append.mp (hperm.nodup_iff.mp ht.nodup)
    have hkid : ∀ x ∈ (range (n.nrKeys + 1)).flatMap (fun i => blocks s₀.nodes h (n.child i)),
        x ∈ blocks s₀.nodes (h + 1) b := fun x hx => hperm.mem_iff.mpr (mem_append_left _ hx)
    rw [eraseEvents_succ hb, append_assoc]
    unfold eraseNodeWith
    -- first the children, if there are any
    refine Follows.seq (Q := Spares bs
      (xs ++ (range (n.nrKeys + 1)).flatMap fun i => blocks s₀.nodes h (n.child i)) s₀) ?_ fun p₁ hst₁ => ?_
    · cases h with
      | zero =>
        have hevs : (range (n.nrKeys + 1)).flatMap (fun i => eraseEvents s₀.nodes 0 (n.child i)) = [] :=
          flatMap_eq_nil_iff.mpr fun _ _ => rfl
        have hys : (range (n.nrKeys + 1)).flatMap (fun i => blocks s₀.nodes 0 (n.child i)) = [] :=
          flatMap_eq_nil_iff.mpr fun _ _ => rfl
        rw [hok.kids_leaf, hevs, hys, append_nil]
        exact Follows.pure hst
      | succ h =>
        rw [hok.kids_interior (hlo.resolve_left (Nat.succ_ne_zero h))]
        refine Follows.forM hst hnd.1 (fun x hx => (hbs x (hkid x hx)).2) fun i hi p' xs' hst' hnew => ?_
        have hi : i ≤ n.nrKeys := Nat.lt_succ_iff.mp (mem_range.mp hi)
        have hmem : ∀ x ∈ blocks s₀.nodes (h + 1) (n.child i), x ∈ bs := fun x hx =>
          (hbs x (mem_blocks_child hb hi hx)).1
        obtain ⟨c, hc, hread⟩ := childAt_run ht hb hi hst' (hmem _ mem_blocks_self) (hnew _ mem_blocks_self)
        refine Follows.onSb hread (eraseNodeWith_run hclb (ht.child hb hi) hc (by omega)
          (Or.inr (by decide)) (fun x hx => ⟨hmem x hx, hnew x hx⟩) hst')
    -- then the pairs of the node, and last the node
    · refine Follows.seq (eraseKeys_run hclb (hok.le.trans (by decide)) hst₁) fun p₂ hst₂ => ?_
      have hb' := hbs b mem_blocks_self
      have hlast : b ∉ xs ++ (range (n.nrKeys + 1)).flatMap fun i => blocks s₀.nodes h (n.child i) := by
        rw [mem_append, not_or]
        exact ⟨hb'.2, fun hx => hnd.2.2 b hx b (mem_singleton_self b) rfl⟩
      refine (eraseLast_run hb hok.block (ht.owned b mem_blocks_self) hb'.1 hlast hst₂).mono fun s hs => ?_
      refine ⟨hs.env, fun x hx hxs => hs.same x hx fun hmem => hxs ?_⟩
      rw [append_assoc, mem_append, ← hperm.mem_iff, ← mem_append] at hmem
      exact hmem

/-! ### Enumeration -/

/-- From `p` both programs return the same and leave a superblock in `Q`. -/
def Agree {α : Type} (x y : V C α) (p : Sb × C) (Q : Sb → Prop) : Prop :=
  ∃ r p', x p = .ok (r, p') ∧ y p = .ok (r, p') ∧ Q p'.1

lemma anyM_append {α : Type} (f : α → V C Bool) : ∀ xs ys : List α, (xs ++ ys).anyM f = (do
    if ← xs.anyM f then return true else ys.anyM f)
  | [], ys => by simp [anyM]
  | x :: xs, ys => by
    rw [cons_append, anyM, anyM, bind_assoc]
    refine bind_congr fun r => ?_
    cases r with
    | true => rfl
    | false => exact anyM_append f xs ys

/-- Two searches one after the other. -/
lemma Agree.orElse {α : Type} {x y : V C Bool} {f : α → V C Bool} {xs ys : List α} {p : Sb × C} {Q : Sb → Prop}
    (hx : Agree x (xs.anyM f) p Q) (hy : ∀ p', Q p'.1 → Agree y (ys.anyM f) p' Q) :
    Agree (do if ← x then return true else y) ((xs ++ ys).anyM f) p Q := by
  obtain ⟨r, p₁, hrun, hrun', hQ⟩ := hx
  rw [anyM_append, Agree, run_bind_ok hrun, run_bind_ok hrun']
  cases r with
  | true => exact ⟨true, p₁, rfl, rfl, hQ⟩
  | false => exact hy p₁ hQ

/-- A search in a list of lists. -/
lemma Agree.anyM {α : Type} {x : ℕ → V C Bool} {f : α → V C Bool} {ys : ℕ → List α} {Q : Sb → Prop} :
    ∀ {is : List ℕ} {p : Sb × C}, Q p.1 → (∀ i ∈ is, ∀ p, Q p.1 → Agree (x i) ((ys i).anyM f) p Q) →
      Agree (is.anyM x) ((is.flatMap ys).anyM f) p Q
  | [], p, hQ, _ => ⟨false, p, rfl, rfl, hQ⟩
  | i :: is, p, hQ, h => by
    rw [flatMap_cons]
    have hrest : ∀ p', Q p'.1 → Agree (is.anyM x) ((is.flatMap ys).anyM f) p' Q := fun p' hQ' =>
      Agree.anyM hQ' fun j hj => h j (mem_cons_of_mem _ hj)
    obtain ⟨r, p', hrun, hrun', hQ'⟩ := Agree.orElse (h i (mem_cons_self ..) p hQ) hrest
    refine ⟨r, p', ?_, hrun', hQ'⟩
    rw [List.anyM, ← hrun]
    refine congrFun (bind_congr fun b => ?_) p
    cases b <;> rfl

/-- Enumerating a subtree calls back with its visits until a call returns non-zero. -/
lemma enumNode_run {clb : Node → ℕ → V C Bool} (hclb : ∀ n i, Minds bs (clb n i)) :
    ∀ {h fuel lo b : ℕ} {n : Node} {p : Sb × C}, Sub s₀ lo (h + 1) b → s₀.nodes b = some n → h < fuel →
      (h = 0 ∨ 0 < lo) → (∀ x ∈ blocks s₀.nodes (h + 1) b, x ∈ bs) → Spares bs [] s₀ p.1 →
      Agree (enumNode clb fuel n) ((enumVisits s₀.nodes (h + 1) b).anyM fun v => clb v.1 v.2) p (Spares bs [] s₀)
  | _, 0, _, _, _, _, _, _, hf, _, _, _ => absurd hf (Nat.not_lt_zero _)
  | h, fuel + 1, lo, b, n, p, ht, hb, hf, hlo, hbs, hst => by
    have hok := ht.nodeOk hb
    rw [enumVisits_succ hb]
    unfold enumNode
    refine Agree.orElse ?_ fun p₁ hst₁ => ?_
    · -- the pairs of the node
      rw [map_eq_flatMap]
      refine Agree.anyM hst fun i _ p' hst' => ?_
      obtain ⟨r, p₁, hrun, hspares⟩ := hclb n i p'
      refine ⟨r, p₁, hrun, ?_, hst'.trans hspares⟩
      refine (run_bind_ok hrun).trans ?_
      cases r <;> rfl
    · cases h with
      | zero =>
        have hvs : (range (n.nrKeys + 1)).flatMap (fun i => enumVisits s₀.nodes 0 (n.child i)) = [] :=
          flatMap_eq_nil_iff.mpr fun _ _ => rfl
        rw [hok.kids_leaf, hvs]
        exact ⟨false, p₁, rfl, rfl, hst₁⟩
      | succ h =>
        rw [hok.kids_interior (hlo.resolve_left (Nat.succ_ne_zero h))]
        refine Agree.anyM hst₁ fun i hi p' hst' => ?_
        have hi : i ≤ n.nrKeys := Nat.lt_succ_iff.mp (mem_range.mp hi)
        have hmem : ∀ x ∈ blocks s₀.nodes (h + 1) (n.child i), x ∈ bs := fun x hx =>
          hbs x (mem_blocks_child hb hi hx)
        obtain ⟨c, hc, hread⟩ := childAt_run ht hb hi hst' (hmem _ mem_blocks_self) not_mem_nil
        obtain ⟨r, p₂, hrun, hrun', hst₂⟩ : Agree (enumNode clb fuel c) _ p' _ :=
          enumNode_run hclb (ht.child hb hi) hc (by omega) (Or.inr (by decide)) hmem hst'
        have hon : onSb (childAt n i) p' = .ok (c, p') := zoom_ok hread
        exact ⟨r, p₂, (run_bind_ok hon).trans hrun, hrun', hst₂⟩

end runs

/-! ### Counting -/

/-- A loop that adds up what its rounds count. -/
lemma foldlM_info {f : BtreeInfo → ℕ → M BtreeInfo} {s : Sb} {es : ℕ → List (Key × ℕ)} {ys : ℕ → List ℕ} :
    ∀ (is : List ℕ) (info : BtreeInfo), (∀ i ∈ is, ∀ info, f info i s = .ok (info.add (es i).length (ys i).length, s)) →
      is.foldlM f info s = .ok (info.add (is.flatMap es).length (is.flatMap ys).length, s)
  | [], info, _ => rfl
  | i :: is, info, hf => by
    have hrest := foldlM_info is (info.add (es i).length (ys i).length) fun j hj => hf j (mem_cons_of_mem _ hj)
    rw [foldlM_cons, run_bind_ok (hf i (mem_cons_self ..) info), hrest, BtreeInfo.add_add]
    simp only [flatMap_cons, length_append]

lemma nodeStats_run {s : Sb} : ∀ {h fuel lo b : ℕ} {n : Node} {info : BtreeInfo}, Sub s lo (h + 1) b →
    s.nodes b = some n → h < fuel → (h = 0 ∨ 0 < lo) → nodeStats fuel n info s =
      .ok (info.add (entries s.nodes (h + 1) b).length (blocks s.nodes (h + 1) b).length, s)
  | _, 0, _, _, _, _, _, _, hf, _ => absurd hf (Nat.not_lt_zero _)
  | h, fuel + 1, lo, b, n, info, ht, hb, hf, hlo => by
    have hok := ht.nodeOk hb
    have hkids : (n.kids.foldlM (fun info i => do
        let child ← childAt n i
        nodeStats fuel child info) info : M BtreeInfo) s = .ok
        (info.add ((range (n.nrKeys + 1)).flatMap fun i => entries s.nodes h (n.child i)).length
          ((range (n.nrKeys + 1)).flatMap fun i => blocks s.nodes h (n.child i)).length, s) := by
      cases h with
      | zero =>
        have hes : (range (n.nrKeys + 1)).flatMap (fun i => entries s.nodes 0 (n.child i)) = [] :=
          flatMap_eq_nil_iff.mpr fun _ _ => rfl
        have hbs : (range (n.nrKeys + 1)).flatMap (fun i => blocks s.nodes 0 (n.child i)) = [] :=
          flatMap_eq_nil_iff.mpr fun _ _ => rfl
        rw [hok.kids_leaf, hes, hbs]
        rfl
      | succ h =>
        rw [hok.kids_interior (hlo.resolve_left (Nat.succ_ne_zero h))]
        refine foldlM_info _ info fun i hi info => ?_
        have hi : i ≤ n.nrKeys := Nat.lt_succ_iff.mp (mem_range.mp hi)
        obtain ⟨c, hc, hread⟩ := childAt_run ht hb hi (Spares.refl (blocks s.nodes (h + 1 + 1) b) s)
          (mem_blocks_child hb hi mem_blocks_self) not_mem_nil
        exact (run_bind_ok hread).trans (nodeStats_run (ht.child hb hi) hc (by omega) (Or.inr (by decide)))
    have hes := (entries_perm (h := h) hb).length_eq
    have hbs := (blocks_perm (h := h) hb).length_eq
    have hsep : ((range n.nrKeys).flatMap n.sep).length = n.nrKeys := by simp
    rw [length_append, hsep] at hes
    rw [length_append, length_singleton] at hbs
    rw [hes, hbs, ← BtreeInfo.add_add]
    exact run_bind_ok hkids

/-! ### Whole trees -/

/-- What going through a tree with the pairs `es` on the blocks `bs` means: the erasure calls back once with
each pair and frees the block of each node once, and nothing else; the enumeration calls back once with
each pair until a call returns non-zero; the statistics are the numbers of keys and nodes. -/
def VisitsOnce (s : Sb) (t : Tree) (es : List (Key × ℕ)) (bs : List ℕ) : Prop :=
  (∃ evs : List TreeEvent, (evs.flatMap TreeEvent.calls).Perm es ∧ (evs.flatMap TreeEvent.frees).Perm bs ∧
    ∀ (C : Type) (clb : Key → ℕ → V C Unit) (c : C), (∀ key value, Minds bs (clb key value)) →
      ∃ p, btreeEraseWith t clb (s, c) = .ok ({ t with releasing := true }, p) ∧
        runEvents clb evs (s, c) = .ok ((), p)) ∧
  (∃ vs : List (Node × ℕ), (vs.map fun v => v.1.kv v.2).Perm es ∧
    ∀ (C : Type) (clb : Node → ℕ → V C Bool) (c : C), (∀ n i, Minds bs (clb n i)) →
      ∃ r p, enumTree t clb (s, c) = .ok (r, p) ∧ (vs.anyM fun v => clb v.1 v.2) (s, c) = .ok (r, p)) ∧
  btreeStats t s = .ok ({ nrKeys := es.length, nrNodes := bs.length }, s)

/-- **Traversals visit everything once**, in every tree whose root is a leaf or has a key. -/
theorem traversals_visit_once {s : Sb} {t : Tree} {h : ℕ} {es : List (Key × ℕ)} {bs : List ℕ}
    (hrel : t.releasing = false) (ht : IsTree s true t.root h es bs) : VisitsOnce s t es bs := by
  obtain ⟨h, rfl⟩ := ht.succ
  obtain ⟨n, hb, hok⟩ := ht.sub.node
  obtain rfl := ht.entries_eq
  obtain rfl := ht.blocks_eq
  have hbound : h < s.loopBound := by
    have := ht.sub.height_le
    unfold Sb.loopBound
    omega
  have hlo : h = 0 ∨ 0 < rootLo true (h + 1) := by
    cases h with
    | zero => exact Or.inl rfl
    | succ h => exact Or.inr (by simp [rootLo])
  have hroot : ∀ {C : Type} (c : C), onSb (treeRoot t) (s, c) = .ok (n, (s, c)) := fun c => zoom_ok (treeRoot_run hb)
  refine ⟨⟨eraseEvents s.nodes (h + 1) t.root, eraseEvents_calls _ _, eraseEvents_frees ht.sub.shape,
    fun C clb c hclb => ?_⟩, ⟨enumVisits s.nodes (h + 1) t.root, enumVisits_pairs _ _, fun C clb c hclb => ?_⟩, ?_⟩
  · obtain ⟨p, hrun, hevs, -⟩ : Follows clb (eraseNodeWith clb s.loopBound n) _ (s, c) _ :=
      eraseNodeWith_run hclb ht.sub hb hbound hlo (fun x hx => ⟨hx, List.not_mem_nil⟩) (Spares.refl _ s)
    refine ⟨p, run_get.trans ((run_bind_ok (hroot c)).trans (run_bind_ok hrun)), hevs⟩
  · obtain ⟨r, p, hrun, hvs, -⟩ : Agree (enumNode clb s.loopBound n) _ (s, c) _ :=
      enumNode_run hclb ht.sub hb hbound hlo (fun x hx => hx) (Spares.refl _ s)
    exact ⟨r, p, run_get.trans ((run_bind_ok (hroot c)).trans hrun), hvs⟩
  · refine run_get.trans ?_
    rw [hrel, if_neg Bool.false_ne_true, run_bind_ok (treeRoot_run hb), nodeStats_run ht.sub hb hbound hlo, BtreeInfo.add, Nat.zero_add, Nat.zero_add]

/-- A reached tree with three keys. -/
theorem traversals_visit_once_threeKeys : ∃ s t es bs, es.length = 3 ∧ VisitsOnce s t es bs := by
  obtain ⟨s, t, h, es, bs, hreach, ht, hlen, -⟩ := exists_reached keyByU64
    (fun _ _ hij hj => keyByU64_ne hij hj) 3 (by decide)
  exact ⟨s, t, es, bs, hlen, traversals_visit_once hreach.isTree.1 ht⟩

/-- An interior node without keys at block `r`, over one child. -/
def bareNode (r child : ℕ) : Node := { Node.zero with block := r, child := fun _ => child }

/-- Put on top of a leaf it makes a tree that has all of the invariant but a key in the root. -/
lemma IsTree.bare {s : Sb} {b r : ℕ} {es : List (Key × ℕ)} {bs : List ℕ} (ht : IsTree s true b 1 es bs)
    (hlen : btreeT - 1 ≤ es.length) (hr : s.bm r = false) (hlt : r < s.env.nrBlocks) :
    IsTree ((s.mark r true).writeNode (bareNode r b)) false r 2 es (r :: bs) := by
  have hst : TreeStep s ((s.mark r true).writeNode (bareNode r b)) [] [r] :=
    (TreeStep.mark hr hlt).trans (TreeStep.writeNode _ (bareNode r b)) fun x hx => Or.inr hx
  have hown := hst.owned_fresh ht.zero (mem_singleton_self r)
  obtain ⟨hes, hbs, hsub⟩ := hst.subtree ht.sub fun x _ => not_mem_nil
  have hroot : ((s.mark r true).writeNode (bareNode r b)).nodes r = some (bareNode r b) := Function.update_self ..
  obtain ⟨n, hb, hok⟩ := ht.sub.node
  have hnr : n.nrKeys = es.length := by rw [← ht.entries_eq, length_leaf hb]
  have hleaf : Shape ((s.mark r true).writeNode (bareNode r b)).nodes (btreeT - 1) 1 b := by
    obtain ⟨n', hb', hok', hkids⟩ := hsub.shape
    have hsame : n' = n := by
      have hrb : b ≠ r := by
        rintro rfl
        rw [(ht.sub.owned b mem_blocks_self).marked] at hr
        cases hr
      have hother : ((s.mark r true).writeNode (bareNode r b)).nodes b = s.nodes b := Function.update_of_ne hrb ..
      rw [hother, hb, Option.some.injEq] at hb'
      exact hb'.symm
    exact ⟨n', hb', { hok' with lo_le := by rw [hsame, hnr]; exact hlen }, hkids⟩
  have hentries : entries ((s.mark r true).writeNode (bareNode r b)).nodes 2 r = es := by
    rw [entries_succ hroot]
    exact hes.trans ht.entries_eq
  have hblocks : blocks ((s.mark r true).writeNode (bareNode r b)).nodes 2 r = r :: bs := by
    rw [blocks_succ hroot]
    exact congrArg _ (hbs.trans ht.blocks_eq)
  have hnew := hst.nodup_append ht.sub
  rw [ht.blocks_eq] at hnew
  refine ⟨by decide, ⟨⟨_, hroot, ⟨rfl, fun _ => rfl, Nat.zero_le _, Nat.zero_le _, rfl⟩, fun i _ => hleaf⟩, ?_, ?_, ?_⟩,
    hentries, hblocks, hst.marked ht.zero⟩
  · rw [hentries, ← ht.entries_eq]
    exact ht.sub.sorted
  · rw [hblocks]
    exact hnew
  · intro x hx
    rw [hblocks, mem_cons] at hx
    rcases hx with rfl | hx
    · exact hown
    · exact hst.owned (ht.sub.owned x (ht.blocks_eq.symm ▸ hx))

/-- A root without keys over a leaf with `T - 1` keys: the statistics see one node and no key. -/
theorem not_traversals_visit_once : ¬ ∀ (s : Sb) (t : Tree) (h : ℕ) (es : List (Key × ℕ)) (bs : List ℕ),
    t.releasing = false → IsTree s false t.root h es bs → VisitsOnce s t es bs := by
  intro hall
  obtain ⟨s, t, h, es, bs, hreach, ht, hlen, hample, -⟩ := exists_reached keyByU64
    (fun _ _ hij hj => keyByU64_ne hij hj) (btreeT - 1) (by decide)
  obtain rfl : h = 1 := ht.height_eq_one (by rw [hlen]; decide)
  obtain ⟨r, hr⟩ : s.freeSet.Nonempty := by
    have hbs := ht.blocks_length_le
    have hfree := hample.free
    refine Finset.card_pos.mp (lt_of_lt_of_le ?_ hfree)
    have hT : btreeT = 896 := rfl
    omega
  rw [Sb.freeSet, Finset.mem_filter, Finset.mem_range] at hr
  have htree := ht.bare hlen.ge hr.2 hr.1
  obtain ⟨-, -, hstats⟩ := hall _ { root := r, releasing := false } 2 es (r :: bs) rfl htree
  have hroot : ((s.mark r true).writeNode (bareNode r t.root)).nodes r = some (bareNode r t.root) :=
    Function.update_self ..
  have hrun : btreeStats { root := r, releasing := false } ((s.mark r true).writeNode (bareNode r t.root)) =
      .ok ({ nrKeys := 0, nrNodes := 1 }, (s.mark r true).writeNode (bareNode r t.root)) := by
    refine run_get.trans ?_
    rw [if_neg Bool.false_ne_true, run_bind_ok (treeRoot_run hroot)]
    rfl
  rw [hrun, Except.ok.injEq, Prod.mk.injEq, BtreeInfo.mk.injEq, hlen] at hstats
  exact absurd hstats.1.1 (by decide)

end Nkfs
