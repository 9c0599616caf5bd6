import Nkfs.Btree.Traverse

/-!
# The tree checker

`nkfs_btree_check` counts what is wrong with a tree, node by node. Its test for a missing child indexes
`node->children`, the array of the pages that hold the child slots, with the number of a slot, so it leaves
the array at the fifth slot of an interior node; the child number itself is not looked at before the child is
read. `nodeCheck_run` says when the checker returns (`InBounds`) and when the count is 0 (`LocalOk`): each
node has the right number of keys and its own keys increase. Order across separators is not tested.
`check_exact_iff` is the resulting condition for exactness. Where the checker stays in bounds and counts 0
the tree has at most two levels, so the missing test of the depth never matters by itself.
-/

namespace Nkfs

open Lib.Program Lib.Slots Lib.Assoc List

/-! ### The checker -/

/-- `!node->children[i]`, with the number of a child slot for the number of a page. -/
def childMissing (node : Node) (i : ℕ) : Except Fault ℕ :=
  if i < btreeChildPages then .ok (if node.page i then 0 else 1) else .error .oob

/-- `prev_key && nkfs_btree_cmp_key(prev_key, nkfs_btree_node_key(node, i)) >= 0`. -/
def notAbovePrev (node : Node) : ℕ → Except Fault ℕ
  | 0 => do
    let _ ← nodeKey node 0
    return 0
  | i + 1 => do
    let prevKey ← nodeKey node i
    let key ← nodeKey node (i + 1)
    return if cmpKey prevKey key = .lt then 0 else 1

/-- `if (!node->leaf) if (!node->children[i])`. -/
def checkChild (node : Node) (i : ℕ) : Except Fault ℕ := if node.leaf then return 0 else childMissing node i

/-- The errors that the loop over the keys counts in its first rounds. -/
def checkKeys (node : Node) : ℕ → Except Fault ℕ
  | 0 => return 0
  | i + 1 => do
    let errs ← checkKeys node i
    let order ← notAbovePrev node i
    let missing ← checkChild node i
    return errs + order + missing

/-- The test of the last child, after the loop. -/
def checkLast (root : Bool) (node : Node) : Except Fault ℕ :=
  if !node.leaf && (!root || node.nrKeys ≠ 0) then childMissing node node.nrKeys else return 0

/-- The tests of the number of keys. -/
def checkNrKeys (root : Bool) (node : Node) : ℕ :=
  (if node.nrKeys > 2 * btreeT - 1 then 1 else 0) + if !root && node.nrKeys < btreeT - 1 then 1 else 0

/-- The errors in the subtree of a node. Source: `core/btree.c` `nkfs_btree_node_check` -/
def nodeCheck : ℕ → Bool → Node → M ℕ
  | 0, _, _ => stop .fuel
  | fuel + 1, root, node => do
    let errs ← checkKeys node node.nrKeys
    let last ← checkLast root node
    (if node.leaf then [] else List.range (node.nrKeys + 1)).foldlM (fun errs i => do
      let child ← childAt node i
      let more ← nodeCheck fuel false child
      return errs + more) (checkNrKeys root node + errs + last)

/-- Source: `core/btree.c` `nkfs_btree_check` -/
def btreeCheck (fuel : ℕ) (tree : Tree) : M (Except Errno ℕ) := do
  if tree.releasing then return .error .eagain
  else
    let root ← treeRoot tree
    let errs ← nodeCheck fuel true root
    return .ok errs

/-! ### Trees of nodes -/

/-- The nodes under block `b` form a tree of at most `h` levels: every child number that is not zero can be
read. -/
def Readable (s : Sb) : ℕ → ℕ → Prop
  | 0, _ => False
  | h + 1, b => ∃ n, s.nodes b = some n ∧ n.block = b ∧ n.AllPages ∧
      (n.leaf = false → ∀ i ≤ n.nrKeys, i < childSlots → n.child i ≠ 0 →
        n.child i < s.env.nrBlocks ∧ Readable s h (n.child i))

/-- No interior node has more than three keys or a zero child number, and no node more keys than slots. -/
def InBounds (s : Sb) : ℕ → ℕ → Prop
  | 0, _ => True
  | h + 1, b => ∀ n, s.nodes b = some n → n.nrKeys ≤ keySlots ∧
      (n.leaf = false → n.nrKeys < btreeChildPages ∧ ∀ i ≤ n.nrKeys, n.child i ≠ 0 ∧ InBounds s h (n.child i))

/-- Each node has the right number of keys, and its own keys increase. -/
def LocalOk (s : Sb) : Bool → ℕ → ℕ → Prop
  | _, 0, _ => True
  | root, h + 1, b => ∀ n, s.nodes b = some n →
      n.nrKeys ≤ 2 * btreeT - 1 ∧ (root = true ∨ btreeT - 1 ≤ n.nrKeys) ∧ n.Increasing ∧
        (n.leaf = false → ∀ i ≤ n.nrKeys, LocalOk s false h (n.child i))

/-- The pairs under a block from left to right, down to the leaves wherever they are. -/
def pairs (nodes : ℕ → Option Node) : ℕ → ℕ → List (Key × ℕ)
  | 0, _ => []
  | h + 1, b =>
    match nodes b with
    | none => []
    | some n => inorder (fun i => if n.leaf then [] else pairs nodes h (n.child i)) n.sep n.nrKeys

/-- The B-tree invariant of a tree of nodes: numbers of keys, leaves at one depth, keys increasing inside
nodes and across separators, no zero child number. -/
def TreeOk (s : Sb) (root : ℕ) : Prop := ∃ h, 0 < h ∧ Shape s.nodes 0 h root ∧
  Sorted (entries s.nodes h root) ∧ ∀ x ∈ (blocks s.nodes h root).tail, x ≠ 0

/-! ### One node -/

section node

variable {n : Node} {i : ℕ}

lemma childMissing_eq (hp : n.AllPages) (hi : i < btreeChildPages) : childMissing n i = .ok 0 := by
  rw [childMissing, if_pos hi, if_pos (hp i)]

lemma childMissing_oob (hi : btreeChildPages ≤ i) : childMissing n i = .error .oob := if_neg (not_lt.mpr hi)

/-- The first `i` keys increase. -/
def IncreasingTo (n : Node) (i : ℕ) : Prop := ∀ j, j + 1 < i → n.key j < n.key (j + 1)

lemma increasingTo_iff : IncreasingTo n n.nrKeys ↔ n.Increasing := by
  constructor
  · intro h i j hij hj
    induction j with
    | zero => exact absurd hij (Nat.not_lt_zero i)
    | succ j ih =>
      rcases Nat.lt_succ_iff_lt_or_eq.mp hij with hlt | rfl
      · exact (ih hlt (Nat.lt_of_succ_lt hj)).trans (h j hj)
      · exact h i hj
  · intro h j hj
    exact h j (j + 1) (Nat.lt_succ_self j) hj

lemma notAbovePrev_eq (hi : i < keySlots) : ∃ e, notAbovePrev n i = .ok e ∧
    (e = 0 ↔ ∀ j, j + 1 = i → n.key j < n.key (j + 1)) := by
  cases i with
  | zero => exact ⟨0, except_bind_ok (nodeKey_eq hi), by simp⟩
  | succ i =>
    refine ⟨_, (except_bind_ok (nodeKey_eq (Nat.lt_of_succ_lt hi))).trans (except_bind_ok (nodeKey_eq hi)), ?_⟩
    have hiff : (∀ j, j + 1 = i + 1 → n.key j < n.key (j + 1)) ↔ n.key i < n.key (i + 1) := by
      constructor
      · intro h
        exact h i rfl
      · rintro h j hj
        obtain rfl := Nat.succ_injective hj
        exact h
    rw [hiff, ← cmpKey_lt_iff]
    split_ifs with hlt <;> simp [hlt]

/-- In bounds the loop over the keys counts 0 exactly if they increase. -/
lemma checkKeys_eq (hp : n.AllPages) : ∀ {i : ℕ}, i ≤ keySlots → (n.leaf = false → i ≤ btreeChildPages) →
    ∃ e, checkKeys n i = .ok e ∧ (e = 0 ↔ IncreasingTo n i)
  | 0, _, _ => ⟨0, rfl, by simp [IncreasingTo]⟩
  | i + 1, hi, hleaf => by
    obtain ⟨e, he, hiff⟩ := checkKeys_eq hp (Nat.le_of_succ_le hi) fun hl => Nat.le_of_succ_le (hleaf hl)
    obtain ⟨e', he', hiff'⟩ := notAbovePrev_eq (n := n) (Nat.lt_of_succ_le hi)
    have hmiss : checkChild n i = .ok 0 := by
      unfold checkChild
      split_ifs with hl
      · rfl
      · exact childMissing_eq hp (Nat.lt_of_succ_le (hleaf (Bool.not_eq_true _ ▸ hl)))
    refine ⟨e + e' + 0, (except_bind_ok he).trans ((except_bind_ok he').trans (except_bind_ok hmiss)), ?_⟩
    rw [add_zero, Nat.add_eq_zero_iff, hiff, hiff']
    constructor
    · rintro ⟨hto, hlast⟩ j hj
      rcases Nat.lt_succ_iff_lt_or_eq.mp hj with hj | hj
      · exact hto j hj
      · exact hlast j hj
    · intro hto
      exact ⟨fun j hj => hto j (Nat.lt_succ_of_lt hj), fun j hj => hto j (hj ▸ Nat.lt_succ_self _)⟩

/-- Out of bounds it stops. -/
lemma checkKeys_error : ∀ {i : ℕ}, keySlots < i ∨ (n.leaf = false ∧ btreeChildPages < i) →
    ∃ e, checkKeys n i = .error e
  | 0, h => absurd h (by simp)
  | i + 1, h => by
    cases he : checkKeys n i with
    | error e => exact ⟨e, except_bind_error he⟩
    | ok errs =>
      have hprev : ¬ (keySlots < i ∨ (n.leaf = false ∧ btreeChildPages < i)) := fun hi => by
        obtain ⟨e, he'⟩ := checkKeys_error hi
        rw [he] at he'
        cases he'
      -- so it is this round
      cases ho : notAbovePrev n i with
      | error e => exact ⟨e, (except_bind_ok he).trans (except_bind_error ho)⟩
      | ok order =>
        by_cases hi : i < keySlots
        · obtain ⟨hleaf, hlt⟩ := h.resolve_left (by omega)
          have hmiss : checkChild n i = .error .oob := by
            rw [checkChild, hleaf, if_neg Bool.false_ne_true]
            exact childMissing_oob (Nat.lt_succ_iff.mp hlt)
          exact ⟨_, (except_bind_ok he).trans ((except_bind_ok ho).trans (except_bind_error hmiss))⟩
        · obtain rfl : i = keySlots := by omega
          have hkey : nodeKey n keySlots = .error .bug := if_neg (lt_irrefl _)
          have hprevKey : nodeKey n (keySlots - 1) = .ok _ := nodeKey_eq (by decide)
          have hbug : notAbovePrev n keySlots = .error .bug :=
            (except_bind_ok hprevKey).trans (except_bind_error hkey)
          rw [hbug] at ho
          cases ho

/-- The test of the last child. -/
lemma checkLast_eq {root : Bool} (hp : n.AllPages) (h : n.leaf = false → n.nrKeys < btreeChildPages) :
    checkLast root n = .ok 0 := by
  unfold checkLast
  split_ifs with hc
  · rw [Bool.and_eq_true, Bool.not_eq_true'] at hc
    exact childMissing_eq hp (h hc.1)
  · rfl

lemma checkLast_error {root : Bool} (hleaf : n.leaf = false) (h : n.nrKeys = btreeChildPages) :
    checkLast root n = .error .oob := by
  have hc : (!n.leaf && (!root || decide (n.nrKeys ≠ 0))) = true := by
    rw [hleaf, h]
    cases root <;> rfl
  rw [checkLast, if_pos hc]
  exact childMissing_oob h.ge

lemma checkNrKeys_eq_zero {root : Bool} : checkNrKeys root n = 0 ↔
    n.nrKeys ≤ 2 * btreeT - 1 ∧ (root = true ∨ btreeT - 1 ≤ n.nrKeys) := by
  unfold checkNrKeys
  cases root <;> simp

end node

/-! ### A subtree -/

section subtree

variable {s : Sb}

lemma nodeRead_eq {n : Node} {b : ℕ} (h0 : b ≠ 0) (hlt : b < s.env.nrBlocks) (hn : s.nodes b = some n)
    (hb : n.block = b) : nodeRead b s = .ok (some n, s) := by
  have hsame : (s.nodes b).map (fun n => { n with block := b }) = some n := by
    rw [hn, ← hb]
    rfl
  unfold nodeRead
  rw [run_get, if_neg (not_or.mpr ⟨h0, not_le.mpr hlt⟩), hsame]
  rfl

lemma nodeRead_bug {b : ℕ} (h : b = 0 ∨ b ≥ s.env.nrBlocks) : nodeRead b s = .error (.bug, s) := by
  unfold nodeRead
  rw [run_get, if_pos h]
  rfl

/-- A child whose number is a readable block of the device. -/
lemma childAt_ok {n c : Node} {i : ℕ} (hp : n.AllPages) (hi : i < childSlots) (h0 : n.child i ≠ 0)
    (hlt : n.child i < s.env.nrBlocks) (hc : s.nodes (n.child i) = some c) (hb : c.block = n.child i) :
    childAt n i s = .ok (c, s) :=
  (run_bind_ok (run_lift (getChildVal_eq hp hi))).trans (run_bind_ok (nodeRead_eq h0 hlt hc hb))

/-- A loop that adds up counts: the sum is 0 exactly if each count is. -/
lemma foldlM_count {F : ℕ → ℕ → M ℕ} {P : ℕ → Prop} : ∀ (is : List ℕ) (acc : ℕ),
    (∀ i ∈ is, ∃ m, (∀ acc, F acc i s = .ok (acc + m, s)) ∧ (m = 0 ↔ P i)) →
    ∃ m, is.foldlM F acc s = .ok (acc + m, s) ∧ (m = 0 ↔ ∀ i ∈ is, P i)
  | [], acc, _ => ⟨0, rfl, by simp⟩
  | i :: is, acc, h => by
    obtain ⟨m, hm, hiff⟩ := h i (mem_cons_self ..)
    obtain ⟨m', hm', hiff'⟩ := foldlM_count is (acc + m) fun j hj => h j (mem_cons_of_mem _ hj)
    refine ⟨m + m', ?_, ?_⟩
    · rw [foldlM_cons, run_bind_ok (hm acc), hm', add_assoc]
    · rw [Nat.add_eq_zero_iff, hiff, hiff', forall_mem_cons]

/-- A loop one of whose rounds stops. -/
lemma foldlM_error {F : ℕ → ℕ → M ℕ} : ∀ (is : List ℕ) (acc : ℕ),
    (∀ i ∈ is, (∃ m, ∀ acc, F acc i s = .ok (acc + m, s)) ∨ ∃ e, ∀ acc, F acc i s = .error e) →
    (∃ i ∈ is, ∃ e, ∀ acc, F acc i s = .error e) → ∃ e, is.foldlM F acc s = .error e
  | [], _, _, hex => by simp at hex
  | i :: is, acc, h, hex => by
    rcases h i (mem_cons_self ..) with ⟨m, hm⟩ | ⟨e, he⟩
    · obtain ⟨j, hj, e, he⟩ := hex
      rcases mem_cons.mp hj with rfl | hj
      · cases (hm 0).symm.trans (he 0)
      · obtain ⟨e', he'⟩ := foldlM_error is (acc + m) (fun k hk => h k (mem_cons_of_mem _ hk)) ⟨j, hj, e, he⟩
        exact ⟨e', by rw [foldlM_cons, run_bind_ok (hm acc), he']⟩
    · exact ⟨e, by rw [foldlM_cons, run_bind_error (he acc)]⟩

/-- The checker returns exactly in bounds, and then it counts 0 exactly if the local tests pass. -/
def CheckRuns (s : Sb) (fuel : ℕ) (root : Bool) (n : Node) (h b : ℕ) : Prop :=
  (InBounds s h b ∧ ∃ errs, nodeCheck fuel root n s = .ok (errs, s) ∧ (errs = 0 ↔ LocalOk s root h b)) ∨
    (¬ InBounds s h b ∧ ∃ e, nodeCheck fuel root n s = .error e)

/-- One round of the loop over the children. -/
lemma checkRound_run {n : Node} (fuel : ℕ) {h i : ℕ} (hp : n.AllPages) (hi : i < childSlots)
    (hread : n.child i ≠ 0 → n.child i < s.env.nrBlocks ∧ Readable s h (n.child i))
    (ih : ∀ c, Readable s h (n.child i) → s.nodes (n.child i) = some c → CheckRuns s fuel false c h (n.child i)) :
    (n.child i ≠ 0 ∧ InBounds s h (n.child i) ∧ ∃ m, (∀ acc : ℕ, (do
        let child ← childAt n i
        let more ← nodeCheck fuel false child
        return acc + more : M ℕ) s = .ok (acc + m, s)) ∧ (m = 0 ↔ LocalOk s false h (n.child i))) ∨
    (¬ (n.child i ≠ 0 ∧ InBounds s h (n.child i)) ∧ ∃ e, ∀ acc : ℕ, (do
        let child ← childAt n i
        let more ← nodeCheck fuel false child
        return acc + more : M ℕ) s = .error e) := by
  have hval : (liftM (getChildVal n i) : M ℕ) s = .ok (n.child i, s) := run_lift (getChildVal_eq hp hi)
  by_cases h0 : n.child i = 0
  · -- `NKFS_BUG_ON(block == 0 ..)` in the read
    have hstop : childAt n i s = .error (.bug, s) :=
      (run_bind_ok hval).trans (run_bind_error (nodeRead_bug (Or.inl h0)))
    exact Or.inr ⟨fun h => h.1 h0, _, fun acc => run_bind_error hstop⟩
  · obtain ⟨hlt, hr⟩ := hread h0
    cases h with
    | zero => exact hr.elim
    | succ h =>
      obtain ⟨c, hc, hblock, -⟩ := id hr
      have hchild := childAt_ok hp hi h0 hlt hc hblock
      rcases ih c hr hc with ⟨hin, m, hrun, hiff⟩ | ⟨hin, e, hrun⟩
      · exact Or.inl ⟨h0, hin, m, fun acc => (run_bind_ok hchild).trans (run_bind_ok hrun), hiff⟩
      · exact Or.inr ⟨fun h => hin h.2, e, fun acc => (run_bind_ok hchild).trans (run_bind_error hrun)⟩

lemma nodeCheck_run : ∀ {h fuel : ℕ} {root : Bool} {b : ℕ} {n : Node}, Readable s h b → s.nodes b = some n →
    h ≤ fuel → CheckRuns s fuel root n h b
  | 0, _, _, _, _, hr, _, _ => hr.elim
  | h + 1, 0, _, _, _, _, _, hf => absurd hf (Nat.not_succ_le_zero h)
  | h + 1, fuel + 1, root, b, n, hr, hb, hf => by
    obtain ⟨n', hn', -, hp, hkids⟩ := hr
    obtain rfl : n' = n := Option.some.inj (hn'.symm.trans hb)
    have hbounds : InBounds s (h + 1) b ↔ n'.nrKeys ≤ keySlots ∧ (n'.leaf = false →
        n'.nrKeys < btreeChildPages ∧ ∀ i ≤ n'.nrKeys, n'.child i ≠ 0 ∧ InBounds s h (n'.child i)) := by
      constructor
      · intro hin
        exact hin n' hb
      · rintro hin m hm
        rw [hb, Option.some.injEq] at hm
        exact hm ▸ hin
    have hlocal : LocalOk s root (h + 1) b ↔ n'.nrKeys ≤ 2 * btreeT - 1 ∧
        (root = true ∨ btreeT - 1 ≤ n'.nrKeys) ∧ n'.Increasing ∧
          (n'.leaf = false → ∀ i ≤ n'.nrKeys, LocalOk s false h (n'.child i)) := by
      constructor
      · intro hin
        exact hin n' hb
      · rintro hin m hm
        rw [hb, Option.some.injEq] at hm
        exact hm ▸ hin
    rw [CheckRuns, hbounds, hlocal]
    by_cases hslots : n'.nrKeys ≤ keySlots ∧ (n'.leaf = false → n'.nrKeys < btreeChildPages)
    swap
    · -- the tests of the node itself leave an array
      refine Or.inr ⟨fun hin => hslots ⟨hin.1, fun hl => (hin.2 hl).1⟩, ?_⟩
      by_cases hover : keySlots < n'.nrKeys ∨ (n'.leaf = false ∧ btreeChildPages < n'.nrKeys)
      · obtain ⟨e, he⟩ := checkKeys_error hover
        exact ⟨_, run_bind_error (run_lift_error he)⟩
      · rw [not_and_or, Classical.not_imp] at hslots
        rw [not_or, not_and] at hover
        obtain ⟨hleaf, hge⟩ := hslots.resolve_left (by omega)
        have hfour : n'.nrKeys = btreeChildPages := by
          have := hover.2 hleaf
          omega
        have hlast : checkLast root n' = _ := checkLast_error hleaf hfour
        cases he : checkKeys n' n'.nrKeys with
        | error e => exact ⟨_, run_bind_error (run_lift_error he)⟩
        | ok errs => exact ⟨_, (run_bind_ok (run_lift he)).trans (run_bind_error (run_lift_error hlast))⟩
    · obtain ⟨hnr, hfew⟩ := hslots
      obtain ⟨errs, hkeys, hincr⟩ := checkKeys_eq hp hnr fun hl => (hfew hl).le
      rw [increasingTo_iff] at hincr
      have hhead : nodeCheck (fuel + 1) root n' s = _ :=
        (run_bind_ok (run_lift hkeys)).trans (run_bind_ok (run_lift (checkLast_eq hp hfew)))
      rw [hhead]
      cases hleaf : n'.leaf with
      | true =>
        refine Or.inl ⟨⟨hnr, nofun⟩, _, rfl, ?_⟩
        rw [add_zero, Nat.add_eq_zero_iff, checkNrKeys_eq_zero, hincr]
        simp [and_assoc]
      | false =>
        rw [if_neg Bool.false_ne_true]
        have hmem : ∀ i ∈ range (n'.nrKeys + 1), i ≤ n'.nrKeys ∧ i < childSlots := fun i hi => by
          have hle : i ≤ n'.nrKeys := Nat.lt_succ_iff.mp (mem_range.mp hi)
          exact ⟨hle, hle.trans_lt ((hfew hleaf).trans (by decide))⟩
        have hround := fun i hi => checkRound_run fuel hp (hmem i hi).2
          (hkids hleaf i (hmem i hi).1 (hmem i hi).2)
          fun c hrc hc => nodeCheck_run hrc hc (Nat.le_of_succ_le_succ hf)
        by_cases hall : ∀ i ≤ n'.nrKeys, n'.child i ≠ 0 ∧ InBounds s h (n'.child i)
        · obtain ⟨m, hrun, hiff⟩ := foldlM_count (P := fun i => LocalOk s false h (n'.child i))
            (range (n'.nrKeys + 1)) (checkNrKeys root n' + errs + 0) fun i hi =>
              ((hround i hi).resolve_right fun hno => hno.1 (hall i (hmem i hi).1)).2.2
          refine Or.inl ⟨⟨hnr, fun _ => ⟨hfew hleaf, hall⟩⟩, _, hrun, ?_⟩
          rw [Nat.add_eq_zero_iff, add_zero, Nat.add_eq_zero_iff, checkNrKeys_eq_zero, hincr, hiff]
          simp only [mem_range, Nat.lt_succ_iff, true_imp_iff, and_assoc]
        · refine Or.inr ⟨fun hin => hall (hin.2 rfl).2, ?_⟩
          simp only [not_forall] at hall
          obtain ⟨i, hi, hbad⟩ := hall
          have hi' : i ∈ range (n'.nrKeys + 1) := mem_range.mpr (Nat.lt_succ_of_le hi)
          refine foldlM_error _ _ (fun j hj => ?_)
            ⟨i, hi', ((hround i hi').resolve_left fun hok => hbad ⟨hok.1, hok.2.1⟩).2⟩
          rcases hround j hj with ⟨-, -, m, hm, -⟩ | ⟨-, e, he⟩
          · exact Or.inl ⟨m, hm⟩
          · exact Or.inr ⟨e, he⟩

/-- A tree with the invariant passes the local tests. -/
lemma localOk_of_shape : ∀ {h' h lo b : ℕ} {root : Bool}, Shape s.nodes lo h' b → 0 < h' →
    Sorted (entries s.nodes h' b) → (root = true ∨ btreeT - 1 ≤ lo) → LocalOk s root h b
  | _, 0, _, _, _, _, _, _, _ => trivial
  | h' + 1, h + 1, lo, b, root, hshape, _, hs, hroot => by
    intro n hb
    obtain ⟨n', hb', hok, hkids⟩ := hshape
    obtain rfl : n' = n := Option.some.inj (hb'.symm.trans hb)
    rw [entries_succ hb] at hs
    refine ⟨hok.le, hroot.imp_right fun hlo => hlo.trans hok.lo_le, increasing_of_sorted hs, fun hleaf i hi => ?_⟩
    have hpos : 0 < h' := by
      rw [hok.leaf, decide_eq_false_iff_not] at hleaf
      exact Nat.pos_of_ne_zero hleaf
    refine localOk_of_shape (hkids i hi) hpos ?_ (Or.inr le_rfl)
    rw [inorder_split hi, sorted_append, sorted_append] at hs
    exact hs.1.2.1

/-- The pairs of a tree that has its leaves at one depth. -/
lemma pairs_eq_entries : ∀ {h' h lo b : ℕ}, Readable s h b → InBounds s h b → Shape s.nodes lo h' b → 0 < h' →
    pairs s.nodes h b = entries s.nodes h' b
  | _, 0, _, _, hr, _, _, _ => hr.elim
  | h' + 1, h + 1, lo, b, hr, hin, hshape, _ => by
    obtain ⟨n, hb, -, -, hkids⟩ := hr
    obtain ⟨n', hb', hok, hshapes⟩ := hshape
    obtain rfl : n' = n := Option.some.inj (hb'.symm.trans hb)
    obtain ⟨-, hbounds⟩ := hin n' hb
    rw [entries_succ hb, pairs, hb]
    refine inorder_congr (fun i hi => ?_) fun _ _ => rfl
    cases hleaf : n'.leaf with
    | true =>
      rw [hok.leaf, decide_eq_true_eq] at hleaf
      rw [if_pos rfl, hleaf]
      rfl
    | false =>
      obtain ⟨hfew, hsub⟩ := hbounds hleaf
      obtain ⟨h0, hini⟩ := hsub i hi
      rw [if_neg Bool.false_ne_true]
      have hpos : 0 < h' := by
        rw [hok.leaf, decide_eq_false_iff_not] at hleaf
        exact Nat.pos_of_ne_zero hleaf
      have hslot : i < childSlots := (hi.trans_lt hfew).trans (by decide)
      exact pairs_eq_entries (hkids hleaf i hi hslot h0).2 hini (hshapes i hi) hpos

/-- Below the root only leaves pass in bounds: an interior node has too few keys. -/
lemma leaf_of_localOk {h b : ℕ} (hr : Readable s h b) (hin : InBounds s h b) (hloc : LocalOk s false h b) :
    Shape s.nodes (btreeT - 1) 1 b := by
  cases h with
  | zero => exact hr.elim
  | succ h =>
    obtain ⟨n, hb, hblock, hp, -⟩ := hr
    obtain ⟨hle, hge, -, -⟩ := hloc n hb
    have hge : btreeT - 1 ≤ n.nrKeys := hge.resolve_left Bool.false_ne_true
    refine ⟨n, hb, ⟨hblock, hp, hge, hle, ?_⟩, fun _ _ => trivial⟩
    cases hleaf : n.leaf with
    | true => rfl
    | false =>
      have hfew := ((hin n hb).2 hleaf).1
      exact absurd (hge.trans_lt hfew) (by decide)

/-- In bounds and with the local tests passed the leaves are at one depth, and no child number is zero. -/
lemma shape_of_localOk {h b : ℕ} (hr : Readable s h b) (hin : InBounds s h b) (hloc : LocalOk s true h b) :
    ∃ h', 0 < h' ∧ Shape s.nodes 0 h' b ∧ ∀ x ∈ (blocks s.nodes h' b).tail, x ≠ 0 := by
  cases h with
  | zero => exact hr.elim
  | succ h =>
    obtain ⟨n, hb, hblock, hp, hkids⟩ := hr
    obtain ⟨hle, -, -, hlocs⟩ := hloc n hb
    obtain ⟨-, hbounds⟩ := hin n hb
    cases hleaf : n.leaf with
    | true =>
      refine ⟨1, Nat.one_pos, ⟨n, hb, ⟨hblock, hp, Nat.zero_le _, hle, hleaf⟩, fun _ _ => trivial⟩, ?_⟩
      rw [blocks_succ hb, tail_cons]
      have hnil : inorder (fun i => blocks s.nodes 0 (n.child i)) (fun _ => []) n.nrKeys = [] := inorder_nil _
      rw [hnil]
      exact fun x hx => absurd hx not_mem_nil
    | false =>
      obtain ⟨hfew, hsub⟩ := hbounds hleaf
      have hchild : ∀ i ≤ n.nrKeys, Shape s.nodes (btreeT - 1) 1 (n.child i) := fun i hi =>
        leaf_of_localOk (hkids hleaf i hi ((hi.trans_lt hfew).trans (by decide)) (hsub i hi).1).2 (hsub i hi).2
          (hlocs hleaf i hi)
      refine ⟨2, Nat.two_pos, ⟨n, hb, ⟨hblock, hp, Nat.zero_le _, hle, hleaf⟩, hchild⟩, ?_⟩
      rw [blocks_succ hb, tail_cons]
      intro x hx
      rcases mem_inorder.mp hx with ⟨i, hi, hx⟩ | ⟨i, -, hx⟩
      · -- a leaf has no blocks but its own
        obtain ⟨c, hc, -⟩ := hchild i hi
        have hnil : inorder (fun i => blocks s.nodes 0 (c.child i)) (fun _ => []) c.nrKeys = [] := inorder_nil _
        rw [blocks_succ hc, hnil, mem_singleton] at hx
        exact hx ▸ (hsub i hi).1
      · exact absurd hx not_mem_nil

end subtree

/-! ### The checker as a whole -/

/-- The checker returns, so it read no slot outside an array, and its count is 0 exactly on trees with the
invariant. -/
def CheckExact (s : Sb) (t : Tree) : Prop := ∃ bound, ∀ fuel ≥ bound, ∃ errs, btreeCheck fuel t s = .ok (.ok errs, s) ∧
  (errs = 0 ↔ TreeOk s t.root)

lemma btreeCheck_run {s : Sb} {t : Tree} {n : Node} {fuel : ℕ} (hrel : t.releasing = false)
    (hb : s.nodes t.root = some n) :
    btreeCheck fuel t s = (nodeCheck fuel true n >>= fun errs => pure (.ok errs) : M (Except Errno ℕ)) s := by
  unfold btreeCheck
  rw [hrel, if_neg Bool.false_ne_true]
  exact run_bind_ok (treeRoot_run hb)

/-- **The checker is exact exactly if** every interior node has at most three keys and no zero child number, no
node has more keys than slots, and keys that increase in every node of the right size also increase across the
separators. -/
theorem check_exact_iff {s : Sb} {t : Tree} {h : ℕ} (hrel : t.releasing = false) (hr : Readable s h t.root) :
    CheckExact s t ↔ InBounds s h t.root ∧ (LocalOk s true h t.root → Sorted (pairs s.nodes h t.root)) := by
  obtain ⟨n, hb⟩ : ∃ n, s.nodes t.root = some n := by
    cases h with
    | zero => exact hr.elim
    | succ h =>
      obtain ⟨n, hb, -⟩ := hr
      exact ⟨n, hb⟩
  have hruns : ∀ fuel ≥ h, CheckRuns s fuel true n h t.root := fun fuel hf => nodeCheck_run hr hb hf
  constructor
  · rintro ⟨bound, hall⟩
    obtain ⟨errs, hret, hiff⟩ := hall (max bound h) (le_max_left _ _)
    rw [btreeCheck_run hrel hb] at hret
    rcases hruns (max bound h) (le_max_right _ _) with ⟨hin, errs', hrun, hzero⟩ | ⟨-, e, he⟩
    · rw [run_bind_ok hrun] at hret
      cases hret
      refine ⟨hin, fun hloc => ?_⟩
      obtain ⟨h', hpos, hshape, hsorted, -⟩ := hiff.mp (hzero.mpr hloc)
      rw [pairs_eq_entries hr hin hshape hpos]
      exact hsorted
    · rw [run_bind_error he] at hret
      cases hret
  · rintro ⟨hin, hsep⟩
    refine ⟨h, fun fuel hf => ?_⟩
    rcases hruns fuel hf with ⟨-, errs, hrun, hzero⟩ | ⟨hno, -⟩
    · refine ⟨errs, (btreeCheck_run hrel hb).trans (run_bind_ok hrun), hzero.trans ⟨fun hloc => ?_, ?_⟩⟩
      · obtain ⟨h', hpos, hshape, hne⟩ := shape_of_localOk hr hin hloc
        refine ⟨h', hpos, hshape, ?_, hne⟩
        rw [← pairs_eq_entries hr hin hshape hpos]
        exact hsep hloc
      · rintro ⟨h', hpos, hshape, hsorted, -⟩
        exact localOk_of_shape hshape hpos hsorted (Or.inl rfl)
    · exact absurd hin hno

/-- An interior node with four keys, children at the blocks 3 to 7. -/
def wideNode : Node := { Node.zero with block := 2, nrKeys := 4, child := fun i => 3 + i }

/-- A leaf without keys. -/
def bareLeaf (b : ℕ) : Node := { Node.zero with block := b, leaf := true }

/-- A root with four keys over five leaves. -/
def fiveLeaves : Sb := { blankSb with nodes := fun b => if b = 2 then some wideNode else some (bareLeaf b) }

/-- On one of its leaves the checker is exact. -/
theorem check_exact_iff_leaf : CheckExact fiveLeaves { root := 3, releasing := false } := by
  have hnode : fiveLeaves.nodes 3 = some (bareLeaf 3) := rfl
  have hread : Readable fiveLeaves 1 3 := ⟨_, hnode, rfl, fun _ => rfl, nofun⟩
  refine (check_exact_iff (h := 1) rfl hread).mpr ⟨fun n hn => ?_, fun _ => ?_⟩
  · obtain rfl := Option.some.inj (hnode.symm.trans hn)
    exact ⟨Nat.zero_le _, nofun⟩
  · exact List.Pairwise.nil

/-- The test of the last child of the root reads `node->children[4]`, past the array of four pages. -/
theorem not_check_exact : ¬ ∀ (s : Sb) (t : Tree) (h : ℕ), t.releasing = false → Readable s h t.root →
    CheckExact s t := by
  intro hall
  have hroot : fiveLeaves.nodes 2 = some wideNode := rfl
  have hread : Readable fiveLeaves 2 2 := by
    refine ⟨_, hroot, rfl, fun _ => rfl, fun _ i hi _ _ => ⟨?_, ?_⟩⟩
    · show 3 + i < 65536
      have hle : i ≤ 4 := hi
      omega
    · have hleaf : fiveLeaves.nodes (3 + i) = some (bareLeaf (3 + i)) := if_neg (by omega)
      exact ⟨_, hleaf, rfl, fun _ => rfl, nofun⟩
  obtain ⟨bound, hexact⟩ := hall fiveLeaves { root := 2, releasing := false } 2 rfl hread
  obtain ⟨errs, hret, -⟩ := hexact (max bound 2) (le_max_left _ _)
  rw [btreeCheck_run rfl hroot] at hret
  rcases nodeCheck_run hread hroot (le_max_right bound 2) with ⟨hin, -⟩ | ⟨-, e, he⟩
  · have hfew := ((hin _ hroot).2 rfl).1
    exact absurd hfew (by decide)
  · rw [run_bind_error he] at hret
    cases hret

end Nkfs
