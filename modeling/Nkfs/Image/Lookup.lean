import Nkfs.Btree.Check
import Nkfs.Image.NodeFormat

/-!
# Lookup in any image

`nkfs_btree_create` on a root block and `nkfs_btree_find_key`, on a device whose blocks hold arbitrary bytes.
Signatures and the checksum are all that `nkfs_btree_node_read` tests; the number of keys, the leaf flag and
the child numbers of a node that passes are whatever the bytes say. A lookup returns exactly if the
descent it makes is harmless (`Descends`): it comes to an end, and on the way no node has more keys than
slots and every child entered is a readable block of the device (`lookup_safe_iff`).
-/

namespace Nkfs

open Lib.Program Lib.Bytes NodeFormat

/-! ### Images -/

/-- What a device holds: the bytes of each block, `none` where a block cannot be read. -/
structure Image where
  nrBlocks : ℕ
  clu : ℕ → Option Mem

/-- Key slot `i` of a node in memory. -/
def keyOfSlot (m : MemNode) (i : ℕ) : Key :=
  ⟨(m.key i).map fun b => ⟨b.toNat, b.toNat_lt⟩, by simp [MemNode.key]⟩

/-- A node in memory, slot by slot. -/
def nodeOfMem (block : ℕ) (m : MemNode) : Node where
  block := block
  leaf := m.leaf != 0
  nrKeys := m.nrKeys.toNat
  kv i := (keyOfSlot m i, m.value i)
  child := m.child
  page := fun _ => true

/-- The node that `nkfs_btree_node_read` makes of a block; `fresh` is what the allocated pages hold. -/
def Image.node (img : Image) (csum : List UInt8 → UInt64) (fresh : MemNode) (block : ℕ) : Option Node := do
  let c ← img.clu block
  let m ← NodeFormat.nodeRead csum fresh c
  return nodeOfMem block m

/-- A superblock on the image. -/
def Image.sb (img : Image) (csum : List UInt8 → UInt64) (fresh : MemNode) : Sb :=
  { blankSb with
    env := { blankSb.env with nrBlocks := img.nrBlocks, csum := csum }
    nodes := img.node csum fresh }

lemma Image.allPages {img : Image} {csum : List UInt8 → UInt64} {fresh : MemNode} {b : ℕ} {n : Node}
    (h : (img.sb csum fresh).nodes b = some n) : n.AllPages ∧ n.block = b := by
  have h : img.node csum fresh b = some n := h
  unfold Image.node at h
  cases hc : img.clu b with
  | none =>
    rw [hc] at h
    cases h
  | some c =>
    cases hm : NodeFormat.nodeRead csum fresh c with
    | none =>
      rw [hc, Option.bind_eq_bind, Option.bind_some, hm] at h
      cases h
    | some m =>
      rw [hc, Option.bind_eq_bind, Option.bind_some, hm] at h
      cases h
      exact ⟨fun _ => rfl, rfl⟩

/-! ### The calls -/

/-- `nkfs_btree_find_key` with a bound on the number of nodes read. -/
def findKeyIn (fuel : ℕ) (tree : Tree) (key : Key) : M (Except Errno ℕ) := do
  if tree.releasing then return .error .eagain
  else
    let root ← treeRoot tree
    match ← nodeFindKey key fuel root with
    | none => return .error .enoent
    | some (found, index) =>
      let value ← nodeValue found index
      return .ok value

/-- Create a tree on a root block and look a key up; `none` if the tree cannot be created. -/
def lookupAt (fuel root : ℕ) (key : Key) : M (Option (Except Errno ℕ)) := do
  match ← btreeCreate root with
  | none => return none
  | some tree =>
    let r ← findKeyIn fuel tree key
    return some r

/-! ### One node -/

section node

variable {n : Node} (key : Key)

/-- The binary search stays inside the slots of any node, sorted or not. -/
lemma searchLoop_total (hnr : n.nrKeys ≤ keySlots) : ∀ (fuel start stop : ℕ), start ≤ stop → stop ≤ n.nrKeys →
    stop - start < fuel → ∃ r, searchLoop n key fuel start stop = .ok r ∧ r.2 ≤ n.nrKeys ∧
      ∀ i, r.1 = some i → i < n.nrKeys
  | 0, _, _, _, _, hf => absurd hf (Nat.not_lt_zero _)
  | fuel + 1, start, stop, hle, hstop, hf => by
    rw [searchLoop]
    split_ifs with hlt
    · have hmid : (start + stop) / 2 < stop := by omega
      have hkey : nodeKey n ((start + stop) / 2) = .ok _ := nodeKey_eq (hmid.trans_le (hstop.trans hnr))
      rw [except_bind_ok hkey]
      cases cmpKey key (n.key ((start + stop) / 2)) with
      | eq =>
        refine ⟨_, rfl, hstop, fun i hi => ?_⟩
        cases hi
        exact hmid.trans_le hstop
      | lt => exact searchLoop_total hnr fuel start _ (by omega) (hmid.le.trans hstop) (by omega)
      | gt => exact searchLoop_total hnr fuel _ stop (by omega) hstop (by omega)
    · exact ⟨_, rfl, hstop, fun i hi => absurd hi.symm (Option.some_ne_none i)⟩

lemma findKeyIndex_total (hnr : n.nrKeys ≤ keySlots) : ∃ i ≤ n.nrKeys, findKeyIndex n key = .ok i := by
  unfold findKeyIndex
  split_ifs with h0
  · exact ⟨0, Nat.zero_le _, rfl⟩
  · have hlast : nodeKey n (n.nrKeys - 1) = .ok _ := nodeKey_eq (by omega)
    have hfirst : nodeKey n 0 = .ok _ := nodeKey_eq (by decide)
    rw [except_bind_ok hlast]
    split_ifs
    · exact ⟨n.nrKeys, le_rfl, rfl⟩
    · rw [except_bind_ok hfirst]
      split_ifs
      · exact ⟨0, Nat.zero_le _, rfl⟩
      · obtain ⟨⟨found, stop⟩, hr, hstop, hfound⟩ := searchLoop_total key hnr (n.nrKeys + 1) 0 n.nrKeys
          (Nat.zero_le _) le_rfl (by omega)
        rw [except_bind_ok hr]
        cases found with
        | none => exact ⟨stop, hstop, rfl⟩
        | some i => exact ⟨i, (hfound i rfl).le, rfl⟩

/-- More keys than slots: the `NKFS_BUG_ON` in `nkfs_btree_node_key`. -/
lemma findKeyIndex_bug (hnr : keySlots < n.nrKeys) : findKeyIndex n key = .error .bug := by
  have hlast : nodeKey n (n.nrKeys - 1) = .error .bug := if_neg (by omega)
  unfold findKeyIndex
  rw [if_neg (by omega), except_bind_error hlast]

end node

/-! ### The descent -/

/-- The descent from a node for a key comes to an end, through nodes with no more keys than slots and
through children that are readable blocks of the device. -/
inductive Descends (s : Sb) (key : Key) : Node → Prop
  /-- A node without keys. -/
  | empty {n : Node} : n.nrKeys = 0 → Descends s key n
  /-- The key is met, or the node is a leaf. -/
  | last {n : Node} {i : ℕ} : n.nrKeys ≤ keySlots → findKeyIndex n key = .ok i →
      (i < n.nrKeys ∧ n.key i = key) ∨ n.leaf = true → Descends s key n
  | down {n c : Node} {i : ℕ} : n.nrKeys ≤ keySlots → findKeyIndex n key = .ok i → n.child i ≠ 0 →
      n.child i < s.env.nrBlocks → s.nodes (n.child i) = some c → Descends s key c → Descends s key n

section descent

variable {s : Sb} {key : Key}

/-- The block cannot be read, or is no node. -/
lemma nodeRead_null {b : ℕ} (h : ¬ (b = 0 ∨ b ≥ s.env.nrBlocks)) (hb : s.nodes b = none) :
    Nkfs.nodeRead b s = .ok (none, s) := by
  unfold Nkfs.nodeRead
  rw [run_get, if_neg h, hb]
  rfl

/-- One round of the loop of `nkfs_btree_node_find_key`. -/
lemma nodeFindKey_round {fuel i : ℕ} {n : Node} (h0 : n.nrKeys ≠ 0) (hnr : n.nrKeys ≤ keySlots)
    (hi : findKeyIndex n key = .ok i) : nodeFindKey key (fuel + 1) n s =
      (if i < n.nrKeys ∧ n.key i = key then return some (n, i)
      else if n.leaf then return none
      else childAt n i >>= nodeFindKey key fuel : M (Option (Node × ℕ))) s := by
  have hat := isKeyAt_eq (i := i) (k := key) hnr
  rw [nodeFindKey, if_neg h0, run_bind_ok (run_lift hi), run_bind_ok (run_lift hat)]
  simp only [decide_eq_true_eq]
  split_ifs
  · rfl
  · rfl
  · refine congrFun ?_ s
    rw [childAt, bind_assoc]
    refine bind_congr fun block => ?_
    rw [bind_assoc]
    refine bind_congr fun c => ?_
    cases c with
    | none => rfl
    | some c => exact (pure_bind c _).symm

/-- The child that a round goes on with. -/
lemma childAt_cases {n : Node} {i : ℕ} (hp : n.AllPages) (hi : i < childSlots)
    (hblock : ∀ b m, s.nodes b = some m → m.block = b) :
    (∃ c, n.child i ≠ 0 ∧ n.child i < s.env.nrBlocks ∧ s.nodes (n.child i) = some c ∧ childAt n i s = .ok (c, s)) ∨
      ∃ e, childAt n i s = .error e := by
  have hval : (liftM (getChildVal n i) : M ℕ) s = .ok (n.child i, s) := run_lift (getChildVal_eq hp hi)
  by_cases hrange : n.child i = 0 ∨ n.child i ≥ s.env.nrBlocks
  · exact Or.inr ⟨_, (run_bind_ok hval).trans (run_bind_error (nodeRead_bug hrange))⟩
  · cases hc : s.nodes (n.child i) with
    | none => exact Or.inr ⟨_, (run_bind_ok hval).trans ((run_bind_ok (nodeRead_null hrange hc)).trans rfl)⟩
    | some c =>
      rw [not_or, not_le] at hrange
      exact Or.inl ⟨c, hrange.1, hrange.2, rfl, childAt_ok hp hi hrange.1 hrange.2 hc (hblock _ c hc)⟩

/-- A harmless descent returns, with any bound above its length. -/
lemma Descends.returns {n : Node} (h : Descends s key n) (hp : n.AllPages)
    (hnodes : ∀ b m, s.nodes b = some m → m.AllPages ∧ m.block = b) :
    ∃ bound, ∀ fuel ≥ bound, ∃ r, nodeFindKey key fuel n s = .ok (r, s) ∧ ∀ m i, r = some (m, i) → i < keySlots := by
  induction h with
  | @empty n h0 =>
    refine ⟨1, fun fuel hf => ⟨none, ?_, nofun⟩⟩
    obtain ⟨fuel, rfl⟩ := Nat.exists_eq_add_of_le' hf
    rw [nodeFindKey, if_pos h0]
    rfl
  | @last n i hnr hi hend =>
    refine ⟨1, fun fuel hf => ?_⟩
    obtain ⟨fuel, rfl⟩ := Nat.exists_eq_add_of_le' hf
    by_cases h0 : n.nrKeys = 0
    · refine ⟨none, ?_, nofun⟩
      rw [nodeFindKey, if_pos h0]
      rfl
    · rw [nodeFindKey_round h0 hnr hi]
      split_ifs with hat hleaf
      · refine ⟨some (n, i), rfl, fun m j hm => ?_⟩
        cases hm
        exact hat.1.trans_le hnr
      · exact ⟨none, rfl, nofun⟩
      · exact absurd (hend.resolve_left hat) hleaf
  | @down n c i hnr hi hne hlt hc _ ih =>
    obtain ⟨bound, hbound⟩ := ih (hnodes _ c hc).1
    refine ⟨bound + 1, fun fuel hf => ?_⟩
    obtain ⟨fuel, rfl⟩ := Nat.exists_eq_add_of_le' (Nat.le_of_add_left_le hf)
    by_cases h0 : n.nrKeys = 0
    · refine ⟨none, ?_, nofun⟩
      rw [nodeFindKey, if_pos h0]
      rfl
    · rw [nodeFindKey_round h0 hnr hi]
      split_ifs with hat hleaf
      · refine ⟨some (n, i), rfl, fun m j hm => ?_⟩
        cases hm
        exact hat.1.trans_le hnr
      · exact ⟨none, rfl, nofun⟩
      · obtain ⟨j, hj, hij⟩ := findKeyIndex_total key hnr
        obtain rfl : i = j := Except.ok.inj (hi.symm.trans hij)
        have hslot : i < childSlots := (hj.trans hnr).trans_lt (by decide)
        obtain ⟨r, hrest, hr⟩ := hbound fuel (Nat.le_of_succ_le_succ hf)
        exact ⟨r, (run_bind_ok (childAt_ok hp hslot hne hlt hc (hnodes _ c hc).2)).trans hrest, hr⟩

/-- A descent that returns was harmless. -/
lemma descends_of_returns {fuel : ℕ} {n : Node} {r : Option (Node × ℕ) × Sb} (hp : n.AllPages)
    (hnodes : ∀ b m, s.nodes b = some m → m.AllPages ∧ m.block = b) (h : nodeFindKey key fuel n s = .ok r) :
    Descends s key n := by
  induction fuel generalizing n with
  | zero => cases h
  | succ fuel ih =>
    by_cases h0 : n.nrKeys = 0
    · exact .empty h0
    by_cases hnr : n.nrKeys ≤ keySlots
    swap
    · have hbug := findKeyIndex_bug key (not_le.mp hnr)
      rw [nodeFindKey, if_neg h0, run_bind_error (run_lift_error hbug)] at h
      cases h
    obtain ⟨i, hle, hi⟩ := findKeyIndex_total key hnr
    by_cases hend : (i < n.nrKeys ∧ n.key i = key) ∨ n.leaf = true
    · exact .last hnr hi hend
    · rw [not_or] at hend
      rw [nodeFindKey_round h0 hnr hi, if_neg hend.1, if_neg hend.2] at h
      have hslot : i < childSlots := (hle.trans hnr).trans_lt (by decide)
      rcases childAt_cases hp hslot fun b m hm => (hnodes b m hm).2 with ⟨c, hne, hlt, hc, hrun⟩ | ⟨e, he⟩
      · rw [run_bind_ok hrun] at h
        exact .down hnr hi hne hlt hc (ih (hnodes _ c hc).1 h)
      · rw [run_bind_error he] at h
        cases h

/-- What `nkfs_btree_create` does on a given root block. -/
lemma btreeCreate_given {root : ℕ} (h0 : root ≠ 0) : btreeCreate root s =
    (Nkfs.nodeRead root >>= fun r => pure (r.map fun _ => { root := root, releasing := false }) : M (Option Tree)) s := by
  rw [btreeCreate, if_pos h0]
  refine congrFun (bind_congr fun r => ?_) s
  cases r <;> rfl

/-- The lookup with the tree created. -/
lemma lookupAt_run {fuel root : ℕ} {n : Node} (h0 : root ≠ 0) (hlt : root < s.env.nrBlocks)
    (hn : s.nodes root = some n) (hb : n.block = root) : lookupAt fuel root key s =
      (nodeFindKey key fuel n >>= fun r => (match r with
        | none => return some (.error .enoent)
        | some (found, index) => do
          let value ← nodeValue found index
          return some (.ok value)) : M (Option (Except Errno ℕ))) s := by
  have hcreate : btreeCreate root s = .ok (some { root := root, releasing := false }, s) :=
    (btreeCreate_given h0).trans (run_bind_ok (nodeRead_eq h0 hlt hn hb))
  have hroot : treeRoot { root := root, releasing := false } s = .ok (n, s) := treeRoot_run hn
  rw [lookupAt, run_bind_ok hcreate]
  show (findKeyIn fuel { root := root, releasing := false } key >>= fun r => pure (some r)) s = _
  rw [findKeyIn, if_neg Bool.false_ne_true, bind_assoc, run_bind_ok hroot, bind_assoc]
  refine congrFun (bind_congr fun r => ?_) s
  cases r with
  | none => rfl
  | some f =>
    obtain ⟨found, index⟩ := f
    dsimp only
    rw [bind_assoc]
    exact bind_congr fun value => pure_bind _ _

end descent

/-! ### Any image -/

/-- The lookup ends after finitely many node reads: with every large enough bound it returns, so it reached
no `NKFS_BUG_ON` and no slot outside the page arrays. -/
def LookupSafe (csum : List UInt8 → UInt64) (fresh : MemNode) (img : Image) (root : ℕ) (key : Key) : Prop :=
  ∃ bound, ∀ fuel ≥ bound, ∃ r, lookupAt fuel root key (img.sb csum fresh) = .ok (r, img.sb csum fresh)

/-- A descent that is harmless makes a lookup that returns. -/
lemma Descends.lookup {s : Sb} {key : Key} {root : ℕ} {n : Node} (h : Descends s key n) (h0 : root ≠ 0)
    (hlt : root < s.env.nrBlocks) (hn : s.nodes root = some n)
    (hnodes : ∀ b m, s.nodes b = some m → m.AllPages ∧ m.block = b) :
    ∃ bound, ∀ fuel ≥ bound, ∃ r, lookupAt fuel root key s = .ok (r, s) := by
  obtain ⟨hp, hb⟩ := hnodes root n hn
  obtain ⟨bound, hbound⟩ := h.returns hp hnodes
  refine ⟨bound, fun fuel hf => ?_⟩
  obtain ⟨r, hrun, hr⟩ := hbound fuel hf
  rw [lookupAt_run h0 hlt hn hb, run_bind_ok hrun]
  cases r with
  | none => exact ⟨_, rfl⟩
  | some f =>
    have hslot : f.2 < btreeValuePages * 512 := (hr f.1 f.2 rfl).trans (by decide)
    have hvalue : nodeValue f.1 f.2 = .ok _ := if_pos hslot
    exact ⟨_, run_bind_ok (run_lift hvalue)⟩

/-- **A lookup in an image is safe exactly if** the root block is on the device and, if it can be read, the
descent from it is harmless. -/
theorem lookup_safe_iff (csum : List UInt8 → UInt64) (fresh : MemNode) (img : Image) {root : ℕ} (key : Key)
    (h0 : root ≠ 0) : LookupSafe csum fresh img root key ↔
      root < img.nrBlocks ∧ ∀ n, img.node csum fresh root = some n → Descends (img.sb csum fresh) key n := by
  have hnodes : ∀ b m, (img.sb csum fresh).nodes b = some m → m.AllPages ∧ m.block = b := fun b m hm =>
    Image.allPages hm
  constructor
  · rintro ⟨bound, hsafe⟩
    obtain ⟨r, hr⟩ := hsafe bound le_rfl
    have hlt : root < img.nrBlocks := by
      by_contra hge
      have hcreate := (btreeCreate_given h0).trans
        (run_bind_error (nodeRead_bug (s := img.sb csum fresh) (Or.inr (not_lt.mp hge))))
      rw [lookupAt, run_bind_error hcreate] at hr
      cases hr
    refine ⟨hlt, fun n hn => ?_⟩
    obtain ⟨hp, hb⟩ := hnodes root n hn
    rw [lookupAt_run h0 hlt hn hb] at hr
    obtain ⟨r', s', hrun, -⟩ := run_bind_inv hr
    exact descends_of_returns hp hnodes hrun
  · rintro ⟨hlt, hdesc⟩
    cases hn : img.node csum fresh root with
    | some n => exact (hdesc n hn).lookup h0 hlt hn hnodes
    | none =>
      -- the tree cannot be created
      refine ⟨0, fun fuel _ => ⟨none, ?_⟩⟩
      have hrange : ¬ (root = 0 ∨ root ≥ (img.sb csum fresh).env.nrBlocks) := not_or.mpr ⟨h0, not_le.mpr hlt⟩
      have hcreate := (btreeCreate_given h0).trans (run_bind_ok (nodeRead_null hrange hn))
      rw [lookupAt, run_bind_ok hcreate]
      rfl

/-! ### An image that is not safe -/

/-- An interior node with one key, every slot zero. -/
def zeroRoot : MemNode := { emptyLeaf with leaf := 0, nrKeys := 1 }

/-- A device whose block 1 is a node as `nkfs_btree_node_write` writes it. -/
def oneNode (csum : List UInt8 → UInt64) (m : MemNode) : Image where
  nrBlocks := 2
  clu b := if b = 1 then some (NodeFormat.nodeWrite csum m fun _ => 0) else none

/-- A node without bytes in its shared pages is read as it was written. -/
lemma oneNode_read (csum : List UInt8 → UInt64) (fresh m : MemNode) (hnr : m.nrKeys.toNat ≤ 2 * btreeT - 1)
    (hagree : SharedPagesAgree m) : ∃ n, (oneNode csum m).node csum fresh 1 = some n ∧ n.leaf = (m.leaf != 0) ∧
      n.nrKeys = m.nrKeys.toNat ∧ (∀ i < m.nrKeys.toNat, n.key i = keyOfSlot m i) ∧
      (m.leaf = 0 → ∀ i ≤ m.nrKeys.toNat, n.child i = m.child i) := by
  obtain ⟨m', hread, hleaf, hkeys, hslots, hchildren⟩ :=
    roundTrips_of_sharedPagesAgree csum m fresh (fun _ => 0) hnr hagree
  refine ⟨nodeOfMem 1 m', ?_, ?_, ?_, fun i hi => ?_, hchildren⟩
  · show (do let m ← NodeFormat.nodeRead csum fresh (NodeFormat.nodeWrite csum m fun _ => 0); return nodeOfMem 1 m) = _
    rw [hread]
    rfl
  · rw [nodeOfMem, hleaf]
  · rw [nodeOfMem, hkeys]
  · exact Subtype.ext (congrArg (List.map _) (hslots i hi).1)

/-- A lookup in an empty leaf is safe. -/
theorem lookup_safe_iff_emptyLeaf : LookupSafe (fun _ => 0) emptyLeaf (oneNode (fun _ => 0) emptyLeaf) 1 Key.zero := by
  refine (lookup_safe_iff _ _ _ _ one_ne_zero).mpr ⟨by decide, fun n hn => .empty ?_⟩
  obtain ⟨n', hn', -, hnr, -⟩ := oneNode_read (fun _ => 0) emptyLeaf emptyLeaf (by decide) fun _ _ _ _ => rfl
  obtain rfl : n' = n := Option.some.inj (hn'.symm.trans hn)
  exact hnr

/-- Whatever the checksum, the interior node with one key and zero child numbers verifies, and a lookup of
another key enters block 0. -/
theorem not_lookup_safe : ¬ ∃ (csum : List UInt8 → UInt64) (fresh : MemNode),
    ∀ (img : Image) (root : ℕ) (key : Key), root ≠ 0 → LookupSafe csum fresh img root key := by
  rintro ⟨csum, fresh, hall⟩
  obtain ⟨n, hn, hleaf, hnr, hkey, hchild⟩ := oneNode_read csum fresh zeroRoot (by decide) fun _ _ _ _ => rfl
  have hnr : n.nrKeys = 1 := hnr
  obtain ⟨bound, hsafe⟩ := hall (oneNode csum zeroRoot) 1 (keyByU64 1) one_ne_zero
  obtain ⟨r, hr⟩ := hsafe bound le_rfl
  have hlt : 1 < ((oneNode csum zeroRoot).sb csum fresh).env.nrBlocks := Nat.one_lt_two
  have hnode : ((oneNode csum zeroRoot).sb csum fresh).nodes 1 = some n := hn
  obtain ⟨hp, hb⟩ := Image.allPages hnode
  rw [lookupAt_run one_ne_zero hlt hn hb] at hr
  obtain ⟨r', s', hrun, -⟩ := run_bind_inv hr
  obtain ⟨i, hi, hindex⟩ := findKeyIndex_total (keyByU64 1) (n := n) (by rw [hnr]; decide)
  have hslots : zeroRoot.nrKeys.toNat = 1 := rfl
  cases descends_of_returns hp (fun b m hm => Image.allPages hm) hrun with
  | empty h0 => exact absurd (hnr.symm.trans h0) one_ne_zero
  | last _ hindex' hend =>
    rcases hend with ⟨hlt, hfound⟩ | hend
    · obtain rfl : i = 0 := by
        cases hindex.symm.trans hindex'
        omega
      cases hindex.symm.trans hindex'
      exact absurd ((hkey 0 Nat.one_pos).symm.trans hfound) (by decide)
    · rw [hleaf] at hend
      exact absurd hend (by decide)
  | down _ hindex' hne =>
    cases hindex.symm.trans hindex'
    have hzero : zeroRoot.child i = 0 := by simp [MemNode.child, zeroRoot, emptyLeaf, loadLe]
    exact hne ((hchild rfl i (hi.trans hnr.le)).trans hzero)

end Nkfs
