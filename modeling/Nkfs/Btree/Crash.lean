import Nkfs.Btree.HeapInsert
import Nkfs.Btree.Map

/-!
# Insertion cut short

What a lookup finds on the device when an insertion stopped after some of its node writes. A root split fills both
halves before it writes the root, so every prefix of its writes shows the old tree or the new one. A split further
down writes the parent first: for a moment the device has a separator whose right child is still the empty node of
`nkfs_btree_node_create`, and every key of the upper half is gone. So an insertion is safe exactly when no child on
its way is full (`PathRoom`).
-/

namespace Nkfs.Refs

open Lib.Program Lib.Slots Lib.Assoc List

/-! ### The device after a crash -/

/-- The superblock state in which the nodes are `d`. Lookups do not consult the bitmap. -/
def onDisk (s : Sb) (d : ℕ → Option Node) : Sb := { s with nodes := d, bm := fun _ => true }

/-- A lookup from the root block `b` over the nodes `d` finds all pairs of `es`; for the key `k` it may find `v`. -/
def KeepsKeys (s : Sb) (b : ℕ) (es : List (Key × ℕ)) (k : Key) (v : ℕ) (d : ℕ → Option Node) : Prop :=
  ∀ key value, find es key = some value → ∃ found s',
    Nkfs.findKey ⟨b, false⟩ key (onDisk s d) = .ok (.ok found, s') ∧ (found = value ∨ key = k ∧ found = v)

/-- An insertion returns, and after any number of its writes the device keeps the pairs of `es`. -/
def CrashSafe (c : Heap) (t : TreeObj) (b : ℕ) (es : List (Key × ℕ)) (k : Key) (v : ℕ) (replace : Bool) : Prop :=
  Runs (insertKey t k v replace) c fun _ c' =>
    ∀ j, KeepsKeys c.sb b es k v (writeAll c.dev (c'.log.take (c.log.length + j)))

/-- On the way of `k` down the `h` levels below the node `n` no child is full. -/
def PathRoom (nodes : ℕ → Option Node) (k : Key) : ℕ → Node → Prop
  | 0, _ => True
  | h + 1, n => (∀ j < n.nrKeys, n.key j ≠ k) → ∀ i, n.IsRank k i → ∀ c, nodes (n.child i) = some c →
      c.nrKeys < 2 * btreeT - 1 ∧ PathRoom nodes k h c

/-- The root is a leaf or has a key, and no child on the way of `k` is full. -/
def Clear (s : Sb) (k : Key) (h b : ℕ) : Prop :=
  ∀ n, s.nodes b = some n → (h = 0 ∨ 1 ≤ n.nrKeys) ∧ PathRoom s.nodes k h n

section disk

variable {s s' : Sb} {d : ℕ → Option Node} {b h v : ℕ} {es es' : List (Key × ℕ)} {bs : List ℕ} {k : Key}

/-- A tree on the device. -/
lemma IsTree.onDisk {strict : Bool} (ht : IsTree s' strict b h es bs) (henv : s'.env = s.env)
    (hd : ∀ x ∈ bs, d x = s'.nodes x) : IsTree (onDisk s d) strict b h es bs := by
  have hagree : ∀ x ∈ blocks s'.nodes h b, d x = s'.nodes x := fun x hx => hd x (ht.blocks_eq ▸ hx)
  obtain ⟨hent, hblk, hshape⟩ := subtree_congr hagree
  refine ⟨ht.pos, ⟨hshape _ ht.sub.shape, ?_, ?_, ?_⟩, hent.trans ht.entries_eq, hblk.trans ht.blocks_eq, rfl⟩
  · exact hent.symm ▸ ht.sub.sorted
  · exact hblk.symm ▸ ht.sub.nodup
  · intro x hx
    have ho := ht.sub.owned x (hblk ▸ hx)
    exact ⟨rfl, ho.ne_zero, henv ▸ ho.lt⟩

/-- A device with a tree that holds the old pairs, or those with `(k, v)` put, keeps the old pairs. -/
lemma IsTree.keepsKeys (ht : IsTree s' true b h es' bs) (henv : s'.env = s.env)
    (hd : ∀ x ∈ bs, d x = s'.nodes x) (hes : es' = es ∨ es' = put k v es) : KeepsKeys s b es k v d := by
  intro key value hfind
  have hrun := findKey_run (t := ⟨b, false⟩) rfl (IsTree.onDisk ht henv hd) key
  rcases hes with rfl | rfl
  · rw [hfind] at hrun
    exact ⟨value, _, hrun, .inl rfl⟩
  · by_cases hk : key = k
    · rw [find_put, if_pos hk] at hrun
      exact ⟨v, _, hrun, .inr ⟨hk, rfl⟩⟩
    · rw [find_put, if_neg hk, hfind] at hrun
      exact ⟨value, _, hrun, .inl rfl⟩

lemma writeAll_of_ne {ws : List Node} {x : ℕ} : (∀ m ∈ ws, m.block ≠ x) → writeAll d ws x = d x := by
  induction ws generalizing d with
  | nil => exact fun _ => rfl
  | cons m ws ih =>
    intro hne
    refine (ih fun m' hm' => hne m' (mem_cons_of_mem _ hm')).trans ?_
    exact Function.update_of_ne (hne m (mem_cons_self ..)).symm ..

/-- Writes to free blocks leave a tree alone. -/
lemma Sub.writeAll_eq {lo : ℕ} (ht : Sub s lo h b) {ws : List Node} (hfree : ∀ m ∈ ws, s.bm m.block = false) :
    ∀ x ∈ blocks s.nodes h b, writeAll s.nodes ws x = s.nodes x := by
  intro x hx
  refine writeAll_of_ne fun m hm hmx => ?_
  have hbm := hfree m hm
  rw [hmx, (ht.owned x hx).marked] at hbm
  cases hbm

end disk

/-! ### Insertions that split no child -/

section room

variable {s s' s₁ : Sb} {n root : Node} {lo h b v x w : ℕ} {k : Key} {replace : Bool} {ws : List Node}
  {r : Except Errno Unit} {es : List (Key × ℕ)}

/-- Such an insertion writes one node or fails without a write. -/
lemma Insertion.single (hins : Insertion k v replace s h b n ws r s') :
    PathRoom s.nodes k h n → ws = [] ∨ r = .ok () ∧ ∃ m, ws = [m] := by
  induction hins with
  | found => exact fun _ => .inl rfl
  | replaced => exact fun _ => .inr ⟨rfl, _, rfl⟩
  | leaf => exact fun _ => .inr ⟨rfl, _, rfl⟩
  | down habs hi hc _ _ ih => exact fun hroom => ih (hroom habs _ hi _ hc).2
  | refused => exact fun _ => .inl rfl
  | split habs hi hc hfull =>
    intro hroom
    exact absurd (hroom habs _ hi _ hc).1 hfull.ge.not_gt

/-- The subtree of a node that is a leaf or has a key is a tree to look up in. -/
lemma Sub.strict (ht : Sub s lo (h + 1) b) (hlo : h = 0 ∨ 1 ≤ lo) : Sub s (rootLo true (h + 1)) (h + 1) b := by
  obtain ⟨n, hb, hok, hkids⟩ := ht.shape
  refine ⟨⟨n, hb, { hok with lo_le := ?_ }, hkids⟩, ht.sorted, ht.nodup, ht.owned⟩
  unfold rootLo
  split_ifs with h0
  · rcases hlo with rfl | hlo
    · exact absurd rfl h0.2
    · exact hlo.trans hok.lo_le
  · exact Nat.zero_le _

/-- Every prefix of its writes shows the tree before or the tree after. -/
lemma Insertion.keepsKeys (hins : Insertion k v replace s h b n ws r s') (ht : Sub s lo (h + 1) b)
    (hz : s.bm 0 = true) (hb : s.nodes b = some n) (hlo : h = 0 ∨ 1 ≤ lo) (hroom : PathRoom s.nodes k h n)
    {s₀ : Sb} (henv : s.env = s₀.env) (hes : entries s.nodes (h + 1) b = es) (j : ℕ) :
    KeepsKeys s₀ b es k v (writeAll s.nodes (ws.take j)) := by
  have hold : KeepsKeys s₀ b es k v s.nodes :=
    IsTree.keepsKeys ⟨h.succ_pos, Sub.strict ht hlo, rfl, rfl, hz⟩ henv (fun _ _ => rfl) (.inl hes)
  rcases hins.single hroom with rfl | ⟨rfl, m, rfl⟩
  · rw [take_nil]
    exact hold
  · cases j with
    | zero => exact hold
    | succ j =>
      obtain ⟨fresh, hgrow, hput⟩ := hins.put ht hz hb
      rw [take_succ_cons, take_nil, ← hins.nodes_eq rfl]
      refine IsTree.keepsKeys ⟨h.succ_pos, Sub.strict hgrow.sub hlo, rfl, rfl, hgrow.step.marked hz⟩
        (hgrow.step.env.trans henv) (fun _ _ => rfl) (.inr ?_)
      rw [← hes]
      exact hput.1

/-! ### The way down before and after a root split -/

lemma PathRoom.of_present {d : ℕ → Option Node} {j : ℕ} (hj : j < n.nrKeys) (hk : n.key j = k) :
    PathRoom d k h n := by
  cases h with
  | zero => trivial
  | succ h => exact fun habs => absurd hk (habs j hj)

lemma pathRoom_succ {d : ℕ → Option Node} {i : ℕ} {m : Node} (habs : ∀ j < n.nrKeys, n.key j ≠ k)
    (hi : n.IsRank k i) (hm : d (n.child i) = some m) :
    PathRoom d k (h + 1) n ↔ m.nrKeys < 2 * btreeT - 1 ∧ PathRoom d k h m := by
  refine ⟨fun hroom => hroom habs i hi m hm, fun hroom _ j hj m' hm' => ?_⟩
  rw [← hi.unique hj, hm, Option.some.injEq] at hm'
  exact hm' ▸ hroom

/-- The way down depends on the blocks below the node only. -/
lemma pathRoom_congr {d d' : ℕ → Option Node} : ∀ {h : ℕ} {n : Node},
    (∀ i ≤ n.nrKeys, ∀ x ∈ blocks d h (n.child i), d' x = d x) → (PathRoom d' k h n ↔ PathRoom d k h n)
  | 0, _, _ => Iff.rfl
  | h + 1, n, hagree => by
    refine forall_congr' fun _ => forall_congr' fun i => forall_congr' fun hi => forall_congr' fun m => ?_
    rw [hagree i hi.le _ mem_blocks_self]
    refine forall_congr' fun hm => and_congr_right fun _ => pathRoom_congr fun j hj x hx => ?_
    exact hagree i hi.le x (mem_blocks_child hm hj hx)

/-- A node that holds the part of `n` around `k`, from `o` on, leads the same way. -/
lemma pathRoom_window {d : ℕ → Option Node} {m : Node} {o : ℕ} (hnr : o + m.nrKeys ≤ n.nrKeys)
    (hkey : ∀ j < m.nrKeys, m.key j = n.key (j + o)) (hchild : ∀ j ≤ m.nrKeys, m.child j = n.child (j + o))
    (hbelow : ∀ j < o, n.key j < k) (habove : ∀ j, o + m.nrKeys ≤ j → j < n.nrKeys → k < n.key j) :
    PathRoom d k (h + 1) m ↔ PathRoom d k (h + 1) n := by
  constructor
  · intro hroom habs i hi
    have hoff : o ≤ i := by
      by_contra hlt
      rw [not_le] at hlt
      exact (hi.above i le_rfl (by omega)).not_gt (hbelow i hlt)
    have hend : i - o ≤ m.nrKeys := by
      by_contra hlt
      rw [not_le] at hlt
      have hle := hi.le
      exact (hi.below (o + m.nrKeys) (by omega)).not_gt (habove _ le_rfl (by omega))
    have hrank : m.IsRank k (i - o) := by
      refine ⟨hend, fun j hj => ?_, fun j hij hj => ?_⟩
      · rw [hkey j (by omega)]
        exact hi.below _ (by omega)
      · rw [hkey j hj]
        exact hi.above _ (by omega) (by omega)
    have hroom' := hroom (fun j hj => hkey j hj ▸ habs _ (by omega)) (i - o) hrank
    rw [hchild _ hend, Nat.sub_add_cancel hoff] at hroom'
    exact hroom'
  · intro hroom habs i hi
    have hle := hi.le
    rw [hchild i hle]
    refine hroom (fun j hj => ?_) (i + o) ⟨by omega, fun j hj => ?_, fun j hij hj => ?_⟩
    · rcases lt_or_ge j o with hlt | hge
      · exact (hbelow j hlt).ne
      · rcases lt_or_ge j (o + m.nrKeys) with hin | hout
        · have hne := habs (j - o) (by omega)
          rwa [hkey _ (by omega), Nat.sub_add_cancel hge] at hne
        · exact (habove j hout hj).ne'
    · rcases lt_or_ge j o with hlt | hge
      · exact hbelow j hlt
      · have hlt := hi.below (j - o) (by omega)
        rwa [hkey _ (by omega), Nat.sub_add_cancel hge] at hlt
    · rcases lt_or_ge j (o + m.nrKeys) with hin | hout
      · have hle := hi.above (j - o) (by omega) (by omega)
        rwa [hkey _ (by omega), Nat.sub_add_cancel (by omega)] at hle
      · exact (habove j hout hj).le

lemma RootSplit.free (hsplit : RootSplit s s₁ h b n root x w) : s.bm x = false ∧ s.bm w = false :=
  ⟨(hsplit.shape.step.free x (mem_cons_of_mem _ (mem_singleton_self x))).1,
    (hsplit.shape.step.free w (mem_cons_self ..)).1⟩

/-- A root split writes new nodes and the root, the root last. -/
lemma mem_rootWrites {m : Node} (hm : m ∈ rootWrites n root x w) : m.block = x ∨ m.block = w ∨ m = root := by
  simp only [rootWrites, mem_cons, not_mem_nil, or_false] at hm
  rcases hm with rfl | rfl | rfl | rfl | rfl
  · exact .inl rfl
  · exact .inr (.inl rfl)
  · exact .inl rfl
  · exact .inr (.inl rfl)
  · exact .inr (.inr rfl)

/-- The blocks below a root are untouched by its split. -/
lemma RootSplit.below (hsplit : RootSplit s s₁ h b n root x w) (ht : Sub s lo (h + 1) b)
    (hb : s.nodes b = some n) : ∀ i ≤ n.nrKeys, ∀ y ∈ blocks s.nodes h (n.child i), s₁.nodes y = s.nodes y := by
  intro i hi y hy
  have hown := ht.owned y (mem_blocks_child hb hi hy)
  have hne : ∀ {z : ℕ}, s.bm z = false → z ≠ y := by
    rintro z hz rfl
    rw [hown.marked] at hz
    cases hz
  rw [hsplit.nodes]
  refine writeAll_of_ne fun m hm => ?_
  rcases mem_rootWrites hm with hm | hm | rfl
  · exact hm ▸ hne hsplit.free.1
  · exact hm ▸ hne hsplit.free.2
  · rw [hsplit.above.block]
    exact fun h => ht.notMem_child hb hi (h ▸ hy)

/-- A root split leaves the way of a key as it was: the halves have room, and below them nothing changed. -/
lemma RootSplit.pathRoom (hsplit : RootSplit s s₁ h b n root x w) (ht : Sub s lo (h + 1) b)
    (hb : s.nodes b = some n) (hfull : n.nrKeys = 2 * btreeT - 1) :
    PathRoom s₁.nodes k (h + 1) root ↔ PathRoom s.nodes k h n := by
  have hT : btreeT = 896 := rfl
  have hinc := increasing_of_sorted (ht.sorted_inorder hb)
  have hh := halves_cloneRoot (c := x) (w := w) (ht.nodeOk hb) hfull
  have hroot : root.key 0 = n.key (btreeT - 1) := congrArg Prod.fst hsplit.above.kv
  have hone := hsplit.above.nrKeys
  have hzero : ∀ {j : ℕ}, j < root.nrKeys → j = 0 := fun hj => by omega
  rw [← pathRoom_congr (hsplit.below ht hb)]
  rcases lt_trichotomy k (n.key (btreeT - 1)) with hlt | rfl | hgt
  · have hrank : root.IsRank k 0 :=
      ⟨Nat.zero_le _, fun j hj => absurd hj j.not_lt_zero, fun j _ hj => hzero hj ▸ hroot ▸ hlt.le⟩
    rw [pathRoom_succ (fun j hj => hzero hj ▸ hroot ▸ hlt.ne') hrank (hsplit.above.left.symm ▸ hsplit.lower)]
    refine (and_iff_right (show btreeT - 1 < _ by omega)).trans ?_
    cases h with
    | zero => exact Iff.rfl
    | succ h =>
      refine pathRoom_window (o := 0) (show 0 + (btreeT - 1) ≤ _ by omega)
        (fun j hj => congrArg Prod.fst (hh.lowerKv j hj)) (fun j hj => hh.lowerChild j ?_)
        (fun j hj => absurd hj j.not_lt_zero) fun j hj hj' => ?_
      · have : j ≤ btreeT - 1 := hj
        omega
      · have hle : 0 + (btreeT - 1) ≤ j := hj
        rcases hle.lt_or_eq with hjT | rfl
        · exact hlt.trans (hinc _ _ (by omega) hj')
        · exact (zero_add (btreeT - 1)).symm ▸ hlt
  · exact iff_of_true (.of_present (hone ▸ one_pos) hroot) (.of_present (by omega) rfl)
  · have hrank : root.IsRank k 1 :=
      ⟨hone.ge, fun j hj => Nat.lt_one_iff.mp hj ▸ hroot ▸ hgt, fun j hj hj' => absurd (hzero hj') (by omega)⟩
    rw [pathRoom_succ (fun j hj => hzero hj ▸ hroot ▸ hgt.ne) hrank (hsplit.above.right.symm ▸ hsplit.upper)]
    refine (and_iff_right (show btreeT - 1 < _ by omega)).trans ?_
    cases h with
    | zero => exact Iff.rfl
    | succ h =>
      refine pathRoom_window (o := btreeT) (show btreeT + (btreeT - 1) ≤ _ by omega)
        (fun j hj => congrArg Prod.fst (hh.upperKv j hj))
        (fun j hj => hh.upperChild h.succ_ne_zero j ?_) (fun j hj => ?_) fun j hj hj' => ?_
      · have : j ≤ btreeT - 1 := hj
        omega
      · rcases (Nat.le_sub_one_of_lt hj).lt_or_eq with hjT | rfl
        · exact (hinc _ _ hjT (by omega)).trans hgt
        · exact hgt
      · have : btreeT + (btreeT - 1) ≤ j := hj
        omega

/-! ### Every prefix of the writes -/

/-- Writes to free blocks do not matter to a lookup. -/
lemma Sub.keepsKeys (ht : Sub s lo (h + 1) b) (hz : s.bm 0 = true) (hlo : h = 0 ∨ 1 ≤ lo)
    (hfree : ∀ m ∈ ws, s.bm m.block = false) : KeepsKeys s b (entries s.nodes (h + 1) b) k v (writeAll s.nodes ws) :=
  IsTree.keepsKeys ⟨h.succ_pos, Sub.strict ht hlo, rfl, rfl, hz⟩ rfl (Sub.writeAll_eq ht hfree) (.inl rfl)

/-- The first four writes of a root split are to new blocks. -/
lemma RootSplit.free_of_mem_take (hsplit : RootSplit s s₁ h b n root x w) {j : ℕ} (hj : j < 5) {m : Node}
    (hm : m ∈ (rootWrites n root x w ++ ws).take j) : s.bm m.block = false := by
  rw [take_append_of_le_length (show j ≤ 5 by omega)] at hm
  have hm₄ : m ∈ (rootWrites n root x w).take 4 := (take_sublist_take_left (by omega)).subset hm
  simp only [rootWrites, take_succ_cons, take_zero, mem_cons, not_mem_nil, or_false] at hm₄
  rcases hm₄ with rfl | rfl | rfl | rfl
  · exact hsplit.free.1
  · exact hsplit.free.2
  · exact hsplit.free.1
  · exact hsplit.free.2

/-- The writes after those of a root split. -/
lemma RootSplit.writeAll_take (hsplit : RootSplit s s₁ h b n root x w) (ws : List Node) (j : ℕ) :
    writeAll s.nodes ((rootWrites n root x w ++ ws).take (5 + j)) = writeAll s₁.nodes (ws.take j) := by
  rw [show 5 = (rootWrites n root x w).length from rfl, take_length_add_append, writeAll_append, hsplit.nodes]

/-- **A way with room.** After any number of writes a lookup finds every old pair. -/
theorem KeyInsertion.keepsKeys (hins : KeyInsertion k v replace s h b n ws r s') (ht : Sub s lo (h + 1) b)
    (hz : s.bm 0 = true) (hb : s.nodes b = some n) (hlo : h = 0 ∨ 1 ≤ lo) (hroom : PathRoom s.nodes k h n) (j : ℕ) :
    KeepsKeys s b (entries s.nodes (h + 1) b) k v (writeAll s.nodes (ws.take j)) := by
  cases hins with
  | direct hlt hins => exact hins.keepsKeys ht hz hb hlo hroom rfl rfl j
  | grown hfull hsplit hins =>
    rcases lt_or_ge j 5 with hj | hj
    · exact Sub.keepsKeys ht hz hlo fun m hm => hsplit.free_of_mem_take hj hm
    · obtain ⟨j, rfl⟩ := Nat.exists_eq_add_of_le hj
      rw [hsplit.writeAll_take]
      have hstep := hsplit.shape.step
      exact hins.keepsKeys hsplit.shape.sub (hstep.marked hz) hsplit.stored (.inr le_rfl)
        ((hsplit.pathRoom ht hb hfull).mpr hroom) hstep.env hsplit.shape.entries_eq j
  | refused hfull hst hfree => exact Sub.keepsKeys ht hz hlo fun m hm => hfree m (List.mem_of_mem_take hm)

end room

/-! ### Insertions that split a child -/

section loss

variable {s s' z : Sb} {n m : Node} {lo h b i v fuel : ℕ} {k key : Key} {replace : Bool} {ws : List Node}
  {r : Except Errno Unit}

/-- The way to a pair below child `i` leads through child `i`. -/
lemma Sub.rank_of_mem (ht : Sub s lo (h + 1) b) (hb : s.nodes b = some n) (hi : i ≤ n.nrKeys) {x : Key × ℕ}
    (hx : x ∈ entries s.nodes h (n.child i)) : n.IsRank x.1 i ∧ ∀ j < n.nrKeys, n.key j ≠ x.1 := by
  have hs := ht.sorted_inorder hb
  have hleft : ∀ j < i, n.key j < x.1 := by
    rw [inorder_split hi, append_assoc, sorted_append] at hs
    intro j hj
    exact hs.2.2 _ (mem_upto.mpr ⟨j, hj, .inr (mem_singleton_self _)⟩) _ (mem_append_left _ hx)
  have hright : ∀ j, i ≤ j → j < n.nrKeys → x.1 < n.key j := by
    intro j hij hj
    refine below_of_sorted hs hj x ?_
    rcases hij.lt_or_eq with hlt | rfl
    · exact mem_append_left _ (mem_upto.mpr ⟨i, hlt, .inl hx⟩)
    · exact mem_append_right _ hx
  refine ⟨⟨hi, hleft, fun j hij hj => (hright j hij hj).le⟩, fun j hj => ?_⟩
  rcases lt_or_ge j i with hlt | hge
  · exact (hleft j hlt).ne
  · exact (hright j hge hj).ne'

lemma nodeFindKey_empty (hn : n.nrKeys = 0) : Nkfs.nodeFindKey key (fuel + 1) n z = .ok (none, z) := by
  rw [Nkfs.nodeFindKey, if_pos hn]
  rfl

/-- One level of a lookup. -/
lemma nodeFindKey_down (hok : NodeOk n lo (h + 1) b) (hinc : n.Increasing) (hn : n.nrKeys ≠ 0)
    (hr : n.IsRank key i) (habs : ∀ j < n.nrKeys, n.key j ≠ key) (ho : z.Owned (n.child i))
    (hm : z.nodes (n.child i) = some m) (hmb : m.block = n.child i) :
    Nkfs.nodeFindKey key (fuel + 1) n z = Nkfs.nodeFindKey key fuel m z := by
  obtain ⟨i', hi', hr'⟩ := findKeyIndex_spec hinc hok.nrKeys_lt_keySlots.le key
  obtain rfl := hr.unique hr'
  have hget := getChildVal_eq hok.pages (hr.le.trans_lt (Nat.lt_of_succ_lt hok.nrKeys_lt_childSlots))
  rw [Nkfs.nodeFindKey, if_neg hn, run_bind_ok (run_lift hi'), run_bind_ok (run_lift (isKeyAt_eq hok.nrKeys_lt_keySlots.le)),
    decide_eq_false (fun hit => habs i hit.1 hit.2), if_neg Bool.false_ne_true, hok.leaf,
    decide_eq_false h.succ_ne_zero, if_neg Bool.false_ne_true, run_bind_ok (run_lift hget),
    run_bind_ok (Nkfs.nodeRead_run ho hm hmb)]

/-- An insertion writes to its subtree and to free blocks. -/
lemma Insertion.written (hins : Insertion k v replace s h b n ws r s') : ∀ {lo : ℕ}, Sub s lo (h + 1) b →
    s.bm 0 = true → s.nodes b = some n → ∀ m ∈ ws, m.block ∈ blocks s.nodes (h + 1) b ∨ s.bm m.block = false := by
  induction hins with
  | found => exact fun _ _ _ m hm => absurd hm not_mem_nil
  | replaced hi hk hr =>
    intro lo ht hz hb m hm
    rw [mem_singleton.mp hm]
    exact .inl ((ht.nodeOk hb).block.symm ▸ mem_blocks_self)
  | leaf habs hi hn =>
    intro lo ht hz hb m hm
    rw [mem_singleton.mp hm]
    exact .inl ((ht.nodeOk hb).block.symm ▸ mem_blocks_self)
  | down habs hi hc hlt hrest ih =>
    intro lo ht hz hb m hm
    exact (ih (ht.child hb hi.le) hz hc m hm).imp_left (mem_blocks_child hb hi.le)
  | refused => exact fun _ _ _ m hm => absurd hm not_mem_nil
  | @split s s₁ s' h b i w n c ws r habs hi hc hfull hn hcr hrest ih =>
    intro lo ht hz hb m hm
    have hfree := (hcr.step.free w (mem_singleton_self w)).1
    rcases mem_append.mp hm with hm | hm
    · simp only [splitWrites, mem_cons, not_mem_nil, or_false] at hm
      rcases hm with rfl | rfl | rfl | rfl
      · exact .inr hfree
      · exact .inl ((ht.nodeOk hb).block.symm ▸ mem_blocks_self)
      · refine .inl (mem_blocks_child hb hi.le ?_)
        exact ((ht.child hb hi.le).nodeOk hc).block.symm ▸ mem_blocks_self
      · exact .inr hfree
    · obtain ⟨hre, hb', -, -⟩ := Reshape.splitDone ht hz hb hn hi.le hc hfull hcr.step hcr.fails
      rcases ih hre.sub (hre.step.marked hz) hb' m hm with hmem | hbm
      · rcases mem_append.mp (hre.perm.mem_iff.mp hmem) with hw | hmem
        · rw [mem_singleton.mp hw]
          exact .inr hfree
        · exact .inl hmem
      · by_contra hnot
        rw [not_or, Bool.not_eq_false] at hnot
        exact absurd (hre.step.marked hnot.2) (hbm ▸ Bool.false_ne_true)

/-- A pair of the subtree of height `h + 1` at `b` that a lookup over the nodes `d` does not find. -/
def Missing (s : Sb) (d : ℕ → Option Node) (h b : ℕ) (x : Key × ℕ) : Prop :=
  x ∈ entries s.nodes (h + 1) b ∧ ∃ n, d b = some n ∧ ∀ s₀ : Sb, s₀.env = s.env → ∀ fuel, h < fuel →
    Nkfs.nodeFindKey x.1 fuel n (onDisk s₀ d) = .ok (none, onDisk s₀ d)

/-- **The second write of a split.** The upper half of the child can no longer be found. -/
theorem missing_split {s₁ : Sb} {w : ℕ} (ht : Sub s lo (h + 2) b) (hz : s.bm 0 = true) (hb : s.nodes b = some n)
    (hn : n.nrKeys < 2 * btreeT - 1) (hi : i ≤ n.nrKeys) (hm : s.nodes (n.child i) = some m)
    (hfull : m.nrKeys = 2 * btreeT - 1) (hcr : Created s s₁ w) :
    Missing s (writeAll s.nodes ((splitWrites n m i w).take 2)) (h + 1) b (m.kv btreeT) := by
  have hT : btreeT = 896 := rfl
  have hnb : (splitNode n m i (zeroAt w)).block = b := (ht.nodeOk hb).block
  have hmok := (ht.child hb hi).nodeOk hm
  obtain ⟨hre, hb', -, hw'⟩ : Reshape s (s₁.splitDone n m i (zeroAt w)) lo (h + 2) (h + 2) b [w] ∧
      (s₁.splitDone n m i (zeroAt w)).nodes b = some (splitNode n m i (zeroAt w)) ∧ _ ∧
      (s₁.splitDone n m i (zeroAt w)).nodes (zeroAt w).block = some (splitNew m (zeroAt w)) :=
    Reshape.splitDone ht hz hb hn hi hm hfull hcr.step hcr.fails
  obtain ⟨hfree, hlt⟩ := hcr.step.free w (List.mem_singleton_self w)
  have hwb : w ≠ (splitNode n m i (zeroAt w)).block := by
    intro hw
    have hmarked := (ht.owned b mem_blocks_self).marked
    rw [← hnb, ← hw, hfree] at hmarked
    cases hmarked
  -- the first key of the upper half, and the way to it once the split is done
  have hx : m.kv btreeT ∈ entries (s₁.splitDone n m i (zeroAt w)).nodes (h + 1)
      ((splitNode n m i (zeroAt w)).child (i + 1)) := by
    rw [splitNode_child_new, entries_succ hw']
    refine mem_inorder.mpr (.inr ⟨0, show 0 < btreeT - 1 by omega, List.mem_singleton.mpr ?_⟩)
    exact ((halves_splitNew (w := w) hmok hfull).upperKv 0 (by omega)).symm.trans rfl
  obtain ⟨hr, habs⟩ := Sub.rank_of_mem hre.sub hb' (show i + 1 ≤ n.nrKeys + 1 by omega) hx
  refine ⟨?_, splitNode n m i (zeroAt w), ?_, fun s₀ henv fuel hf => ?_⟩
  · rw [entries_succ hb]
    refine mem_inorder.mpr (.inl ⟨i, hi, ?_⟩)
    rw [entries_succ hm]
    exact mem_inorder.mpr (.inr ⟨btreeT, by omega, List.mem_singleton_self _⟩)
  · show Function.update _ _ _ b = _
    rw [hnb, Function.update_self]
  · obtain ⟨fuel, rfl⟩ : ∃ f, fuel = f + 2 := ⟨fuel - 2, by omega⟩
    rw [nodeFindKey_down (m := zeroAt w) (hre.sub.nodeOk hb') (increasing_of_sorted (hre.sub.sorted_inorder hb'))
      (Nat.succ_ne_zero _) hr habs ?_ ?_ splitNode_child_new.symm]
    · exact nodeFindKey_empty rfl
    · rw [splitNode_child_new]
      refine ⟨rfl, ?_, henv ▸ hlt⟩
      rintro rfl
      rw [hz] at hfree
      cases hfree
    · rw [splitNode_child_new]
      show Function.update (Function.update _ _ _) _ _ w = _
      rw [Function.update_of_ne hwb]
      exact Function.update_self ..

/-- What is missing below a child is missing in the tree. -/
lemma Missing.child {d : ℕ → Option Node} {x : Key × ℕ} (ht : Sub s lo (h + 2) b) (hb : s.nodes b = some n)
    (hi : i ≤ n.nrKeys) (hdb : d b = some n) (hd : ∀ m, d (n.child i) = some m → m.block = n.child i)
    (hmiss : Missing s d h (n.child i) x) : Missing s d (h + 1) b x := by
  obtain ⟨hx, m, hm, hrun⟩ := hmiss
  obtain ⟨hr, habs⟩ := Sub.rank_of_mem ht hb hi hx
  refine ⟨?_, n, hdb, fun s₀ henv fuel hf => ?_⟩
  · rw [entries_succ hb]
    exact mem_inorder.mpr (.inl ⟨i, hi, hx⟩)
  · obtain ⟨fuel, rfl⟩ : ∃ f, fuel = f + 1 := ⟨fuel - 1, by omega⟩
    by_cases hn : n.nrKeys = 0
    · exact nodeFindKey_empty hn
    · have ho := (ht.child hb hi).owned _ mem_blocks_self
      rw [nodeFindKey_down (ht.nodeOk hb) (increasing_of_sorted (ht.sorted_inorder hb)) hn hr habs
        ⟨rfl, ho.ne_zero, henv ▸ ho.lt⟩ hm (hd m hm)]
      exact hrun s₀ henv fuel (by omega)

lemma writeAll_block {d : ℕ → Option Node} {x : ℕ} (hd : ∀ m, d x = some m → m.block = x) :
    ∀ m, writeAll d ws x = some m → m.block = x := by
  induction ws generalizing d with
  | nil => exact hd
  | cons m' ws ih =>
    refine ih fun m hm => ?_
    change Function.update d m'.block (some m') x = some m at hm
    by_cases hx : x = m'.block
    · rw [hx, Function.update_self, Option.some.injEq] at hm
      rw [hx, hm]
    · rw [Function.update_of_ne hx] at hm
      exact hd m hm

/-- **A full child on the way.** Some prefix of the writes loses a pair. -/
theorem Insertion.missing (hins : Insertion k v replace s h b n ws r s') : ∀ {lo : ℕ}, Sub s lo (h + 1) b →
    s.bm 0 = true → s.nodes b = some n → ¬ PathRoom s.nodes k h n → r ≠ .error .eio →
    ∃ j x, Missing s (writeAll s.nodes (ws.take j)) h b x := by
  induction hins with
  | found hi hk hr => exact fun _ _ _ hroom => absurd (.of_present hi hk) hroom
  | replaced hi hk hr => exact fun _ _ _ hroom => absurd (.of_present hi hk) hroom
  | leaf => exact fun _ _ _ hroom => absurd trivial hroom
  | @down s s' h b i n c ws r habs hi hc hlt hrest ih =>
    intro lo ht hz hb hroom hr
    rw [pathRoom_succ habs hi hc, not_and] at hroom
    have hchild := ht.child hb hi.le
    obtain ⟨j, x, hmiss⟩ := ih hchild hz hc (hroom hlt) hr
    refine ⟨j, x, hmiss.child ht hb hi.le ?_ (writeAll_block fun m hm => (hchild.nodeOk hm).block)⟩
    -- the node above is not written
    rw [writeAll_of_ne fun m hm hmb => ?_, hb]
    rcases hrest.written hchild hz hc m (List.mem_of_mem_take hm) with hmem | hfree
    · exact ht.notMem_child hb hi.le (hmb ▸ hmem)
    · rw [hmb, (ht.owned b mem_blocks_self).marked] at hfree
      cases hfree
  | refused => exact fun _ _ _ _ hr => absurd rfl hr
  | split habs hi hc hfull hn hcr =>
    intro lo ht hz hb _ _
    exact ⟨2, _, missing_split ht hz hb hn hi.le hc hfull hcr⟩

/-- Below an interior root without keys a lookup finds nothing. -/
lemma missing_bare (ht : Sub s lo (h + 2) b) (hb : s.nodes b = some n) (hn : n.nrKeys = 0) :
    ∃ x, Missing s s.nodes (h + 1) b x := by
  have hchild := ht.child hb (Nat.zero_le _)
  obtain ⟨m, hm, hok⟩ := hchild.node
  have hT : btreeT = 896 := rfl
  have hle := hok.lo_le
  refine ⟨m.kv 0, ?_, n, hb, fun s₀ _ fuel hf => ?_⟩
  · rw [entries_succ hb]
    refine mem_inorder.mpr (.inl ⟨0, Nat.zero_le _, ?_⟩)
    rw [entries_succ hm]
    exact mem_inorder.mpr (.inr ⟨0, by omega, mem_singleton_self _⟩)
  · obtain ⟨fuel, rfl⟩ : ∃ f, fuel = f + 1 := ⟨fuel - 1, by omega⟩
    exact nodeFindKey_empty hn

lemma Missing.not_keepsKeys {d : ℕ → Option Node} {x : Key × ℕ} {s₀ : Sb} {es : List (Key × ℕ)}
    (hmiss : Missing s d h b x) (ht : Sub s lo (h + 1) b) (henv : s₀.env = s.env)
    (hes : entries s.nodes (h + 1) b = es) : ¬ KeepsKeys s₀ b es k v d := by
  obtain ⟨hx, n, hb, hrun⟩ := hmiss
  intro hkeep
  obtain ⟨found, s', hfound, -⟩ := hkeep x.1 x.2 (hes ▸ (find_eq_some_iff ht.sorted).mpr hx)
  have hfuel : h < (onDisk s₀ d).loopBound := by
    have hle := ht.height_le
    show h < 2 * s₀.env.nrBlocks + 2
    rw [henv]
    omega
  have hroot : treeRoot ⟨b, false⟩ (onDisk s₀ d) = .ok (n, onDisk s₀ d) := by
    unfold treeRoot
    rw [run_get, show (onDisk s₀ d).nodes b = some n from hb]
    rfl
  have hlost : Nkfs.findKey ⟨b, false⟩ x.1 (onDisk s₀ d) = .ok (.error .enoent, onDisk s₀ d) := by
    unfold Nkfs.findKey
    rw [if_neg Bool.false_ne_true, run_get, run_bind_ok hroot, run_bind_ok (hrun s₀ henv _ hfuel)]
    rfl
  rw [hlost] at hfound
  cases hfound

/-- The same for a whole insertion. -/
lemma KeyInsertion.not_keepsKeys (hins : KeyInsertion k v replace s h b n ws r s') (ht : Sub s lo (h + 1) b)
    (hz : s.bm 0 = true) (hb : s.nodes b = some n) (hroom : ¬ PathRoom s.nodes k h n) (hr : r ≠ .error .eio)
    (hr' : r ≠ .error .enomem) :
    ∃ j, ¬ KeepsKeys s b (entries s.nodes (h + 1) b) k v (writeAll s.nodes (ws.take j)) := by
  cases hins with
  | direct hlt hins =>
    obtain ⟨j, x, hmiss⟩ := hins.missing ht hz hb hroom hr
    exact ⟨j, hmiss.not_keepsKeys ht rfl rfl⟩
  | grown hfull hsplit hins =>
    rw [← hsplit.pathRoom ht hb hfull] at hroom
    have hsub := hsplit.shape.sub
    obtain ⟨j, x, hmiss⟩ := hins.missing hsub (hsplit.shape.step.marked hz) hsplit.stored hroom hr
    refine ⟨5 + j, ?_⟩
    rw [hsplit.writeAll_take]
    exact hmiss.not_keepsKeys hsub hsplit.shape.step.env.symm hsplit.shape.entries_eq
  | refused => exact absurd rfl hr'

end loss

/-! ### A tree with two leaves -/

/-- A leaf at block `b` with the pairs `l`. -/
def leafOf (b : ℕ) (l : List (Key × ℕ)) : Node :=
  { Node.zero with block := b, leaf := true, nrKeys := l.length, kv := fun j => l.getD j (Node.zero.kv j) }

/-- A root at block 2 with the pair `x`, above the leaves at blocks 3 and 4. -/
def rootOf (x : Key × ℕ) : Node :=
  { Node.zero with block := 2, nrKeys := 1, kv := fun _ => x, child := fun i => 3 + i }

/-- A device with the tree of these three nodes. -/
def twoLeaves (l : List (Key × ℕ)) (x : Key × ℕ) (l' : List (Key × ℕ)) : Sb :=
  { blankSb with
    bm := fun b => decide (b < 5)
    usedBlocks := 5
    nodes := fun b =>
      if b = 2 then some (rootOf x)
      else if b = 3 then some (leafOf 3 l)
      else if b = 4 then some (leafOf 4 l')
      else none }

section leaves

variable {l l' : List (Key × ℕ)} {x : Key × ℕ}

lemma entries_leafOf {nodes : ℕ → Option Node} {b : ℕ} (hb : nodes b = some (leafOf b l)) : entries nodes 1 b = l := by
  have hupto : ∀ c ≤ l.length, upto (fun i => entries nodes 0 ((leafOf b l).child i)) (leafOf b l).sep c = l.take c := by
    intro c
    induction c with
    | zero => exact fun _ => rfl
    | succ c ih =>
      intro hc
      rw [upto, ih (Nat.le_of_succ_le hc), take_succ_eq_append_getElem hc]
      show l.take c ++ [] ++ [l.getD c _] = _
      rw [append_nil, getD_eq_getElem l _ hc]
  rw [entries_succ hb, inorder]
  show upto _ _ l.length ++ [] = l
  rw [hupto l.length le_rfl, append_nil, take_length]

lemma blocks_leafOf {nodes : ℕ → Option Node} {b : ℕ} (hb : nodes b = some (leafOf b l)) : blocks nodes 1 b = [b] := by
  rw [blocks_succ hb, cons.injEq]
  refine ⟨rfl, eq_nil_iff_forall_not_mem.mpr fun y hy => ?_⟩
  rcases mem_inorder.mp hy with ⟨_, _, hy⟩ | ⟨_, _, hy⟩
  · exact not_mem_nil hy
  · exact not_mem_nil hy

lemma shape_leafOf {nodes : ℕ → Option Node} {b : ℕ} (hb : nodes b = some (leafOf b l))
    (hlo : btreeT - 1 ≤ l.length) (hle : l.length ≤ 2 * btreeT - 1) : Shape nodes (btreeT - 1) 1 b :=
  ⟨_, hb, ⟨rfl, fun _ => rfl, hlo, hle, rfl⟩, fun _ _ => trivial⟩

lemma twoLeaves_isTree (hs : Sorted (l ++ x :: l')) (hl : btreeT - 1 ≤ l.length ∧ l.length ≤ 2 * btreeT - 1)
    (hl' : btreeT - 1 ≤ l'.length ∧ l'.length ≤ 2 * btreeT - 1) :
    IsTree (twoLeaves l x l') true 2 2 (l ++ x :: l') [2, 3, 4] := by
  have h2 : (twoLeaves l x l').nodes 2 = some (rootOf x) := rfl
  have h3 : (twoLeaves l x l').nodes 3 = some (leafOf 3 l) := rfl
  have h4 : (twoLeaves l x l').nodes 4 = some (leafOf 4 l') := rfl
  have hent : entries (twoLeaves l x l').nodes 2 2 = l ++ x :: l' := by
    rw [entries_succ h2]
    show ([] ++ entries _ 1 3 ++ [x]) ++ entries _ 1 4 = _
    rw [entries_leafOf h3, entries_leafOf h4, nil_append, append_assoc]
    rfl
  have hblk : blocks (twoLeaves l x l').nodes 2 2 = [2, 3, 4] := by
    rw [blocks_succ h2]
    show 2 :: ([] ++ blocks _ 1 3 ++ [] ++ blocks _ 1 4) = _
    rw [blocks_leafOf h3, blocks_leafOf h4]
    rfl
  have hone : 1 ≤ 2 * btreeT - 1 := by decide
  refine ⟨Nat.two_pos, ⟨⟨_, h2, ⟨rfl, fun _ => rfl, le_rfl, hone, rfl⟩, fun i hi => ?_⟩, ?_, ?_, ?_⟩, hent, hblk, rfl⟩
  · rcases Nat.le_one_iff_eq_zero_or_eq_one.mp hi with rfl | rfl
    · exact shape_leafOf h3 hl.1 hl.2
    · exact shape_leafOf h4 hl'.1 hl'.2
  · rw [hent]
    exact hs
  · rw [hblk]
    decide
  · rw [hblk]
    intro y hy
    have hy' : 2 ≤ y ∧ y < 5 := by
      simp only [mem_cons, not_mem_nil, or_false] at hy
      omega
    exact ⟨decide_eq_true hy'.2, by omega, show y < 65536 by omega⟩

lemma twoLeaves_ample : (twoLeaves l x l').Ample 60000 where
  fails _ := rfl
  covers := blankSb_ample.covers
  free := by
    have hsub : Finset.Ico 5 65536 ⊆ (twoLeaves l x l').freeSet := by
      intro b hb
      rw [Finset.mem_Ico] at hb
      rw [Sb.freeSet, Finset.mem_filter, Finset.mem_range]
      exact ⟨hb.2, decide_eq_false (not_lt.mpr hb.1)⟩
    have hcard := Finset.card_le_card hsub
    rw [Nat.card_Ico] at hcard
    omega

end leaves

/-- There are sorted lists of pairs of any length up to `4 T`. -/
lemma exists_sorted : ∀ n ≤ 4 * btreeT, ∃ l : List (Key × ℕ), Sorted l ∧ l.length = n ∧
    ∀ x ∈ l, ∃ j < n, x.1 = keyByU64 j
  | 0, _ => ⟨[], List.Pairwise.nil, rfl, fun x hx => absurd hx not_mem_nil⟩
  | n + 1, hn => by
    obtain ⟨l, hs, hlen, hkeys⟩ := exists_sorted n (n.le_succ.trans hn)
    have hT : btreeT = 896 := rfl
    have habs : find l (keyByU64 n) = none := by
      rw [find_eq_none_iff]
      intro x hx heq
      obtain ⟨j, hj, hxj⟩ := hkeys x hx
      exact hj.ne (keyByU64_injective (by omega) (by omega) (hxj.symm.trans heq))
    refine ⟨put (keyByU64 n) 0 l, sorted_put hs, by rw [length_put_of_find_none habs, hlen], fun x hx => ?_⟩
    rcases mem_put.mp hx with rfl | ⟨hx, -⟩
    · exact ⟨n, n.lt_succ_self, rfl⟩
    · obtain ⟨j, hj, hxj⟩ := hkeys x hx
      exact ⟨j, hj.trans n.lt_succ_self, hxj⟩

/-- There are trees with two leaves, the left one with `n` pairs and the right one with `T - 1`. -/
lemma exists_twoLeaves (n : ℕ) (hlo : btreeT - 1 ≤ n) (hle : n ≤ 2 * btreeT - 1) : ∃ l x l',
    IsTree (twoLeaves l x l') true 2 2 (l ++ x :: l') [2, 3, 4] ∧ l.length = n ∧ l'.length = btreeT - 1 := by
  have hT : btreeT = 896 := rfl
  obtain ⟨m, hs, hlen, -⟩ := exists_sorted (n + btreeT) (by omega)
  have hdrop : m.drop n ≠ [] := by
    rw [Ne, drop_eq_nil_iff]
    omega
  obtain ⟨x, l', hl'⟩ := exists_cons_of_ne_nil hdrop
  have hm : m = m.take n ++ x :: l' := by rw [← hl', take_append_drop]
  have htake : (m.take n).length = n := by
    rw [length_take]
    omega
  have hlen' : l'.length = btreeT - 1 := by
    have hsum := congrArg length hl'
    rw [length_drop, length_cons] at hsum
    omega
  exact ⟨m.take n, x, l', twoLeaves_isTree (hm ▸ hs) (by omega) (by omega), htake, hlen'⟩

/-! ### Whole runs -/

section runs

variable {c : Heap} {t : TreeObj} {strict : Bool} {b h : ℕ} {es : List (Key × ℕ)} {bs : List ℕ}

/-- The device after a prefix of the writes of a run. -/
lemma Logged.take_disk {c' : Heap} {ws : List Node} (hlog : Logged c c' ws) (hdisk : c.disk = c.sb.nodes) (j : ℕ) :
    writeAll c.dev (c'.log.take (c.log.length + j)) = writeAll c.sb.nodes (ws.take j) := by
  rw [hlog.log, take_length_add_append, writeAll_append, ← hdisk]
  rfl

lemma crashSafe_of_clear (hin : InService c t strict b (h + 1) es bs) (hdone : c.Done)
    (hdisk : c.disk = c.sb.nodes) {k : Key} (hclear : Clear c.sb k h b) (v : ℕ) (replace : Bool) :
    CrashSafe c t b es k v replace := by
  refine (insertKey_run hin hdone k v replace).mono ?_
  rintro r c' ⟨node, ws, -, hb, hins, -, hlog, -, -⟩ j
  obtain ⟨hkey, hroom⟩ := hclear node hb
  rw [hlog.take_disk hdisk, ← hin.tree.entries_eq]
  have hok := hin.tree.sub.nodeOk hb
  obtain ⟨n, hn, hnok, hkids⟩ := hin.tree.sub.shape
  rw [hb, Option.some.injEq] at hn
  subst hn
  have hsub : Sub c.sb node.nrKeys (h + 1) b :=
    ⟨⟨node, hb, { hok with lo_le := le_rfl }, hkids⟩, hin.tree.sub.sorted, hin.tree.sub.nodup, hin.tree.sub.owned⟩
  exact hins.keepsKeys hsub hin.tree.zero hb hkey hroom j

lemma clear_of_crashSafe (hin : InService c t strict b (h + 1) es bs) (hdone : c.Done)
    (hdisk : c.disk = c.sb.nodes) (hcan : c.CanCreate (h + 3)) {k : Key} {v : ℕ} {replace : Bool}
    (hsafe : CrashSafe c t b es k v replace) : Clear c.sb k h b := by
  obtain ⟨r, c', hrun, hkeeps⟩ := hsafe
  obtain ⟨node, ws, -, hb, hins, -, hlog, -, hroom⟩ := (insertKey_run hin hdone k v replace).result hrun
  simp only [hlog.take_disk hdisk, ← hin.tree.entries_eq] at hkeeps
  intro n hn
  rw [hb, Option.some.injEq] at hn
  subst hn
  constructor
  · -- an interior root without keys is lost from the start
    by_contra hbare
    rw [not_or, not_le, Nat.lt_one_iff] at hbare
    obtain ⟨h, rfl⟩ := Nat.exists_eq_succ_of_ne_zero hbare.1
    obtain ⟨x, hmiss⟩ := missing_bare hin.tree.sub hb hbare.2
    exact hmiss.not_keepsKeys hin.tree.sub rfl rfl (hkeeps 0)
  · by_contra hfull
    obtain ⟨j, hlost⟩ := hins.not_keepsKeys hin.tree.sub hin.tree.zero hb hfull (hroom hcan).1 (hroom hcan).2
    exact hlost (hkeeps j)

/-- **Crash during an insertion.** On a tree that is on the device, with all writes succeeding: when the root is a
leaf or has a key and no child on the way of the key is full, a lookup over the device finds every old pair after
any number of writes. When nodes can be created this is the only case. -/
theorem insert_crash_safe_iff (hin : InService c t strict b (h + 1) es bs) (hdone : c.Done)
    (hdisk : c.disk = c.sb.nodes) (k : Key) (v : ℕ) (replace : Bool) :
    (Clear c.sb k h b → CrashSafe c t b es k v replace) ∧
      (c.CanCreate (h + 3) → (CrashSafe c t b es k v replace ↔ Clear c.sb k h b)) :=
  ⟨fun hclear => crashSafe_of_clear hin hdone hdisk hclear v replace, fun hcan =>
    ⟨clear_of_crashSafe hin hdone hdisk hcan, fun hclear => crashSafe_of_clear hin hdone hdisk hclear v replace⟩⟩

end runs

/-- Below a full left leaf the way of its keys is not clear. -/
lemma twoLeaves_clear_iff {l l' : List (Key × ℕ)} {x y : Key × ℕ}
    (ht : IsTree (twoLeaves l x l') true 2 2 (l ++ x :: l') [2, 3, 4]) (hy : y ∈ l) :
    Clear (twoLeaves l x l') y.1 1 2 ↔ l.length < 2 * btreeT - 1 := by
  have h2 : (twoLeaves l x l').nodes 2 = some (rootOf x) := rfl
  have h3 : (twoLeaves l x l').nodes ((rootOf x).child 0) = some (leafOf 3 l) := rfl
  have hmem : y ∈ entries (twoLeaves l x l').nodes 1 ((rootOf x).child 0) := by
    show y ∈ entries _ 1 3
    rw [entries_leafOf (show (twoLeaves l x l').nodes 3 = some (leafOf 3 l) from rfl)]
    exact hy
  obtain ⟨hr, habs⟩ := Sub.rank_of_mem ht.sub h2 (Nat.zero_le _) hmem
  have hroom := pathRoom_succ (h := 0) habs hr h3
  constructor
  · exact fun hclear => (hroom.mp (hclear _ h2).2).1
  · intro hlt n hn
    rw [h2, Option.some.injEq] at hn
    subst hn
    exact ⟨.inr le_rfl, hroom.mpr ⟨hlt, trivial⟩⟩

/-- Replacing a value in a leaf that has room. -/
theorem insert_crash_safe_twoLeaves : ∃ c t es k, InService c t true 2 2 es [2, 3, 4] ∧ es.length = 2 * btreeT - 1 ∧
    CrashSafe c t 2 es k 7 true := by
  obtain ⟨l, x, l', ht, hlen, hlen'⟩ := exists_twoLeaves (btreeT - 1) le_rfl (by decide)
  have hT : btreeT = 896 := rfl
  obtain ⟨y, hy⟩ : ∃ y, y ∈ l := List.exists_mem_of_length_pos (by omega)
  have hroot : (twoLeaves l x l').nodes 2 = some (rootOf x) := rfl
  have hin := inService_opened ht hroot fun _ _ => .done
  refine ⟨_, _, _, y.1, hin, ?_, ?_⟩
  · rw [List.length_append, List.length_cons]
    omega
  · have hsafe := insert_crash_safe_iff hin (fun _ => rfl) rfl y.1 7 true
    exact hsafe.1 ((twoLeaves_clear_iff ht hy).mpr (by omega))

/-- With a full left leaf the upper half of its keys is lost after the second write. -/
theorem not_insert_crash_safe : ¬ ∀ (c : Heap) (t : TreeObj) (b h : ℕ) (es : List (Key × ℕ)) (bs : List ℕ) (k : Key)
    (v : ℕ) (replace : Bool), InService c t true b h es bs → c.Done → c.disk = c.sb.nodes →
    CrashSafe c t b es k v replace := by
  intro hall
  obtain ⟨l, x, l', ht, hlen, -⟩ := exists_twoLeaves (2 * btreeT - 1) (by decide) le_rfl
  have hT : btreeT = 896 := rfl
  obtain ⟨y, hy⟩ : ∃ y, y ∈ l := List.exists_mem_of_length_pos (by omega)
  have hroot : (twoLeaves l x l').nodes 2 = some (rootOf x) := rfl
  have hin := inService_opened ht hroot fun _ _ => .done
  have hsafe := hall _ _ _ _ _ _ y.1 7 true hin (fun _ => rfl) rfl
  have hclear := clear_of_crashSafe hin (fun _ => rfl) rfl ⟨twoLeaves_ample.mono (by omega), fun _ => rfl⟩ hsafe
  have hlt := (twoLeaves_clear_iff ht hy).mp hclear
  omega

end Nkfs.Refs
