import Nkfs.Btree.Delete

/-!
# How large trees are

Bounds that follow from the occupancy of nodes: a tree has at most one block more than pairs
(`IsTree.blocks_length_le`), and a tree with `2 T` pairs has two leaves below its root, one of which
has fewer than `T` keys. So every tree with `2 T` pairs holds a key that `nkfs_btree_delete_key`
cannot delete (`IsTree.exists_not_roomy`).
-/

namespace Nkfs

open Lib.Slots Lib.Assoc List

section length

variable {g f : ℕ → List (Key × ℕ)} {a : ℕ}

lemma length_upto_ge (hf : ∀ j, (f j).length = 1) : ∀ {n : ℕ}, (∀ j < n, a ≤ (g j).length) →
    n * (a + 1) ≤ (upto g f n).length
  | 0, _ => by simp [upto]
  | n + 1, hg => by
    have ih := length_upto_ge hf (n := n) fun j hj => hg j (hj.trans n.lt_succ_self)
    have hn := hg n n.lt_succ_self
    rw [upto, length_append, length_append, hf, Nat.succ_mul]
    omega

/-- A node with `n` keys whose parts hold at least `a` pairs each. -/
lemma length_inorder_ge {n : ℕ} (hf : ∀ j, (f j).length = 1) (hg : ∀ j ≤ n, a ≤ (g j).length) :
    n * (a + 1) + a ≤ (inorder g f n).length := by
  have hupto := length_upto_ge hf (a := a) (n := n) fun j hj => hg j hj.le
  have hn := hg n le_rfl
  rw [inorder, length_append]
  omega

lemma length_upto_le {l : ℕ → List ℕ} (hf : ∀ j, (f j).length = 1) : ∀ {n : ℕ},
    (∀ j < n, (l j).length ≤ (g j).length) →
    (upto l (fun _ => []) n).length + n ≤ (upto g f n).length
  | 0, _ => by simp [upto]
  | n + 1, hg => by
    have ih := length_upto_le hf (n := n) fun j hj => hg j (hj.trans n.lt_succ_self)
    have hn := hg n n.lt_succ_self
    rw [upto, upto, length_append, length_append, length_append,
      length_append, hf, length_nil]
    omega

lemma length_inorder_le {l : ℕ → List ℕ} {n : ℕ} (hf : ∀ j, (f j).length = 1)
    (hg : ∀ j ≤ n, (l j).length ≤ (g j).length) :
    (inorder l (fun _ => []) n).length + n ≤ (inorder g f n).length := by
  have hupto := length_upto_le hf (n := n) fun j hj => hg j hj.le
  have hn := hg n le_rfl
  rw [inorder, inorder, length_append, length_append]
  omega

end length

section tree

variable {nodes : ℕ → Option Node} {n : Node} {lo h b : ℕ}

lemma Node.length_sep (n : Node) (j : ℕ) : (n.sep j).length = 1 := rfl

/-- A node holds at least its own keys. -/
lemma nrKeys_le_length (hb : nodes b = some n) : n.nrKeys ≤ (entries nodes (h + 1) b).length := by
  rw [entries_succ hb]
  have hlen := length_inorder_ge (g := fun i => entries nodes h (n.child i)) (a := 0) (n := n.nrKeys)
    n.length_sep fun j _ => Nat.zero_le _
  omega

/-- A leaf holds its own keys only. -/
lemma length_leaf (hb : nodes b = some n) : (entries nodes 1 b).length = n.nrKeys := by
  have hupto : ∀ c, (upto (fun i => entries nodes 0 (n.child i)) n.sep c).length = c := by
    intro c
    induction c with
    | zero => rfl
    | succ c ih =>
      rw [upto, length_append, length_append, ih]
      rfl
  rw [entries_succ hb, inorder, length_append, hupto]
  rfl

/-- A subtree below the root holds at least `T - 1` pairs. -/
lemma Shape.length_ge (hs : Shape nodes lo (h + 1) b) : lo ≤ (entries nodes (h + 1) b).length := by
  obtain ⟨n, hb, hok, -⟩ := hs
  exact hok.lo_le.trans (nrKeys_le_length hb)

/-- No more blocks than pairs where the top node has a key. -/
lemma Shape.blocks_le : ∀ {lo h b : ℕ}, 0 < lo → Shape nodes lo h b →
    (blocks nodes h b).length ≤ (entries nodes h b).length
  | _, 0, _, _, _ => le_rfl
  | lo, h + 1, b, hlo, ⟨n, hb, hok, hkids⟩ => by
    have hlen := length_inorder_le (l := fun i => blocks nodes h (n.child i))
      (g := fun i => entries nodes h (n.child i)) n.length_sep
      fun j hj => Shape.blocks_le (by decide) (hkids j hj)
    have hpos := hlo.trans_le hok.lo_le
    rw [blocks_succ hb, entries_succ hb, length_cons]
    omega

lemma Shape.blocks_le_succ (hs : Shape nodes lo h b) :
    (blocks nodes h b).length ≤ (entries nodes h b).length + 1 := by
  cases h with
  | zero => exact Nat.zero_le _
  | succ h =>
    obtain ⟨n, hb, hok, hkids⟩ := hs
    have hlen := length_inorder_le (l := fun i => blocks nodes h (n.child i))
      (g := fun i => entries nodes h (n.child i)) n.length_sep
      fun j hj => Shape.blocks_le (by decide) (hkids j hj)
    rw [blocks_succ hb, entries_succ hb, length_cons]
    omega

lemma IsTree.blocks_length_le {s : Sb} {strict : Bool} {es : List (Key × ℕ)} {bs : List ℕ}
    (ht : IsTree s strict b h es bs) : bs.length ≤ es.length + 1 := by
  have hle := ht.sub.shape.blocks_le_succ
  rwa [ht.blocks_eq, ht.entries_eq] at hle

/-- A tree with fewer than `T` pairs is one leaf. -/
lemma IsTree.height_eq_one {s : Sb} {es : List (Key × ℕ)} {bs : List ℕ}
    (ht : IsTree s true b h es bs) (hlen : es.length < btreeT) : h = 1 := by
  obtain ⟨h, rfl⟩ := ht.succ
  obtain ⟨n, hb, hok, hkids⟩ := ht.sub.shape
  cases h with
  | zero => rfl
  | succ h =>
    have hpos : 1 ≤ n.nrKeys := hok.lo_le
    have hroot := length_inorder_ge (g := fun i => entries s.nodes (h + 1) (n.child i))
      n.length_sep fun j hj => (hkids j hj).length_ge
    have hmul : 1 * (btreeT - 1 + 1) ≤ n.nrKeys * (btreeT - 1 + 1) := Nat.mul_le_mul_right _ hpos
    rw [← ht.entries_eq, entries_succ hb] at hlen
    omega

end tree

/-! ### A key that cannot be deleted -/

section notRoomy

variable {s : Sb} {h b : ℕ} {es : List (Key × ℕ)} {bs : List ℕ}

/-- A tree with `2 T` pairs is a root with one key over two leaves. -/
lemma IsTree.two_leaves (ht : IsTree s true b h es bs) (hlen : es.length = 2 * btreeT) :
    h = 2 ∧ ∃ n, s.nodes b = some n ∧ n.nrKeys = 1 := by
  have hT : btreeT = 896 := rfl
  obtain ⟨h, rfl⟩ := ht.succ
  obtain ⟨n, hb, hok, hkids⟩ := ht.sub.shape
  rw [← ht.entries_eq] at hlen
  cases h with
  | zero =>
    rw [length_leaf hb] at hlen
    have := hok.le
    omega
  | succ h =>
    have hpos : 1 ≤ n.nrKeys := hok.lo_le
    rw [entries_succ hb] at hlen
    have hroot := length_inorder_ge (g := fun i => entries s.nodes (h + 1) (n.child i))
      n.length_sep fun j hj => (hkids j hj).length_ge
    cases h with
    | zero =>
      refine ⟨rfl, n, hb, ?_⟩
      have hmul : n.nrKeys * (btreeT - 1 + 1) = n.nrKeys * 896 := rfl
      omega
    | succ h =>
      -- a third level holds far more
      have hbig : ∀ j ≤ n.nrKeys, 2 * btreeT ≤ (entries s.nodes (h + 2) (n.child j)).length := by
        intro j hj
        obtain ⟨c, hc, hcok, hckids⟩ := hkids j hj
        have hlen := length_inorder_ge (g := fun i => entries s.nodes (h + 1) (c.child i))
          c.length_sep fun j hj => (hckids j hj).length_ge
        have hc2 : 2 ≤ c.nrKeys := hcok.lo_le.trans' (by decide)
        have hmul : 2 * (btreeT - 1 + 1) ≤ c.nrKeys * (btreeT - 1 + 1) :=
          Nat.mul_le_mul_right _ hc2
        rw [entries_succ hc]
        omega
      have hroot := length_inorder_ge (g := fun i => entries s.nodes (h + 1 + 1) (n.child i))
        n.length_sep hbig
      have hmul : 1 * (2 * btreeT + 1) ≤ n.nrKeys * (2 * btreeT + 1) :=
        Nat.mul_le_mul_right _ hpos
      omega

/-- A key of a leaf with fewer than `T` keys, right below the root. -/
lemma not_roomy_of_child {n c : Node} {k : Key} {i : ℕ} (hb : s.nodes b = some n)
    (hr : n.IsRank k i) (habs : ∀ j < n.nrKeys, n.key j ≠ k) (hc : s.nodes (n.child i) = some c)
    (hlt : c.nrKeys < btreeT) : ¬ Roomy s.nodes k (h + 1) b := by
  intro hroomy
  have hle := (((hroomy n hb).2 habs) i hr).1
  rw [keysAt_eq hc] at hle
  exact absurd hlt (not_lt.mpr hle)

/-- **A key that cannot be deleted.** A tree with `2 T` pairs holds a key whose leaf has fewer than
`T` keys. -/
theorem IsTree.exists_not_roomy (ht : IsTree s true b h es bs) (hlen : es.length = 2 * btreeT) :
    ∃ x ∈ es, ¬ Roomy s.nodes x.1 (h - 1) b := by
  obtain ⟨rfl, n, hb, hnr⟩ := ht.two_leaves hlen
  obtain ⟨c₀, hc₀, hok₀⟩ := (ht.sub.child hb (Nat.zero_le _)).node
  obtain ⟨c₁, hc₁, hok₁⟩ := (ht.sub.child hb hnr.ge).node
  have hes : es = entries s.nodes 1 (n.child 0) ++ n.kv 0 :: entries s.nodes 1 (n.child 1) := by
    rw [← ht.entries_eq, entries_succ hb, hnr]
    simp [inorder, upto]
  have hs := ht.sub.sorted
  rw [ht.entries_eq, hes, sorted_mid] at hs
  -- the first pair of a leaf
  have hfirst : ∀ {i : ℕ} {c : Node}, s.nodes (n.child i) = some c →
      NodeOk c (btreeT - 1) 0 (n.child i) → c.kv 0 ∈ entries s.nodes 1 (n.child i) := by
    intro i c hc hok
    rw [entries_succ hc]
    exact mem_inorder.mpr (Or.inr ⟨0, hok.lo_le.trans_lt' (by decide), List.mem_singleton_self _⟩)
  have hone : ∀ {j : ℕ}, j < n.nrKeys → j = 0 := fun hj => Nat.lt_one_iff.mp (hnr ▸ hj)
  rcases lt_or_ge c₀.nrKeys btreeT with hlt | hge
  · have hmem := hfirst hc₀ hok₀
    have hkey : (c₀.kv 0).1 < n.key 0 := hs.2.2.1 _ hmem
    refine ⟨c₀.kv 0, hes ▸ List.mem_append_left _ hmem, not_roomy_of_child hb (i := 0)
      ⟨Nat.zero_le _, fun j hj => absurd hj (Nat.not_lt_zero _), fun j _ hj => ?_⟩
      (fun j hj => ?_) hc₀ hlt⟩
    · rw [hone hj]
      exact hkey.le
    · rw [hone hj]
      exact hkey.ne'
  · have hlt : c₁.nrKeys < btreeT := by
      rw [hes, List.length_append, List.length_cons, length_leaf hc₀, length_leaf hc₁] at hlen
      omega
    have hmem := hfirst hc₁ hok₁
    have hkey : n.key 0 < (c₁.kv 0).1 := hs.2.2.2 _ hmem
    refine ⟨c₁.kv 0, hes ▸ List.mem_append_right _ (List.mem_cons_of_mem _ hmem),
      not_roomy_of_child hb (i := 1) ⟨hnr.ge, fun j hj => ?_, fun j hij hj => ?_⟩
      (fun j hj => ?_) hc₁ hlt⟩
    · rw [Nat.lt_one_iff.mp hj]
      exact hkey
    · exact absurd (hone hj) (Nat.one_le_iff_ne_zero.mp hij)
    · rw [hone hj]
      exact hkey.ne

end notRoomy

end Nkfs
