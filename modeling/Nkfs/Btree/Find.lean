import Nkfs.Btree.Tree

/-!
# Lookup

The runs of the node primitives, the bound on the height of a tree, and lookup: on a tree whose
interior root has a key, `nkfs_btree_find_key` returns the value of the key or `-ENOENT` and changes
nothing (`findKey_run`). (On an interior root without keys `nkfs_btree_node_find_key` gives up at
once; no operation leaves such a root behind.)
-/

namespace Nkfs

open Lib.Program Lib.Slots Lib.Assoc Function List

/-! ### The node primitives -/

section primitives

variable {s : Sb} {n : Node} {b : ℕ}

lemma nodeRead_run (ho : s.Owned b) (hn : s.nodes b = some n) (hb : n.block = b) :
    nodeRead b s = .ok (some n, s) := by
  have hn' : (s.nodes b).map (fun n => { n with block := b }) = some n := by
    rw [hn, ← hb]
    rfl
  unfold nodeRead
  rw [run_get, if_neg (not_or.mpr ⟨ho.ne_zero, not_le.mpr ho.lt⟩), hn']
  rfl

lemma nodeWrite_run (ho : s.Owned n.block) (hp : n.AllPages) : nodeWrite n s = .ok ((), s.writeNode n) := by
  have hall : (range btreeChildPages).all n.page = true :=
    all_eq_true.mpr fun p _ => hp p
  unfold nodeWrite
  rw [run_get, if_neg (not_or.mpr ⟨ho.ne_zero, not_le.mpr ho.lt⟩), if_pos hall]
  rfl

/-- A node without one of its child pages cannot be written. -/
lemma nodeWrite_null {p : ℕ} (ho : s.Owned n.block) (hp : p < btreeChildPages)
    (hpage : n.page p = false) : nodeWrite n s = .error (.null, s) := by
  have hall : ¬ (range btreeChildPages).all n.page = true := by
    rw [all_eq_true]
    intro h
    rw [h p (mem_range.mpr hp)] at hpage
    cases hpage
  unfold nodeWrite
  rw [run_get, if_neg (not_or.mpr ⟨ho.ne_zero, not_le.mpr ho.lt⟩), if_neg hall]
  rfl

lemma TreeStep.writeNode (s : Sb) (n : Node) : TreeStep s (s.writeNode n) [n.block] [] :=
  { TreeStep.refl s [n.block] with
    other := fun x _ hx => by
      rw [mem_singleton] at hx
      exact ⟨update_of_ne hx .., update_of_ne hx .., update_of_ne hx ..⟩ }

lemma TreeStep.tried (s : Sb) (ok : Bool) : TreeStep s (s.tried ok) [] [] :=
  { TreeStep.refl s [] with
    fails := by
      show s.allocFails ≤ if ok then s.allocFails else s.allocFails + 1
      split_ifs
      · exact le_rfl
      · exact Nat.le_succ _ }

lemma TreeStep.mark (hb : s.bm b = false) (hlt : b < s.env.nrBlocks) : TreeStep s (s.mark b true) [] [b] :=
  { TreeStep.refl s [] with
    bm := fun x => by
      show update s.bm b true x = _
      by_cases hx : x = b
      · rw [hx, update_self]
        simp
      · rw [update_of_ne hx]
        simp [hx]
    used := rfl
    nodup := nodup_singleton b
    free := fun x hx => by
      rw [mem_singleton.mp hx]
      exact ⟨hb, hlt⟩ }

/-- A step takes its fresh blocks from the free ones. -/
lemma TreeStep.ample {s' : Sb} {bs fresh : List ℕ} {m : ℕ} (hst : TreeStep s s' bs fresh)
    (h : s.Ample (m + fresh.length)) : s'.Ample m := by
  refine ⟨hst.env ▸ h.fails, hst.env ▸ h.covers, ?_⟩
  have hsub : s.freeSet ⊆ s'.freeSet ∪ fresh.toFinset := by
    intro x hx
    rw [Sb.freeSet, Finset.mem_filter, Finset.mem_range] at hx
    rw [Finset.mem_union, Sb.freeSet, Finset.mem_filter, Finset.mem_range, hst.env, hst.bm, hx.2,
      mem_toFinset]
    by_cases hmem : x ∈ fresh
    · exact Or.inr hmem
    · exact Or.inl ⟨hx.1, decide_eq_false hmem⟩
  have hcard := (Finset.card_le_card hsub).trans (Finset.card_union_le _ _)
  have hlen := toFinset_card_le fresh
  have hfree := h.free
  omega

/-- All that creating a node can do: take a free block and write an empty node there, or fail. -/
lemma nodeCreate_spec (hz : s.bm 0 = true) : Runs nodeCreate s fun r s' =>
    (∃ w, r = some { Node.zero with block := w } ∧ TreeStep s s' [] [w] ∧
      s'.nodes w = some { Node.zero with block := w } ∧ s'.allocFails = s.allocFails) ∨
    (r = none ∧ TreeStep s s' [] [] ∧ s.allocFails < s'.allocFails ∧ ¬ s.Ample 1) := by
  have hlt : s.allocFails < (s.tried false).allocFails := Nat.lt_succ_self _
  unfold nodeCreate
  refine Runs.bind (Runs.intro (nextAlloc_run s)
    (Q := fun ok s' => ok = !s.env.fails s.tick ∧ s' = s.tried ok) ⟨rfl, rfl⟩) ?_
  rintro ok _ ⟨hok, rfl⟩
  cases ok with
  | false =>
    refine Runs.pure (Or.inr ⟨rfl, TreeStep.tried s false, hlt, fun hample => ?_⟩)
    rw [hample.fails] at hok
    cases hok
  | true =>
    refine Runs.bind (blockAlloc_spec (s.tried true)) ?_
    rintro r s₁ (⟨w, rfl, hw, hlt, rfl⟩ | ⟨rfl, rfl, hfull⟩)
    · have hst : TreeStep s (((s.tried true).tried true).mark w true) [] [w] :=
        ((TreeStep.tried s true).trans (TreeStep.tried _ true) fun x hx => Or.inl hx).trans
          (TreeStep.mark hw hlt) fun x hx => Or.inl hx
      have ho := hst.owned_fresh hz (mem_singleton_self w)
      have hwrite := nodeWrite_run (n := { Node.zero with block := w }) ho fun _ => rfl
      refine Runs.bind (Runs.intro hwrite (Q := fun _ s' => s' = _) rfl) ?_
      rintro _ _ rfl
      refine Runs.pure (Or.inl ⟨w, rfl, ?_, update_self .., rfl⟩)
      exact hst.trans (TreeStep.writeNode _ _) fun x hx => Or.inr hx
    · exact Runs.pure (Or.inr ⟨rfl, (TreeStep.tried s true).trans (TreeStep.tried _ false)
        fun x hx => Or.inl hx, Nat.lt_succ_self _,
        fun hample => hfull ⟨hample.fails, hample.covers, hample.free⟩⟩)

end primitives

/-! ### Height -/

section height

variable {s : Sb} {lo h b : ℕ}

lemma height_le_length {nodes : ℕ → Option Node} : ∀ {lo h b : ℕ}, Shape nodes lo h b →
    h ≤ (blocks nodes h b).length
  | _, 0, _, _ => Nat.zero_le _
  | lo, h + 1, b, ⟨n, hb, _, hkids⟩ => by
    have ih := height_le_length (hkids n.nrKeys le_rfl)
    rw [blocks_succ hb, length_cons, inorder, length_append]
    omega

/-- Every level takes a block, so a tree is lower than the device is large. -/
lemma Sub.height_le (ht : Sub s lo h b) : h ≤ s.env.nrBlocks := by
  have hlen : (blocks s.nodes h b).length ≤ s.env.nrBlocks := by
    rw [← toFinset_card_of_nodup ht.nodup, ← Finset.card_range s.env.nrBlocks]
    refine Finset.card_le_card fun x hx => ?_
    rw [mem_toFinset] at hx
    exact Finset.mem_range.mpr (ht.owned x hx).lt
  exact (height_le_length ht.shape).trans hlen

end height

/-! ### Lookup -/

section find

variable {s : Sb} {n : Node} {lo h b : ℕ} {k : Key}

lemma NodeOk.nrKeys_lt_keySlots (hok : NodeOk n lo h b) : n.nrKeys < keySlots := by
  have hT : 2 * btreeT - 1 < keySlots := by decide
  exact hok.le.trans_lt hT

lemma NodeOk.nrKeys_lt_childSlots (hok : NodeOk n lo h b) : n.nrKeys + 1 < childSlots := by
  have hT : 2 * btreeT - 1 + 1 < childSlots := by decide
  have hle := hok.le
  omega

/-- A node of a tree finds the position of any key. -/
lemma Sub.rank (ht : Sub s lo (h + 1) b) (hb : s.nodes b = some n) (hok : NodeOk n lo h b)
    (k : Key) : ∃ i, findKeyIndex n k = .ok i ∧ n.IsRank k i :=
  findKeyIndex_spec (increasing_of_sorted (ht.sorted_inorder hb)) hok.nrKeys_lt_keySlots.le k

/-- The loop of the lookup below a node that has keys or is a leaf. -/
lemma nodeFindKey_run (k : Key) : ∀ (h fuel : ℕ) {lo b : ℕ} {n : Node}, Sub s lo (h + 1) b →
    s.nodes b = some n → 1 ≤ lo ∨ h = 0 → h < fuel →
    ∃ r, nodeFindKey k fuel n s = .ok (r, s) ∧ ((r = none ∧ find (entries s.nodes (h + 1) b) k = none) ∨
        ∃ m j, r = some (m, j) ∧ j < keySlots ∧ find (entries s.nodes (h + 1) b) k = some (m.kv j).2)
  | _, 0, _, _, _, _, _, _, hf => absurd hf (Nat.not_lt_zero _)
  | h, fuel + 1, lo, b, n, ht, hb, hlo, hf => by
    have hok := ht.nodeOk hb
    have hs := ht.sorted_inorder hb
    rw [entries_succ hb]
    unfold nodeFindKey
    by_cases h0 : n.nrKeys = 0
    · -- only an empty leaf has no keys here
      have hleaf : h = 0 := by
        rcases hlo with hlo | hlo
        · have := hok.lo_le
          omega
        · exact hlo
      subst hleaf
      rw [if_pos h0, h0]
      exact ⟨none, rfl, Or.inl ⟨rfl, rfl⟩⟩
    · rw [if_neg h0]
      obtain ⟨i, hi, hr⟩ := ht.rank hb hok k
      rw [run_bind_ok (run_lift hi), run_bind_ok (run_lift (isKeyAt_eq hok.nrKeys_lt_keySlots.le))]
      by_cases hit : i < n.nrKeys ∧ n.key i = k
      · rw [decide_eq_true hit, if_pos rfl]
        refine ⟨_, rfl, Or.inr ⟨n, i, rfl, hit.1.trans hok.nrKeys_lt_keySlots, ?_⟩⟩
        have hbelow := below_of_sorted hs hit.1
        rw [hit.2] at hbelow
        rw [inorder_at_key _ hit.1, find_append_of_below hbelow, ← hit.2]
        exact find_cons_self
      · have habsent : ∀ j < n.nrKeys, n.key j ≠ k := by
          intro j hj hjk
          rcases lt_or_ge j i with hji | hij
          · exact (hr.below j hji).ne hjk
          · refine hit ⟨hij.trans_lt hj, le_antisymm ?_ (hr.above i le_rfl (hij.trans_lt hj))⟩
            rw [← hjk]
            rcases hij.lt_or_eq with hij | rfl
            · exact (increasing_of_sorted hs i j hij hj).le
            · exact le_rfl
        rw [decide_eq_false hit, if_neg Bool.false_ne_true]
        -- the key can only be below child `i`
        rw [find_at_rank hs hr habsent]
        cases h with
        | zero =>
          rw [hok.leaf, decide_eq_true rfl, if_pos rfl]
          exact ⟨none, rfl, Or.inl ⟨rfl, rfl⟩⟩
        | succ h =>
          have hchild := ht.child hb hr.le
          obtain ⟨c, hc, hcok⟩ := hchild.node
          have hget := getChildVal_eq hok.pages (hr.le.trans_lt
            (Nat.lt_of_succ_lt hok.nrKeys_lt_childSlots))
          have hread := nodeRead_run (hchild.owned _ mem_blocks_self) hc hcok.block
          rw [hok.leaf, decide_eq_false (Nat.succ_ne_zero h), if_neg Bool.false_ne_true,
            run_bind_ok (run_lift hget), run_bind_ok hread]
          exact nodeFindKey_run k h fuel hchild hc (Or.inl (by decide)) (by omega)

/-- **Lookup.** On a tree whose interior root has a key, `nkfs_btree_find_key` returns the value of
the key, or `-ENOENT` if there is none, and changes nothing. -/
theorem findKey_run {t : Tree} {es : List (Key × ℕ)} {bs : List ℕ} (hrel : t.releasing = false)
    (ht : IsTree s true t.root h es bs) (k : Key) : findKey t k s =
      .ok (match find es k with | none => .error .enoent | some v => .ok v, s) := by
  obtain ⟨h, rfl⟩ : ∃ h', h = h' + 1 := ⟨h - 1, by have := ht.pos; omega⟩
  obtain ⟨root, hroot, -⟩ := ht.sub.node
  have hlo : 1 ≤ rootLo true (h + 1) ∨ h = 0 := by
    unfold rootLo
    by_cases h0 : h = 0
    · exact Or.inr h0
    · rw [if_pos ⟨rfl, by omega⟩]
      exact Or.inl le_rfl
  have hfuel : h < s.loopBound := by
    have := ht.sub.height_le
    unfold Sb.loopBound
    omega
  have hroot' : treeRoot t s = .ok (root, s) := by
    unfold treeRoot
    rw [run_get, hroot]
    rfl
  obtain ⟨r, hrun, hres⟩ := nodeFindKey_run k h s.loopBound ht.sub hroot hlo hfuel
  rw [ht.entries_eq] at hres
  unfold findKey
  rw [hrel, if_neg Bool.false_ne_true, run_get, run_bind_ok hroot',
    run_bind_ok hrun]
  rcases hres with ⟨rfl, hnone⟩ | ⟨m, j, rfl, hj, hsome⟩
  · rw [hnone]
    rfl
  · have hval : nodeValue m j = .ok (m.kv j).2 := if_pos (hj.trans (by decide))
    rw [hsome]
    show (liftM (nodeValue m j) >>= fun value => pure (Except.ok value) : M (Except Errno ℕ)) s = _
    rw [run_bind_ok (run_lift hval)]
    rfl

end find

end Nkfs
