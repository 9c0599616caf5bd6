import Nkfs.Btree.HeapInsert
import Nkfs.Btree.Erase
import Nkfs.Btree.Map

/-!
# Trees as objects

A tree from `nkfs_btree_create` to `nkfs_btree_release`, on nodes in memory. `InService` is what every operation
finds and leaves: the one reference of the tree is on its root. Creating a tree puts one into service, or fails;
a failed write of the leaf flag leaves the block of the root allocated (`btreeCreate_run`). Erasing a tree gives
its blocks back and leaves the reference on the root, which is then no longer in the cache (`btreeErase_run`); the
release drops that reference, and the cache is empty (`btreeRelease_run`).
-/

namespace Nkfs.Refs

open Lib.Program Lib.Slots Lib.Assoc List

/-! ### Insertion -/

section insert

variable {c : Heap} {t : TreeObj} {strict : Bool} {s s' : Sb} {b h v : ℕ} {es : List (Key × ℕ)} {bs : List ℕ}
  {k : Key} {replace : Bool} {n : Node} {ws : List Node} {r : Except Errno Unit}

/-- What an insertion does to a tree. -/
structure Inserted (k : Key) (v : ℕ) (replace strict : Bool) (s s' : Sb) (b : ℕ) (es : List (Key × ℕ)) (bs : List ℕ)
    (r : Except Errno Unit) (h' : ℕ) (es' : List (Key × ℕ)) (bs' fresh : List ℕ) : Prop where
  tree : IsTree s' strict b h' es' bs'
  step : TreeStep s s' bs fresh
  perm : bs'.Perm (fresh ++ bs)
  put : Put k v replace es es' r

lemma KeyInsertion.inserted (hins : KeyInsertion k v replace s h b n ws r s') (ht : IsTree s strict b (h + 1) es bs)
    (hb : s.nodes b = some n) : ∃ h' es' bs' fresh, Inserted k v replace strict s s' b es bs r (h' + 1) es' bs' fresh := by
  obtain ⟨-, hsub, rfl, rfl, hz⟩ := ht
  cases hins with
  | direct hlt hins =>
    obtain ⟨fresh, hgrow, hput⟩ := hins.put hsub hz hb
    exact ⟨h, _, _, fresh, ⟨h.succ_pos, hgrow.sub, rfl, rfl, hgrow.step.marked hz⟩, hgrow.step, hgrow.perm, hput⟩
  | grown hfull hsplit hins =>
    have hshape := hsplit.shape
    obtain ⟨fresh, hgrow, hput⟩ := hins.put hshape.sub (hshape.step.marked hz) hsplit.stored
    have hall := hshape.toGrow.trans hgrow
    have hlo : rootLo strict (h + 2) ≤ 1 := by
      unfold rootLo
      split_ifs
      · exact le_rfl
      · exact Nat.zero_le _
    obtain ⟨m, hm, hok, hkids⟩ := hall.sub.shape
    refine ⟨h + 1, _, _, _, ⟨Nat.succ_pos _, ⟨⟨m, hm, { hok with lo_le := hlo.trans hok.lo_le }, hkids⟩,
      hall.sub.sorted, hall.sub.nodup, hall.sub.owned⟩, rfl, rfl, hall.step.marked hz⟩, hall.step, hall.perm, ?_⟩
    exact hshape.entries_eq ▸ hput
  | refused hfull hst hfree =>
    obtain ⟨hent, hblk, hsub'⟩ := hst.subtree hsub fun _ _ => not_mem_nil
    exact ⟨h, _, _, [], ⟨h.succ_pos, hsub', rfl, rfl, hst.marked hz⟩,
      hst.mono fun _ hx => absurd hx not_mem_nil, List.Perm.of_eq hblk, hent⟩

end insert

/-! ### Creation -/

section flags

variable {α : Type}

end flags

section create

variable {c c' : Heap} {R : Multiset ℕ} {n : ℕ} {node : Node}

lemma Ok.nodesActive_eq (hok : Ok c 0 ∅) : c.nodesActive = 0 := by
  obtain ⟨B, hB, hcard⟩ := hok.active
  have hempty : B = ∅ := Finset.eq_empty_of_forall_notMem fun b hb => by
    obtain ⟨n, hn⟩ := Option.isSome_iff_exists.mp ((hB b).mp hb)
    obtain ⟨-, node, hhas, -⟩ := (hok.cached b n).mp hn
    exact absurd (hok.mem hhas) (Multiset.notMem_zero n)
  rw [hcard, hempty]
  rfl

/-- **Release** drops the reference on the root; nothing is left in the cache. -/
theorem btreeRelease_run {D : Set ℕ} (hok : Ok c {n} D) : Runs (btreeRelease (some n)) c fun _ c' =>
    Ok c' 0 ∅ ∧ Quiet c c' := by
  refine Runs.bind (nodeDeref_run (R := 0) hok) ?_
  rintro _ c₁ ⟨hok₁, hq, -⟩
  have hclean := hok₁.clean fun x _ => Multiset.notMem_zero x
  refine Runs.get ?_
  rw [if_neg (not_not.mpr hclean.nodesActive_eq)]
  exact Runs.pure ⟨hclean, hq⟩

end create

/-! ### Erasing -/

/-- The callback of `nkfs_btree_erase` gives back the blocks `gives x` for the pair `x`, as long as they are there. -/
def GivesBack (keyErase : Key → ℕ → M Unit) (gives : Key × ℕ → List ℕ) (s₀ : Sb) (es : List (Key × ℕ)) : Prop :=
  ∀ x ∈ es, ∀ s xs, FreeStep s₀ s xs → (∀ y ∈ gives x, y ∉ xs) →
    Runs (keyErase x.1 x.2) s fun _ s' => FreeStep s s' (gives x)

/-- The blocks `xs` were given back; the references `R` are as before, on the same nodes. -/
structure Erased (R : Multiset ℕ) (c c' : Heap) (xs : List ℕ) : Prop where
  ok : Ok c' R ∅
  free : FreeStep c.sb c'.sb xs
  logged : Logged c c' []
  same : Same c c' R

section erase

variable {c c₁ c' : Heap} {R : Multiset ℕ} {n lo h b : ℕ} {node : Node} {keyErase : Key → ℕ → M Unit}
  {gives : Key × ℕ → List ℕ} {xs ys : List ℕ}

lemma Erased.refl (hok : Ok c R ∅) : Erased R c c [] :=
  ⟨hok, FreeStep.refl _, (Quiet.refl c).logged, fun _ _ _ h => h⟩

lemma Erased.trans (h : Erased R c c₁ xs) (h' : Erased R c₁ c' ys) : Erased R c c' (xs ++ ys) :=
  ⟨h'.ok, h.free.trans h'.free, h.logged.trans h'.logged, h.same.trans h'.same fun _ hx => hx⟩

/-- What a node of `R` holds, before and after. -/
lemma Erased.has (h : Erased R c c' xs) (hok : Ok c R ∅) {x : ℕ} (hx : x ∈ R) {y : Node} (hy : c'.Has x y) :
    c.Has x y := by
  obtain ⟨y₀, hy₀⟩ := hok.has hx
  rw [hy.unique (h.same x hx y₀ hy₀)]
  exact hy₀

/-- A superblock state from which blocks that no node in memory is at were given back. -/
lemma Ok.freed (hok : Ok c R ∅) {s' : Sb} (hst : FreeStep c.sb s' xs)
    (haway : ∀ {x y}, c.Has x y → y.block ∉ xs) : Ok { c with sb := s' } R ∅ where
  live := hok.live
  ref := hok.ref
  lt := hok.lt
  cached := hok.cached
  marked := by
    intro b x hx
    obtain ⟨-, y, hy, rfl⟩ := (hok.cached b x).mp hx
    rw [hst.bm, hok.marked hx, decide_eq_true (haway hy)]
    rfl
  synced hy hxD hblock := (hst.nodes _ (haway hy)).trans (hok.synced hy hxD hblock)
  active := hok.active

/-- The callback on one pair. -/
lemma eraseKey_run {i : ℕ} (hok : Ok c R ∅) (hi : i < keySlots)
    (hclb : Runs (keyErase (node.kv i).1 (node.kv i).2) c.sb fun _ s' => FreeStep c.sb s' (gives (node.kv i)))
    (haway : ∀ {x y}, c.Has x y → y.block ∉ gives (node.kv i)) :
    Runs (do
      let key ← slots (nodeKey node i)
      let value ← slots (nodeValue node i)
      onSb (keyErase key value) : P Unit) c fun _ c' => Erased R c c' (gives (node.kv i)) := by
  obtain ⟨⟨⟩, s', hrun, hst⟩ := hclb
  refine Runs.step (slots_run (nodeKey_eq hi)) (Runs.step (slots_run (if_pos (hi.trans (by decide)))) ?_)
  refine Runs.intro (onSb_run hrun) ⟨hok.freed hst haway, hst, ⟨rfl, (append_nil _).symm, rfl⟩, ?_⟩
  exact fun _ _ _ hy => hy

/-- The node `n` at the top of a subtree that is to be erased; the other nodes in memory are outside. -/
structure AtTop (gives : Key × ℕ → List ℕ) (c : Heap) (R : Multiset ℕ) (n lo h b : ℕ) (node : Node) : Prop where
  ok : Ok c R ∅
  sub : Sub c.sb lo (h + 1) b
  stored : c.sb.nodes b = some node
  has : c.Has n node
  outside : ∀ {x y}, c.Has x y → x ≠ n → y.block ∉ heldBy gives c.sb.nodes (h + 1) b
  nodup : (heldBy gives c.sb.nodes (h + 1) b).Nodup

/-- What is left of the node at the top. -/
structure ErasedTop (R : Multiset ℕ) (n : ℕ) (node : Node) (c c' : Heap) (xs : List ℕ) : Prop where
  ok : Ok c' R ∅
  free : FreeStep c.sb c'.sb xs
  logged : Logged c c' []
  has : c'.Has n { node with block := 0 }
  same : ∀ x ≠ n, ∀ y, c.Has x y → c'.Has x y

lemma AtTop.nodup_walk (hat : AtTop gives c R n lo h b node) :
    ((range (node.nrKeys + 1)).flatMap (fun i => heldBy gives c.sb.nodes h (node.child i)) ++
      (range node.nrKeys).flatMap (fun i => gives (node.kv i)) ++ [b]).Nodup :=
  (heldBy_succ hat.stored).nodup_iff.mpr hat.nodup

/-- No node in memory is at a block below the top. -/
lemma AtTop.away (hat : AtTop gives c R n lo h b node) {x : ℕ} {y : Node} (hy : c.Has x y) :
    y.block ∉ (range (node.nrKeys + 1)).flatMap (fun i => heldBy gives c.sb.nodes h (node.child i)) ++
      (range node.nrKeys).flatMap fun i => gives (node.kv i) := by
  intro hmem
  by_cases hx : x = n
  · subst hx
    rw [hy.unique hat.has, (hat.sub.nodeOk hat.stored).block] at hmem
    exact (nodup_append.mp hat.nodup_walk).2.2 b hmem b (mem_singleton_self b) rfl
  · exact hat.outside hy hx ((heldBy_succ hat.stored).mem_iff.mp (mem_append_left _ hmem))

lemma mem_walk_child {i x : ℕ} (hi : i ≤ node.nrKeys) (hx : x ∈ heldBy gives c.sb.nodes h (node.child i)) :
    x ∈ (range (node.nrKeys + 1)).flatMap (fun i => heldBy gives c.sb.nodes h (node.child i)) :=
  mem_flatMap.mpr ⟨i, mem_range.mpr (Nat.lt_succ_of_le hi), hx⟩

/-- A node that is read to be erased. -/
lemma AtTop.child {i : ℕ} (hat : AtTop gives c R n lo (h + 1) b node) (her : Erased R c c₁ xs)
    (hi : i ≤ node.nrKeys) (hxs : ∀ x ∈ heldBy gives c.sb.nodes (h + 1) (node.child i), x ∉ xs) :
    heldBy gives c₁.sb.nodes (h + 1) (node.child i) = heldBy gives c.sb.nodes (h + 1) (node.child i) ∧
      entries c₁.sb.nodes (h + 1) (node.child i) = entries c.sb.nodes (h + 1) (node.child i) ∧
    Runs (nodeRead (node.child i)) c₁ fun r c₂ => ∃ m child, r = some m ∧
      AtTop gives c₂ (m ::ₘ R) m (btreeT - 1) h (node.child i) child ∧ Quiet c₁ c₂ ∧ Same c₁ c₂ R ∧ m ∉ R := by
  have hsub := hat.sub.child hat.stored hi
  obtain ⟨hsub₁, hent₁, hblk₁⟩ := her.free.subtree hsub fun x hx => hxs x (mem_append_left _ hx)
  have hheld : heldBy gives c₁.sb.nodes (h + 1) (node.child i) = heldBy gives c.sb.nodes (h + 1) (node.child i) := by
    rw [heldBy, heldBy, hent₁, hblk₁]
  refine ⟨hheld, hent₁, ?_⟩
  obtain ⟨child, hchild, hcok⟩ := hsub₁.node
  have hown := hsub₁.owned _ mem_blocks_self
  have hout : ∀ {x y}, c₁.Has x y → y.block ∉ heldBy gives c.sb.nodes (h + 1) (node.child i) := fun hy hmem =>
    hat.away (her.has hat.ok (her.ok.mem hy) hy) (mem_append_left _ (mem_walk_child hi hmem))
  refine (nodeRead_run her.ok hown hchild hcok.block).mono ?_
  rintro _ c₂ ⟨m, rfl, hok₂, hm, hq, hsame⟩
  have hmR : m ∉ R := fun hmem => by
    obtain ⟨y, hy⟩ := her.ok.has hmem
    have hblock : y.block = node.child i := (congrArg Node.block ((hsame m hmem y hy).unique hm)).trans hcok.block
    exact hout hy (hblock ▸ mem_append_left _ mem_blocks_self)
  refine ⟨m, child, rfl, ⟨hok₂, hq.sb.symm ▸ hsub₁, hq.sb.symm ▸ hchild, hm, ?_, ?_⟩, hq, hsame, hmR⟩
  · intro x y hy hx
    have hxR : x ∈ R := (Multiset.mem_cons.mp (hok₂.mem hy)).resolve_left hx
    obtain ⟨y₁, hy₁⟩ := her.ok.has hxR
    rw [hy.unique (hsame x hxR y₁ hy₁), hq.sb, hheld]
    exact hout hy₁
  · rw [hq.sb, hheld]
    have hkids := (nodup_append.mp (nodup_append.mp hat.nodup_walk).1).1
    exact (nodup_flatMap.mp hkids).1 i (mem_range.mpr (Nat.lt_succ_of_le hi))

/-- The node itself goes last. -/
lemma AtTop.delete (hat : AtTop gives c R n lo h b node) (her : Erased R c c₁ xs) (hb : b ∉ xs) :
    Runs (nodeDelete n) c₁ fun _ c' => ErasedTop R n node c c' (xs ++ [b]) := by
  have hblock := (hat.sub.nodeOk hat.stored).block
  have hn := hat.ok.mem hat.has
  have ho : c₁.sb.Owned node.block := hblock.symm ▸ her.free.owned (hat.sub.owned b mem_blocks_self) hb
  refine (nodeDelete_run her.ok (her.same n hn node hat.has) ho).mono ?_
  rintro _ c' ⟨hok', hsb, hlog, hhas, hother⟩
  refine ⟨hok', ?_, her.logged.trans hlog, hhas, fun x hx y hy => ?_⟩
  · rw [hsb]
    have hdrop := FreeStep.dropNode c₁.sb node
    rw [hblock] at hdrop
    exact her.free.trans hdrop
  · exact hother x hx y (her.same x (hat.ok.mem hy) y hy)

/-- Erasing a subtree gives back its blocks and what the callback gives back. -/
lemma eraseNode_run : ∀ {h fuel lo b n : ℕ} {node : Node} {c : Heap} {R : Multiset ℕ},
    AtTop gives c R n lo h b node → h < fuel → h = 0 ∨ 0 < lo →
    GivesBack keyErase gives c.sb (entries c.sb.nodes (h + 1) b) → Runs (eraseNode keyErase fuel n) c fun _ c' =>
      ErasedTop R n node c c' (heldBy gives c.sb.nodes (h + 1) b)
  | _, 0, _, _, _, _, _, _, _, hf, _, _ => absurd hf (Nat.not_lt_zero _)
  | h, fuel + 1, lo, b, n, node, c, R, hat, hf, hlo, hclb => by
    have hok := hat.sub.nodeOk hat.stored
    have hwalk := hat.nodup_walk
    have hpairs := (nodup_append.mp hwalk).1
    have hmem : ∀ x, x ∈ inorder (fun i => entries c.sb.nodes h (node.child i)) node.sep node.nrKeys →
        x ∈ entries c.sb.nodes (h + 1) b := fun x hx => entries_succ hat.stored ▸ hx
    -- first the children, if there are any
    unfold eraseNode
    refine Runs.step (getNode_run hat.has) (Runs.bind (R := fun _ c' => Erased R c c' ([] ++
      (range (node.nrKeys + 1)).flatMap fun i => heldBy gives c.sb.nodes h (node.child i))) ?_ ?_)
    · cases h with
      | zero =>
        have hleaf : node.leaf = true := hok.leaf
        rw [hleaf, Bool.not_true, Bool.and_false]
        have hnil : (range (node.nrKeys + 1)).flatMap (fun i => heldBy gives c.sb.nodes 0 (node.child i)) =
            [] := flatMap_eq_nil_iff.mpr fun _ _ => rfl
        rw [hnil]
        exact Runs.pure (Erased.refl hat.ok)
      | succ h =>
        have hleaf : node.leaf = false := hok.leaf
        have hpos : node.nrKeys ≠ 0 := by
          have := hok.lo_le
          omega
        rw [hleaf, decide_eq_true hpos]
        refine runs_forM Erased.trans (Erased.refl hat.ok) (nodup_append.mp hpairs).1 ?_
        intro i hi c₁ xs her hnew
        have hi : i ≤ node.nrKeys := Nat.lt_succ_iff.mp (mem_range.mp hi)
        obtain ⟨hheld, hent, hread⟩ := hat.child her hi hnew
        refine Runs.step (slots_run (getChildVal_eq hok.pages
          ((Nat.lt_succ_of_le hi).trans hok.nrKeys_lt_childSlots))) (Runs.bind hread ?_)
        rintro _ c₂ ⟨m, child, rfl, hat₂, hq, hsame, hmR⟩
        have hclb₂ : GivesBack keyErase gives c₂.sb (entries c₂.sb.nodes (h + 1) (node.child i)) := by
          rw [hq.sb, hent]
          intro x hx s ys hst hnot
          refine hclb x (hmem x (mem_inorder.mpr (.inl ⟨i, hi, hx⟩))) s (xs ++ ys) (her.free.trans hst) ?_
          intro y hy hy'
          rcases mem_append.mp hy' with hy' | hy'
          · refine hnew y (mem_append_right _ ?_) hy'
            exact mem_flatMap.mpr ⟨x, hx, hy⟩
          · exact hnot y hy hy'
        refine Runs.bind (eraseNode_run hat₂ (by omega) (.inr (by decide)) hclb₂) ?_
        intro _ c₃ her₃
        refine (nodeDeref_run her₃.ok).mono ?_
        rintro _ c₄ ⟨hok₄, hq₄, hsame₄⟩
        have hfree : FreeStep c₁.sb c₄.sb (heldBy gives c.sb.nodes (h + 1) (node.child i)) := by
          have hst := her₃.free
          rw [hq.sb, hheld] at hst
          rw [hq₄.sb]
          exact hst
        refine ⟨hok₄, hfree, (hq.logged.trans her₃.logged).quiet hq₄, fun x hx y hy => ?_⟩
        exact hsame₄ x hx y (her₃.same x (fun heq => hmR (heq ▸ hx)) y (hsame x hx y hy))
    intro _ c₁ her₁
    rw [nil_append] at her₁
    -- then the pairs of the node
    refine Runs.bind (runs_forM Erased.trans her₁ hpairs ?_) ?_
    · intro i hi c₂ xs her₂ hnew
      have hi := mem_range.mp hi
      refine eraseKey_run her₂.ok (hi.trans hok.nrKeys_lt_keySlots) ?_ ?_
      · refine hclb _ (hmem _ (mem_inorder.mpr (.inr ⟨i, hi, mem_singleton_self _⟩))) _ xs her₂.free hnew
      · intro x y hy hy'
        refine hat.away (her₂.has hat.ok (her₂.ok.mem hy) hy) (mem_append_right _ ?_)
        exact mem_flatMap.mpr ⟨i, mem_range.mpr hi, hy'⟩
    · -- and last the node
      intro _ c₂ her₂
      have hbx : b ∉ _ := fun hx => (nodup_append.mp hwalk).2.2 b hx b (mem_singleton_self _) rfl
      refine (hat.delete her₂ hbx).mono ?_
      intro _ c₃ her₃
      exact { her₃ with free := her₃.free.perm (heldBy_succ hat.stored) }

/-- A tree in service, about to be erased. -/
lemma InService.atTop {t : TreeObj} {strict : Bool} {es : List (Key × ℕ)} {bs : List ℕ}
    (hin : InService c t strict b (h + 1) es bs) (hnd : (bs ++ es.flatMap gives).Nodup) (hhas : c.Has t.root node)
    (hb : c.sb.nodes b = some node) : AtTop gives c {t.root} t.root (rootLo strict (h + 1)) h b node where
  ok := hin.ok
  sub := hin.tree.sub
  stored := hb
  has := hhas
  outside hy hx := absurd (Multiset.mem_singleton.mp (hin.ok.mem hy)) hx
  nodup := by
    rw [heldBy, hin.tree.entries_eq, hin.tree.blocks_eq]
    exact hnd

/-- **Erasing a tree** gives back its blocks and what the callback gives back. The tree keeps its reference, on a
node that has no block any more. -/
theorem btreeErase_run {t : TreeObj} {es : List (Key × ℕ)} {bs : List ℕ} (hin : InService c t true b h es bs)
    (hnd : (bs ++ es.flatMap gives).Nodup) (hclb : GivesBack keyErase gives c.sb es) :
    Runs (btreeErase t keyErase) c fun t' c' => t' = { t with releasing := true } ∧ Ok c' {t.root} ∅ ∧
      FreeStep c.sb c'.sb (bs ++ es.flatMap gives) ∧ Logged c c' [] ∧ ∃ node, c'.Has t.root node ∧ node.block = 0 := by
  obtain ⟨h, rfl⟩ := hin.tree.succ
  obtain ⟨node, hhas, -, hb⟩ := hin.stored
  have hheight := hin.tree.sub.height_le
  have hheld : heldBy gives c.sb.nodes (h + 1) b = bs ++ es.flatMap gives := by
    rw [heldBy, hin.tree.entries_eq, hin.tree.blocks_eq]
  refine Runs.get (Runs.bind (eraseNode_run (hin.atTop hnd hhas hb) ?_ ?_ ?_) ?_)
  · show h < 2 * c.sb.env.nrBlocks + 2
    omega
  · cases h with
    | zero => exact .inl rfl
    | succ h => exact .inr (by simp [rootLo])
  · rw [hin.tree.entries_eq]
    exact hclb
  · intro _ c' her
    exact Runs.pure ⟨rfl, her.ok, hheld ▸ her.free, her.logged, _, her.has, rfl⟩

end erase

/-! ### A new tree -/

end Nkfs.Refs
