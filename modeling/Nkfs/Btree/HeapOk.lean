import Nkfs.Btree.Heap
import Nkfs.Btree.Split

/-!
# Who refers to which node

`Ok c R D` says that `R` are all references there are on nodes in memory: a node is there as long as it is in
`R`, and its count is how often. The cache has exactly the nodes that have a block, one per block, and a node
outside `D` is as it was last written. Every primitive of the operations changes `R` in its own way:
`nkfs_btree_node_read` and `nkfs_btree_node_create` add a reference, `nkfs_btree_node_deref` takes one away.
`R` is arbitrary apart from that, so these rules compose.
-/

namespace Nkfs.Refs

open Lib.Program Function List

/-! ### The invariant -/

/-- The node behind a pointer. -/
def Heap.Has (c : Heap) (n : ℕ) (node : Node) : Prop := ∃ o, c.objs n = some o ∧ o.node = node

/-- `active` is the number of blocks in the cache. -/
def Counts (nodes : ℕ → Option ℕ) (active : ℤ) : Prop :=
  ∃ B : Finset ℕ, (∀ b, b ∈ B ↔ (nodes b).isSome) ∧ active = B.card

lemma Counts.insert {nodes : ℕ → Option ℕ} {active : ℤ} (h : Counts nodes active) {b : ℕ} (hb : nodes b = none)
    (n : ℕ) : Counts (update nodes b (some n)) (active + 1) := by
  obtain ⟨B, hB, hcard⟩ := h
  have hmem : b ∉ B := by
    rw [hB, hb]
    exact nofun
  refine ⟨Insert.insert b B, fun x => ?_, ?_⟩
  · rw [Finset.mem_insert]
    rcases eq_or_ne x b with rfl | hne
    · rw [update_self]
      exact iff_of_true (.inl rfl) rfl
    · rw [update_of_ne hne, or_iff_right hne]
      exact hB x
  · rw [Finset.card_insert_of_notMem hmem]
    push_cast
    omega

lemma Counts.erase {nodes : ℕ → Option ℕ} {active : ℤ} (h : Counts nodes active) {b n : ℕ}
    (hb : nodes b = some n) : Counts (update nodes b none) (active - 1) := by
  obtain ⟨B, hB, hcard⟩ := h
  have hmem : b ∈ B := by
    rw [hB, hb]
    rfl
  refine ⟨B.erase b, fun x => ?_, ?_⟩
  · rw [Finset.mem_erase]
    rcases eq_or_ne x b with rfl | hne
    · rw [update_self]
      exact iff_of_false (fun hx => hx.1 rfl) nofun
    · rw [update_of_ne hne]
      exact (and_iff_right hne).trans (hB x)
  · rw [Finset.card_erase_of_mem hmem]
    have hpos := Finset.card_pos.mpr ⟨_, hmem⟩
    omega

/-- The references `R` are all there are, and nodes outside `D` are as last written. -/
structure Ok (c : Heap) (R : Multiset ℕ) (D : Set ℕ) : Prop where
  live : ∀ n, n ∈ R ↔ ∃ o, c.objs n = some o
  ref : ∀ {n o}, c.objs n = some o → o.ref = R.count n
  lt : ∀ {n o}, c.objs n = some o → n < c.next
  cached : ∀ b n, c.nodes b = some n ↔ b ≠ 0 ∧ ∃ node, c.Has n node ∧ node.block = b
  marked : ∀ {b n}, c.nodes b = some n → c.sb.bm b = true
  synced : ∀ {n node}, c.Has n node → n ∉ D → node.block ≠ 0 → c.sb.nodes node.block = some node
  active : Counts c.nodes c.nodesActive

/-- The device and the superblock are as before. -/
structure Quiet (c c' : Heap) : Prop where
  sb : c'.sb = c.sb
  dev : c'.dev = c.dev
  log : c'.log = c.log
  outcome : c'.outcome = c.outcome
  writes : c'.writes = c.writes

lemma Quiet.refl (c : Heap) : Quiet c c := ⟨rfl, rfl, rfl, rfl, rfl⟩

lemma Quiet.trans {c c₁ c' : Heap} (h : Quiet c c₁) (h' : Quiet c₁ c') : Quiet c c' :=
  ⟨h'.sb.trans h.sb, h'.dev.trans h.dev, h'.log.trans h.log, h'.outcome.trans h.outcome,
    h'.writes.trans h.writes⟩

/-- The nodes of `R` hold what they held. -/
def Same (c c' : Heap) (R : Multiset ℕ) : Prop := ∀ n ∈ R, ∀ node, c.Has n node → c'.Has n node

section

variable {c c' : Heap} {R R' : Multiset ℕ} {D D' : Set ℕ} {n m : ℕ} {o o' : NodeObj} {node : Node}

lemma Heap.Has.unique {node' : Node} (h : c.Has n node) (h' : c.Has n node') : node = node' := by
  obtain ⟨o, ho, rfl⟩ := h
  obtain ⟨o', ho', rfl⟩ := h'
  rw [ho, Option.some.injEq] at ho'
  rw [ho']

lemma Ok.has (hok : Ok c R D) (hn : n ∈ R) : ∃ node, c.Has n node := by
  obtain ⟨o, ho⟩ := (hok.live n).mp hn
  exact ⟨o.node, o, ho, rfl⟩

lemma Ok.mem (hok : Ok c R D) (h : c.Has n node) : n ∈ R := by
  obtain ⟨o, ho, -⟩ := h
  exact (hok.live n).mpr ⟨o, ho⟩

/-- Two nodes in memory do not share a block. -/
lemma Ok.unique (hok : Ok c R D) {node' : Node} (h : c.Has n node) (h' : c.Has m node')
    (hb : node.block ≠ 0) (heq : node'.block = node.block) : m = n := by
  have hn := (hok.cached node.block n).mpr ⟨hb, node, h, rfl⟩
  have hm := (hok.cached node.block m).mpr ⟨hb, node', h', heq⟩
  exact Option.some.inj (hm.symm.trans hn)

lemma Has.ne_of_block (h : c.Has n node) {node' : Node} (h' : c.Has m node') (hb : node.block ≠ node'.block) :
    n ≠ m := by
  rintro rfl
  exact hb (congrArg Node.block (h.unique h'))

/-! ### Running the primitives -/

lemma getObj_run (ho : c.objs n = some o) : getObj n c = .ok (o, c) := by
  rw [getObj, run_get, ho]
  rfl

lemma getNode_run (h : c.Has n node) : getNode n c = .ok (node, c) := by
  obtain ⟨o, ho, rfl⟩ := h
  rw [getNode, run_bind_ok (getObj_run ho)]
  rfl

lemma onSb_run {α : Type} {x : M α} {a : α} {s : Sb} (h : x c.sb = .ok (a, s)) :
    onSb x c = .ok (a, { c with sb := s }) := by
  rw [onSb, h]

lemma slots_run {α : Type} {y : Except Fault α} {a : α} (h : y = .ok a) : slots y c = .ok (a, c) := by
  rw [h]
  rfl

lemma setObj_self (x : Option NodeObj) : (c.setObj n x).objs n = x := update_self ..

lemma setObj_other (hm : m ≠ n) (x : Option NodeObj) : (c.setObj n x).objs m = c.objs m :=
  update_of_ne hm ..

lemma has_setObj_self : (c.setObj n (some o)).Has n o.node := ⟨o, setObj_self _, rfl⟩

lemma has_iff (ho : c.objs n = some o) {b : ℕ} : (∃ y, c.Has n y ∧ y.block = b) ↔ o.node.block = b := by
  constructor
  · rintro ⟨y, hy, rfl⟩
    exact congrArg Node.block (Heap.Has.unique ⟨o, ho, rfl⟩ hy)
  · exact fun hb => ⟨o.node, ⟨o, ho, rfl⟩, hb⟩

lemma has_setObj_other (hm : m ≠ n) (x : Option NodeObj) : (c.setObj n x).Has m node ↔ c.Has m node := by
  rw [Heap.Has, Heap.Has, setObj_other hm]

/-- Only the object `n` and its place in the cache changed: everything is to be shown for it alone. -/
lemma Ok.replace (hok : Ok c R D) (hobjs : ∀ x ≠ n, c'.objs x = c.objs x) (hcount : ∀ x ≠ n, R'.count x = R.count x)
    (hlive : n ∈ R' ↔ ∃ o, c'.objs n = some o) (href : ∀ o, c'.objs n = some o → o.ref = R'.count n ∧ n < c'.next)
    (hnext : c.next ≤ c'.next) (hnodes : ∀ b, ∀ x ≠ n, c'.nodes b = some x ↔ c.nodes b = some x)
    (hcached : ∀ b, c'.nodes b = some n ↔ b ≠ 0 ∧ ∃ node, c'.Has n node ∧ node.block = b)
    (hmarked : ∀ b x, c'.nodes b = some x → c'.sb.bm b = true)
    (hsame : ∀ x ≠ n, ∀ y, c.Has x y → x ∉ D' → y.block ≠ 0 → x ∉ D ∧ c'.sb.nodes y.block = c.sb.nodes y.block)
    (hsync : ∀ y, c'.Has n y → n ∉ D' → y.block ≠ 0 → c'.sb.nodes y.block = some y)
    (hactive : Counts c'.nodes c'.nodesActive) : Ok c' R' D' := by
  have hhas : ∀ x ≠ n, ∀ y, c'.Has x y ↔ c.Has x y := fun x hx y => by rw [Heap.Has, Heap.Has, hobjs x hx]
  refine ⟨fun x => ?_, ?_, ?_, fun b x => ?_, fun hb => hmarked _ _ hb, ?_, hactive⟩
  · rcases eq_or_ne x n with rfl | hx
    · exact hlive
    · rw [hobjs x hx, ← hok.live, ← Multiset.count_pos, ← Multiset.count_pos, hcount x hx]
  · intro x q hq
    rcases eq_or_ne x n with rfl | hx
    · exact (href q hq).1
    · rw [hcount x hx]
      exact hok.ref ((hobjs x hx).symm.trans hq)
  · intro x q hq
    rcases eq_or_ne x n with rfl | hx
    · exact (href q hq).2
    · exact (hok.lt ((hobjs x hx).symm.trans hq)).trans_le hnext
  · rcases eq_or_ne x n with rfl | hx
    · exact hcached b
    · rw [hnodes b x hx, hok.cached]
      simp only [hhas x hx]
  · intro x y hy hxD hb
    rcases eq_or_ne x n with rfl | hx
    · exact hsync y hy hxD hb
    · have hy := (hhas x hx y).mp hy
      obtain ⟨hD, heq⟩ := hsame x hx y hy hxD hb
      exact heq.trans (hok.synced hy hD hb)

/-- One object changed; its block is the same. -/
lemma Ok.change (hok : Ok c R D) (ho : c.objs n = some o) (hb : o'.node.block = o.node.block)
    (href : o'.ref = R'.count n) (hn : n ∈ R') (hcount : ∀ x ≠ n, R'.count x = R.count x)
    (hD : ∀ x ≠ n, x ∉ D' → x ∉ D)
    (hsync : n ∉ D' → o'.node.block ≠ 0 → c.sb.nodes o'.node.block = some o'.node) :
    Ok (c.setObj n (some o')) R' D' := by
  refine hok.replace (n := n) (fun x hx => setObj_other hx _) hcount (iff_of_true hn ⟨o', setObj_self _⟩) ?_ le_rfl
    (fun _ _ _ => Iff.rfl) (fun b => ?_) (fun _ _ => hok.marked) (fun x hx _ _ hxD _ => ⟨hD x hx hxD, rfl⟩) ?_ hok.active
  · intro q hq
    rw [setObj_self, Option.some.injEq] at hq
    exact ⟨hq ▸ href, hok.lt ho⟩
  · refine (hok.cached b n).trans (and_congr_right fun _ => ?_)
    rw [has_iff ho, has_iff (setObj_self (some o')), hb]
  · rintro y hy
    obtain rfl := has_setObj_self.unique hy
    exact hsync

/-- The cache without the block of an object that leaves it. -/
lemma Ok.uncached (hok : Ok c R D) (h : c.Has n node) {nodes : ℕ → Option ℕ} {active : ℤ}
    (hnodes : nodes = if node.block = 0 then c.nodes else update c.nodes node.block none)
    (hactive : active = if node.block = 0 then c.nodesActive else c.nodesActive - 1) :
    (∀ b x, nodes b = some x ↔ x ≠ n ∧ c.nodes b = some x) ∧ Counts nodes active := by
  have hne : ∀ b x, b ≠ node.block → c.nodes b = some x → x ≠ n := by
    rintro b x hb hx rfl
    obtain ⟨-, node', hnode', rfl⟩ := (hok.cached b x).mp hx
    exact hb (congrArg Node.block (hnode'.unique h))
  by_cases h0 : node.block = 0
  · rw [if_pos h0] at hnodes hactive
    subst hnodes hactive
    refine ⟨fun b x => ⟨fun hx => ⟨hne b x ?_ hx, hx⟩, fun hx => hx.2⟩, hok.active⟩
    exact h0 ▸ ((hok.cached b x).mp hx).1
  · rw [if_neg h0] at hnodes hactive
    subst hnodes hactive
    have hcached := (hok.cached node.block n).mpr ⟨h0, node, h, rfl⟩
    refine ⟨fun b x => ?_, hok.active.erase hcached⟩
    rcases eq_or_ne b node.block with rfl | hb
    · rw [update_self, hcached]
      exact ⟨nofun, fun hx => absurd (Option.some.inj hx.2).symm hx.1⟩
    · rw [update_of_ne hb]
      exact ⟨fun hx => ⟨hne b x hb hx, hx⟩, fun hx => hx.2⟩

/-- The object is gone, and its block is not in the cache any more. -/
lemma Ok.drop (hok : Ok c (n ::ₘ R) D) (hn : n ∉ R) (h : c.Has n node) {nodes : ℕ → Option ℕ} {active : ℤ}
    (hnodes : nodes = if node.block = 0 then c.nodes else update c.nodes node.block none)
    (hactive : active = if node.block = 0 then c.nodesActive else c.nodesActive - 1) :
    Ok ({ c with nodes := nodes, nodesActive := active }.setObj n none) R D := by
  obtain ⟨hsome, hcounts⟩ := hok.uncached h hnodes hactive
  have hnone : ({ c with nodes := nodes, nodesActive := active }.setObj n none).objs n = none := setObj_self _
  have hself : ∀ y, ¬ ({ c with nodes := nodes, nodesActive := active }.setObj n none).Has n y := by
    rintro y ⟨o, ho, -⟩
    cases hnone.symm.trans ho
  refine hok.replace (n := n) (fun x hx => setObj_other hx _) (fun x hx => (Multiset.count_cons_of_ne hx R).symm) ?_ ?_
    le_rfl (fun b x hx => (hsome b x).trans (and_iff_right hx)) (fun b => ?_)
    (fun b x hx => hok.marked ((hsome b x).mp hx).2) (fun _ _ _ _ hxD _ => ⟨hxD, rfl⟩)
    (fun y hy => absurd hy (hself y)) hcounts
  · rw [hnone]
    exact iff_of_false hn nofun
  · intro o ho
    cases hnone.symm.trans ho
  · refine iff_of_false (fun hx => ((hsome b n).mp hx).1 rfl) ?_
    rintro ⟨-, y, hy, -⟩
    exact hself y hy

/-! ### References -/

/-- Another count does not change what nodes hold. -/
lemma has_setRef (ho : c.objs n = some o) (r : ℤ) : (c.setObj n (some { o with ref := r })).Has m node ↔
    c.Has m node := by
  rcases eq_or_ne m n with rfl | hm
  · constructor
    · rintro ⟨q, hq, rfl⟩
      rw [setObj_self, Option.some.injEq] at hq
      exact ⟨o, ho, hq ▸ rfl⟩
    · rintro ⟨q, hq, rfl⟩
      rw [ho, Option.some.injEq] at hq
      exact ⟨_, setObj_self _, hq ▸ rfl⟩
  · exact has_setObj_other hm _

/-- `nkfs_btree_node_ref`, on a node that is there. -/
lemma nodeRef_eq (hok : Ok c R D) (ho : c.objs n = some o) :
    nodeRef n c = .ok ((), c.setObj n (some { o with ref := o.ref + 1 })) ∧
      Ok (c.setObj n (some { o with ref := o.ref + 1 })) (n ::ₘ R) D := by
  have hpos := Multiset.count_pos.mpr ((hok.live n).mpr ⟨o, ho⟩)
  have href := hok.ref ho
  constructor
  · rw [nodeRef, run_bind_ok (getObj_run ho), if_neg (by omega)]
    rfl
  · refine hok.change ho rfl ?_ (Multiset.mem_cons_self n R) (fun x hx => Multiset.count_cons_of_ne hx R)
      (fun _ _ h => h) fun hD hb => hok.synced ⟨o, ho, rfl⟩ hD hb
    rw [Multiset.count_cons_self]
    push_cast
    omega

/-- `nkfs_btree_nodes_remove` on a node whose count is already down. -/
lemma nodesRemove_eq (h : c.Has n node)
    (hcached : node.block ≠ 0 → c.nodes node.block = some n) : nodesRemove n c = .ok ((),
      { c with
        nodes := if node.block = 0 then c.nodes else update c.nodes node.block none
        nodesActive := if node.block = 0 then c.nodesActive else c.nodesActive - 1 }) := by
  rw [nodesRemove, run_bind_ok (getNode_run h), run_get]
  by_cases h0 : node.block = 0
  · simp only [h0, if_true]
    rfl
  · simp only [h0, if_false, hcached h0]
    rw [if_neg fun hne => hne rfl]
    rfl

/-- `nkfs_btree_node_deref`: the node goes with its last reference. -/
lemma nodeDeref_run (hok : Ok c (n ::ₘ R) D) : Runs (nodeDeref n) c fun _ c' =>
    Ok c' R D ∧ Quiet c c' ∧ Same c c' R := by
  obtain ⟨o, ho⟩ := (hok.live n).mp (Multiset.mem_cons_self n R)
  have href := hok.ref ho
  rw [Multiset.count_cons_self] at href
  unfold nodeDeref
  refine Runs.step (getObj_run ho) ?_
  rw [if_neg (by omega)]
  have hdec : (modify fun c => c.setObj n (some { o with ref := o.ref - 1 }) : P Unit) c =
      .ok ((), c.setObj n (some { o with ref := o.ref - 1 })) := rfl
  refine Runs.step hdec ?_
  by_cases hn : n ∈ R
  · -- other references are left
    have hpos := Multiset.count_pos.mpr hn
    rw [if_neg (by omega)]
    refine Runs.pure ⟨?_, ⟨rfl, rfl, rfl, rfl, rfl⟩, fun _ _ _ h => (has_setRef ho _).mpr h⟩
    refine hok.change ho rfl ?_ hn (fun x hx => (Multiset.count_cons_of_ne hx R).symm) (fun _ _ h => h)
      fun hD hb => hok.synced ⟨o, ho, rfl⟩ hD hb
    show o.ref - 1 = _
    omega
  · have hzero := Multiset.count_eq_zero.mpr hn
    rw [if_pos (by omega)]
    have hhas : (c.setObj n (some { o with ref := o.ref - 1 })).Has n o.node := has_setObj_self
    refine Runs.step (nodesRemove_eq hhas fun h0 => (hok.cached _ n).mpr ⟨h0, o.node, ⟨o, ho, rfl⟩, rfl⟩) ?_
    refine Runs.step (getObj_run (setObj_self _)) (Runs.intro rfl ?_)
    have hdrop := hok.drop hn ⟨o, ho, rfl⟩ rfl rfl
    have hobjs : ∀ x : Option NodeObj, ∀ y, update (update c.objs n x) n y = update c.objs n y :=
      fun _ _ => update_idem ..
    refine ⟨?_, ⟨rfl, rfl, rfl, rfl, rfl⟩, fun x hx node hnode => ?_⟩
    · rw [Heap.setObj] at hdrop ⊢
      simp only [Heap.setObj, hobjs]
      exact hdrop
    · have hne : x ≠ n := fun heq => hn (heq ▸ hx)
      exact (has_setObj_other hne _).mpr ((has_setObj_other hne _).mpr hnode)

/-! ### New nodes -/

/-- The state with a new node in the cache, and one reference on it. -/
def Heap.added (c : Heap) (node : Node) : Heap :=
  { c.setObj c.next (some ⟨node, 1⟩) with
    next := c.next + 1
    nodes := Function.update c.nodes node.block (some c.next)
    nodesActive := c.nodesActive + 1 }

lemma Ok.next_notMem (hok : Ok c R D) : c.next ∉ R := fun hmem => by
  obtain ⟨o, ho⟩ := (hok.live _).mp hmem
  exact absurd (hok.lt ho) (lt_irrefl _)

lemma added_has_self : (c.added node).Has c.next node := ⟨⟨node, 1⟩, setObj_self _, rfl⟩

lemma added_has_other {x : Node} (hm : m ≠ c.next) : (c.added node).Has m x ↔ c.Has m x :=
  has_setObj_other hm _

lemma added_same (hok : Ok c R D) : Same c (c.added node) R := fun _ hx _ h =>
  (added_has_other fun heq => hok.next_notMem (heq ▸ hx)).mpr h

lemma Ok.count_next (hok : Ok c R D) : (1 : ℤ) = (c.next ::ₘ R).count c.next := by
  rw [Multiset.count_cons_self, Multiset.count_eq_zero.mpr hok.next_notMem]
  rfl

/-- A new object, in the cache or not yet. -/
lemma Ok.new (hok : Ok c R D) (c' : Heap) (hobjs : c'.objs = update c.objs c.next (some ⟨node, 1⟩))
    (hnext : c'.next = c.next + 1) (hsb : c'.sb = c.sb)
    (hnodes : ∀ b x, c'.nodes b = some x ↔ c.nodes b = some x ∨ x = c.next ∧ b ≠ 0 ∧ b = node.block)
    (hbm : node.block ≠ 0 → c.sb.bm node.block = true) (hsync : node.block ≠ 0 → c.sb.nodes node.block = some node)
    (hactive : Counts c'.nodes c'.nodesActive) : Ok c' (c.next ::ₘ R) D := by
  have hobj : c'.objs c.next = some ⟨node, 1⟩ := by
    rw [hobjs]
    exact update_self ..
  refine hok.replace (n := c.next) (fun x hx => ?_) (fun x hx => Multiset.count_cons_of_ne hx R)
    (iff_of_true (Multiset.mem_cons_self ..) ⟨_, hobj⟩) ?_ (by omega)
    (fun b x hx => (hnodes b x).trans (or_iff_left fun h => hx h.1)) (fun b => ?_) ?_
    (fun x _ y _ hxD _ => ⟨hxD, by rw [hsb]⟩) ?_ hactive
  · rw [hobjs]
    exact update_of_ne hx ..
  · intro o ho
    rw [← Option.some.inj (hobj.symm.trans ho)]
    exact ⟨hok.count_next, by omega⟩
  · rw [has_iff hobj, hnodes, or_iff_right]
    · exact ⟨fun h => ⟨h.2.1, h.2.2.symm⟩, fun h => ⟨rfl, h.1, h.2.symm⟩⟩
    · intro hx
      obtain ⟨-, y, hy, -⟩ := (hok.cached _ _).mp hx
      exact hok.next_notMem (hok.mem hy)
  · intro b x hx
    rw [hsb]
    rcases (hnodes b x).mp hx with hx | ⟨-, hb, rfl⟩
    · exact hok.marked hx
    · exact hbm hb
  · intro y hy _ hb
    obtain rfl := hy.unique ⟨_, hobj, rfl⟩
    rw [hsb]
    exact hsync hb

lemma Ok.added (hok : Ok c R D) (hb : node.block ≠ 0) (hfree : c.nodes node.block = none)
    (hbm : c.sb.bm node.block = true) (hsync : c.sb.nodes node.block = some node) :
    Ok (c.added node) (c.next ::ₘ R) D := by
  refine hok.new (c.added node) rfl rfl rfl (fun b x => ?_) (fun _ => hbm) (fun _ => hsync) (hok.active.insert hfree _)
  show update c.nodes node.block (some c.next) b = some x ↔ _
  rcases eq_or_ne b node.block with rfl | hne
  · rw [update_self, hfree, Option.some.injEq]
    exact ⟨fun h => .inr ⟨h.symm, hb, rfl⟩, fun h => (h.resolve_left nofun).1.symm⟩
  · rw [update_of_ne hne]
    exact (or_iff_left fun h => hne h.2.2).symm

/-- A node object outside the cache, as `nkfs_btree_node_alloc` returns it. -/
def Heap.alloced (c : Heap) (node : Node) : Heap :=
  { c.setObj c.next (some ⟨node, 1⟩) with next := c.next + 1 }

/-- A new node goes to the cache: `nkfs_btree_nodes_insert`, and the extra reference is dropped. -/
lemma nodesInsert_new (hfree : c.nodes node.block = none) : ∃ c₁,
    nodesInsert c.next (c.alloced node) = .ok (c.next, c₁) ∧ nodeDeref c.next c₁ = .ok ((), c.added node) := by
  have hobj : (c.alloced node).objs c.next = some ⟨node, 1⟩ := setObj_self _
  let c₀ : Heap := { c.alloced node with
    nodes := update c.nodes node.block (some c.next), nodesActive := c.nodesActive + 1 }
  have hobj₀ : c₀.objs c.next = some ⟨node, 1⟩ := hobj
  have hobj₁ : (c₀.setObj c.next (some ⟨node, 2⟩)).objs c.next = some ⟨node, 2⟩ := setObj_self _
  refine ⟨c₀.setObj c.next (some ⟨node, 2⟩), ?_, ?_⟩
  · rw [nodesInsert, run_bind_ok (getNode_run ⟨_, hobj, rfl⟩), run_get]
    simp only [show (c.alloced node).nodes node.block = none from hfree]
    show ((nodeRef c.next >>= fun _ => pure c.next) : P ℕ) c₀ = _
    have href : nodeRef c.next c₀ = .ok ((), c₀.setObj c.next (some ⟨node, 2⟩)) := by
      rw [nodeRef, run_bind_ok (getObj_run hobj₀)]
      rfl
    rw [run_bind_ok href]
    rfl
  · rw [nodeDeref, run_bind_ok (getObj_run hobj₁)]
    refine congrArg Except.ok (Prod.ext rfl ?_)
    show (c₀.setObj c.next (some ⟨node, 2⟩)).setObj c.next (some ⟨node, 2 - 1⟩) = c.added node
    simp only [Heap.setObj, update_idem, c₀, Heap.alloced, Heap.added]
    rfl

/-- `nkfs_btree_node_read` of a node that is there: one more reference. -/
lemma nodeRead_run (hok : Ok c R ∅) {b : ℕ} (ho : c.sb.Owned b) (hn : c.sb.nodes b = some node)
    (hb : node.block = b) : Runs (nodeRead b) c fun r c' => ∃ n, r = some n ∧ Ok c' (n ::ₘ R) ∅ ∧ c'.Has n node ∧
      Quiet c c' ∧ Same c c' R := by
  subst hb
  unfold nodeRead
  refine Runs.get ?_
  rw [if_neg (not_or.mpr ⟨ho.ne_zero, not_le.mpr ho.lt⟩)]
  cases hc : c.nodes node.block with
  | some n =>
    obtain ⟨-, node', hnode', hblock⟩ := (hok.cached _ _).mp hc
    obtain ⟨o, hobj, rfl⟩ := hnode'
    have heq : o.node = node := by
      have hs := hok.synced ⟨o, hobj, rfl⟩ (Set.notMem_empty n) (hblock ▸ ho.ne_zero)
      rw [hblock, hn] at hs
      exact (Option.some.inj hs).symm
    obtain ⟨hrun, hok'⟩ := nodeRef_eq hok hobj
    have hlook : nodesLookup node.block c = .ok (some n, c.setObj n (some { o with ref := o.ref + 1 })) := by
      rw [nodesLookup, run_get, hc]
      show ((nodeRef n >>= fun _ => pure (some n)) : P (Option ℕ)) c = _
      rw [run_bind_ok hrun]
      rfl
    refine Runs.step hlook (Runs.pure ⟨n, rfl, hok', (has_setRef hobj _).mpr ⟨o, hobj, heq⟩,
      ⟨rfl, rfl, rfl, rfl, rfl⟩, fun _ _ _ h => (has_setRef hobj _).mpr h⟩)
  | none =>
    have hlook : nodesLookup node.block c = .ok (none, c) := by
      rw [nodesLookup, run_get, hc]
      rfl
    obtain ⟨c₁, hins, hder⟩ := nodesInsert_new hc
    refine Runs.step hlook (Runs.step (onSb_run (Nkfs.nodeRead_run ho hn rfl)) ?_)
    have halloc : nodeAlloc node c = .ok (c.next, c.alloced node) := rfl
    refine Runs.step halloc (Runs.step hins ?_)
    rw [if_neg fun h => h rfl]
    refine Runs.step hder (Runs.pure ⟨c.next, rfl, hok.added ho.ne_zero hc ho.marked hn, added_has_self,
      ⟨rfl, rfl, rfl, rfl, rfl⟩, added_same hok⟩)

/-! ### Changing and writing nodes -/

/-- The nodes `ws` were written to the device. -/
structure Logged (c c' : Heap) (ws : List Node) : Prop where
  dev : c'.dev = c.dev
  log : c'.log = c.log ++ ws
  outcome : c'.outcome = c.outcome

lemma Quiet.logged (h : Quiet c c') : Logged c c' [] := ⟨h.dev, h.log.trans (append_nil _).symm, h.outcome⟩

lemma Logged.trans {c₁ : Heap} {ws ws' : List Node} (h : Logged c c₁ ws) (h' : Logged c₁ c' ws') :
    Logged c c' (ws ++ ws') :=
  ⟨h'.dev.trans h.dev, by rw [h'.log, h.log, append_assoc], h'.outcome.trans h.outcome⟩

lemma Logged.quiet {c₁ : Heap} {ws : List Node} (h : Logged c c₁ ws) (h' : Quiet c₁ c') : Logged c c' ws :=
  append_nil ws ▸ h.trans h'.logged

lemma writeAll_append (d : ℕ → Option Node) (ws ws' : List Node) :
    writeAll d (ws ++ ws') = writeAll (writeAll d ws) ws' := foldl_append

lemma Same.trans {c₁ : Heap} (h : Same c c₁ R) (h' : Same c₁ c' R') (hR : ∀ x ∈ R, x ∈ R') : Same c c' R :=
  fun x hx node hnode => h' x (hR x hx) node (h x hx node hnode)

lemma Same.mono (h : Same c c' R) (hR : ∀ x ∈ R', x ∈ R) : Same c c' R' := fun x hx => h x (hR x hx)

/-- The node behind a pointer is changed in memory. -/
lemma setNode_run (hok : Ok c R D) (h : c.Has n node) {node' : Node} (hb : node'.block = node.block) :
    Runs (setNode n node') c fun _ c' => Ok c' R (insert n D) ∧ Quiet c c' ∧ c'.Has n node' ∧
      ∀ x ≠ n, ∀ y, c.Has x y → c'.Has x y := by
  obtain ⟨o, ho, rfl⟩ := h
  refine Runs.step (getObj_run ho) (Runs.intro rfl ⟨?_, ⟨rfl, rfl, rfl, rfl, rfl⟩, has_setObj_self,
    fun x hx y hy => (has_setObj_other hx _).mpr hy⟩)
  have href : o.ref = R.count n := hok.ref ho
  exact hok.change ho hb href ((hok.live n).mpr ⟨o, ho⟩) (fun _ _ => rfl)
    (fun x _ hx => fun hD => hx (Set.mem_insert_of_mem n hD)) fun hn => absurd (Set.mem_insert n D) hn

/-- The state after a node was written. -/
def Heap.written (c : Heap) (site : WriteSite) (node : Node) : Heap :=
  { c with
    writes := Function.update c.writes site (c.writes site + 1)
    sb := c.sb.writeNode node
    log := c.log ++ [node] }

lemma nodeWrite_done {site : WriteSite} (hdone : c.outcome site (c.writes site) = .done) (h : c.Has n node)
    (ho : c.sb.Owned node.block) (hp : node.AllPages) :
    nodeWrite site n c = .ok (.ok (), c.written site node) := by
  let c₁ : Heap := { c with writes := update c.writes site (c.writes site + 1) }
  rw [nodeWrite, run_bind_ok (getNode_run h), run_get, run_bind_ok (show (set c₁ : P PUnit) c = .ok ((), c₁) from rfl), hdone]
  exact run_bind_ok (onSb_run (c := c₁) (Nkfs.nodeWrite_run ho hp))

lemma Ok.written (hok : Ok c R D) (site : WriteSite) (h : c.Has n node) (hb : node.block ≠ 0) :
    Ok (c.written site node) R (D \ {n}) where
  live := hok.live
  ref := hok.ref
  lt := hok.lt
  cached := hok.cached
  marked hx := hok.marked hx
  synced := by
    intro x y hy hxD hblock
    rcases eq_or_ne x n with rfl | hx
    · obtain rfl := h.unique hy
      exact Sb.writeNode_self
    · refine (Sb.writeNode_of_ne fun heq => hx (hok.unique h hy hb heq)).trans (hok.synced hy (fun hD => ?_) hblock)
      exact hxD ⟨hD, hx⟩
  active := hok.active

lemma written_logged (site : WriteSite) : Logged c (c.written site node) [node] := ⟨rfl, rfl, rfl⟩

/-- `nkfs_btree_node_write` with its result dropped, when it succeeds. -/
lemma writeNode_run (hok : Ok c R D) (hdone : ∀ i, c.outcome .dropped i = .done) (h : c.Has n node)
    (ho : c.sb.Owned node.block) (hp : node.AllPages) :
    writeNode n c = .ok ((), c.written .dropped node) ∧ Ok (c.written .dropped node) R (D \ {n}) := by
  refine ⟨?_, hok.written .dropped h ho.ne_zero⟩
  rw [writeNode, run_bind_ok (nodeWrite_done (hdone _) h ho hp)]
  rfl

/-- Another state of the superblock, changed away from the nodes in memory. -/
lemma Ok.away (hok : Ok c R D) {s' : Sb} {bs fresh : List ℕ} (hst : TreeStep c.sb s' bs fresh)
    (haway : ∀ {x y}, c.Has x y → x ∉ D → y.block ∉ bs) : Ok { c with sb := s' } R D where
  live := hok.live
  ref := hok.ref
  lt := hok.lt
  cached := hok.cached
  marked hx := hst.marked (hok.marked hx)
  synced := by
    intro x y hy hxD hblock
    have hmark := hok.marked ((hok.cached y.block x).mpr ⟨hblock, y, hy, rfl⟩)
    exact (hst.other _ hmark (haway hy hxD)).1.trans (hok.synced hy hxD hblock)
  active := hok.active

/-- Another state of the superblock that leaves allocated blocks alone. -/
lemma Ok.onSb (hok : Ok c R D) {s' : Sb} {fresh : List ℕ} (hst : TreeStep c.sb s' [] fresh) :
    Ok { c with sb := s' } R D := hok.away hst fun _ _ => not_mem_nil

/-- A number was used up. -/
lemma Ok.skip (hok : Ok c R D) : Ok { c with next := c.next + 1 } R D :=
  { hok with lt := fun h => (hok.lt h).trans (Nat.lt_succ_self _) }

/-- Writes were counted. -/
lemma Ok.counted (hok : Ok c R D) (writes : WriteSite → ℕ) (log : List Node) :
    Ok { c with writes := writes, log := log } R D := { hok with }

/-! ### Creating and deleting nodes -/

/-- A node was created at the free block `w`. -/
structure Created (s s' : Sb) (w : ℕ) : Prop where
  step : TreeStep s s' [] [w]
  nodes : s'.nodes = Function.update s.nodes w (some { Node.zero with block := w })
  fails : s'.allocFails = s.allocFails

/-- Nothing keeps `nkfs_btree_node_create` from making `m` nodes. -/
def Heap.CanCreate (c : Heap) (m : ℕ) : Prop := c.sb.Ample m ∧ ∀ i, c.outcome .create i = .done

lemma Ok.next_none (hok : Ok c R D) : c.objs c.next = none := by
  by_contra hne
  obtain ⟨o, ho⟩ := Option.ne_none_iff_exists'.mp hne
  exact absurd (hok.lt ho) (lt_irrefl _)

/-- Memory is taken and given back. -/
lemma nodeFree_alloced (hnone : c.objs c.next = none) :
    nodeFree c.next (c.alloced node) = .ok ((), { c with next := c.next + 1 }) := by
  have hobj : (c.alloced node).objs c.next = some ⟨node, 1⟩ := setObj_self _
  rw [nodeFree, run_bind_ok (getObj_run hobj)]
  refine congrArg Except.ok (Prod.ext rfl ?_)
  show ({ c with objs := update (update c.objs c.next (some ⟨node, 1⟩)) c.next none
                 next := c.next + 1 } : Heap) = _
  rw [update_idem, ← hnone, update_eq_self]

lemma setNode_alloced (node' : Node) : setNode c.next node' (c.alloced node) = .ok ((), c.alloced node') := by
  have hobj : (c.alloced node).objs c.next = some ⟨node, 1⟩ := setObj_self _
  rw [setNode, run_bind_ok (getObj_run hobj)]
  refine congrArg Except.ok (Prod.ext rfl ?_)
  show ({ c with objs := update (update c.objs c.next (some ⟨node, 1⟩)) c.next _
                 next := c.next + 1 } : Heap) = _
  rw [update_idem]
  rfl

/-- A write that fails: the cluster is not there, or it is changed but not on the device. -/
lemma nodeWrite_fails {site : WriteSite} (hout : c.outcome site (c.writes site) ≠ .done) (h : c.Has n node)
    (ho : c.sb.Owned node.block) (hp : node.AllPages) : ∃ s', (s' = c.sb ∨ s' = c.sb.writeNode node) ∧
      nodeWrite site n c = .ok (.error .eio,
        { c with sb := s', writes := update c.writes site (c.writes site + 1) }) := by
  let c₁ : Heap := { c with writes := update c.writes site (c.writes site + 1) }
  rw [nodeWrite, run_bind_ok (getNode_run h), run_get, run_bind_ok (show (set c₁ : P PUnit) c = .ok ((), c₁) from rfl)]
  cases hcase : c.outcome site (c.writes site) with
  | done => exact absurd hcase hout
  | noCluster =>
    have hcheck : checkBlock node.block c₁.sb = .ok ((), c₁.sb) := by
      rw [checkBlock, run_get, if_neg (not_or.mpr ⟨ho.ne_zero, not_le.mpr ho.lt⟩)]
      rfl
    exact ⟨c.sb, .inl rfl, run_bind_ok (onSb_run hcheck)⟩
  | notSynced => exact ⟨_, .inr rfl, run_bind_ok (onSb_run (c := c₁) (Nkfs.nodeWrite_run ho hp))⟩

/-- The error path of `nkfs_btree_node_create` after the block was allocated. -/
lemma createUndo_run (hok : Ok c R D) {w : ℕ} (hw : c.nodes w = none) (ho : c.sb.Owned w) :
    ((do nodeDelete c.next; nodeFree c.next; return none : P (Option ℕ))
      (c.alloced { Node.zero with block := w })) =
      .ok (none, { c with sb := c.sb.dropNode { Node.zero with block := w }, next := c.next + 1 }) := by
  let node : Node := { Node.zero with block := w }
  have hhas : (c.alloced node).Has c.next node := ⟨_, setObj_self _, rfl⟩
  have hremove : nodesRemove c.next (c.alloced node) = .ok ((), c.alloced node) := by
    rw [nodesRemove, run_bind_ok (getNode_run hhas), run_get, if_neg (show node.block ≠ 0 from ho.ne_zero)]
    simp only [show (c.alloced node).nodes node.block = none from hw]
    rfl
  let c₁ : Heap := { c.alloced node with sb := c.sb.dropNode node }
  have hdrop : onSb (Nkfs.nodeDelete node) (c.alloced node) = .ok ({ node with block := 0 }, c₁) :=
    onSb_run (Nkfs.nodeDelete_run (n := node) ho.lt ho.marked)
  let c₂ : Heap := { c with sb := c.sb.dropNode node }
  have hset : setNode c.next { node with block := 0 } c₁ = .ok ((), c₂.alloced { node with block := 0 }) :=
    setNode_alloced (c := c₂) _
  have hdelete : nodeDelete c.next (c.alloced node) = .ok ((), c₂.alloced { node with block := 0 }) := by
    rw [nodeDelete, run_bind_ok hremove, run_bind_ok (getNode_run hhas), run_bind_ok hdrop]
    exact hset
  have hfree : nodeFree c₂.next (c₂.alloced { node with block := 0 }) = .ok ((), { c₂ with next := c₂.next + 1 }) :=
    nodeFree_alloced hok.next_none
  rw [run_bind_ok hdelete, run_bind_ok hfree]
  rfl

/-- All that `nkfs_btree_node_create` can do: make a node at a free block, or fail and leave nothing behind. -/
lemma nodeCreate_run (hok : Ok c R ∅) (hz : c.sb.bm 0 = true) : Runs nodeCreate c fun r c' =>
    (∃ w n, r = some n ∧ Created c.sb c'.sb w ∧ Ok c' (n ::ₘ R) ∅ ∧ c'.Has n { Node.zero with block := w } ∧
      Logged c c' [{ Node.zero with block := w }] ∧ Same c c' R) ∨
    (r = none ∧ TreeStep c.sb c'.sb [] [] ∧ Ok c' R ∅ ∧ Logged c c' [] ∧ Same c c' R ∧ ¬ c.CanCreate 1) := by
  have hsame : ∀ {c' : Heap}, c'.objs = c.objs → Same c c' R := fun hobjs x _ y ⟨o, ho, hy⟩ =>
    ⟨o, by rw [hobjs]; exact ho, hy⟩
  unfold nodeCreate
  refine Runs.step (onSb_run (nextAlloc_run c.sb)) ?_
  cases hfail : !c.sb.env.fails c.sb.tick with
  | false =>
    have hst := TreeStep.tried c.sb false
    refine Runs.pure (.inr ⟨rfl, hst, hok.onSb hst, ⟨rfl, (append_nil _).symm, rfl⟩, hsame rfl, ?_⟩)
    rintro ⟨hample, -⟩
    rw [hample.fails] at hfail
    cases hfail
  | true =>
    rw [if_pos rfl]
    let c₁ : Heap := { c with sb := c.sb.tried true }
    have hst₁ := TreeStep.tried c.sb true
    have hok₁ : Ok c₁ R ∅ := hok.onSb hst₁
    have halloc : nodeAlloc Node.zero c₁ = .ok (c.next, c₁.alloced Node.zero) := rfl
    refine Runs.step halloc ?_
    obtain ⟨r, s₂, hrun, hpost⟩ := blockAlloc_spec (c.sb.tried true)
    refine Runs.step (onSb_run hrun) ?_
    rcases hpost with ⟨w, rfl, hw, hlt, rfl⟩ | ⟨rfl, rfl, hfull⟩
    swap
    · let c₂ : Heap := { c with sb := (c.sb.tried true).tried false }
      have hst₂ : TreeStep c.sb c₂.sb [] [] := hst₁.trans (TreeStep.tried _ false) fun x hx => .inl hx
      refine Runs.step (nodeFree_alloced (c := c₂) hok.next_none) (Runs.pure (.inr ⟨rfl, hst₂,
        (hok.onSb hst₂).skip, ⟨rfl, (append_nil _).symm, rfl⟩, hsame rfl, ?_⟩))
      exact fun hcan => hfull ⟨hcan.1.fails, hcan.1.covers, hcan.1.free⟩
    let node : Node := { Node.zero with block := w }
    let c₂ : Heap := { c with sb := ((c.sb.tried true).tried true).mark w true }
    have hst₂ : TreeStep c.sb c₂.sb [] [w] :=
      (hst₁.trans (TreeStep.tried _ true) fun x hx => .inl hx).trans (TreeStep.mark hw hlt) fun x hx => .inl hx
    have ho : c₂.sb.Owned w := hst₂.owned_fresh hz (mem_singleton_self w)
    have hset : setNode c.next node { c₁.alloced Node.zero with sb := c₂.sb } = .ok ((), c₂.alloced node) :=
      setNode_alloced (c := c₂) node
    -- a block that is free is not in the cache
    have hfree : c.nodes w = none := by
      by_contra hne
      obtain ⟨x, hx⟩ := Option.ne_none_iff_exists'.mp hne
      have hmark := hok.marked hx
      rw [(hst₂.free w (mem_singleton_self w)).1] at hmark
      cases hmark
    have hhas : (c₂.alloced node).Has c.next node := ⟨_, setObj_self _, rfl⟩
    refine Runs.step hset ?_
    by_cases hout : c.outcome .create (c.writes .create) = .done
    · let c₃ := c₂.written .create node
      have hwrite : nodeWrite .create c.next (c₂.alloced node) = .ok (.ok (), c₃.alloced node) :=
        nodeWrite_done hout hhas ho fun _ => rfl
      have hst₃ : TreeStep c.sb c₃.sb [] [w] := hst₂.andWrite (.inr (mem_singleton_self w))
      have hfree₃ : c₃.nodes node.block = none := hfree
      obtain ⟨c₄, hins, hder⟩ := nodesInsert_new hfree₃
      refine Runs.step hwrite (Runs.step hins ?_)
      rw [if_neg fun h => h rfl]
      refine Runs.step hder (Runs.pure (.inl ⟨w, c.next, rfl, ⟨hst₃, rfl, rfl⟩, ?_, added_has_self,
        ⟨rfl, rfl, rfl⟩, fun x hx y hy => ?_⟩))
      · exact ((hok.onSb hst₃).counted _ _).added ho.ne_zero hfree (hst₃.owned_fresh hz
          (mem_singleton_self w)).marked Sb.writeNode_self
      · exact added_same (c := c₃) ((hok.onSb hst₃).counted _ _) x hx y hy
    · obtain ⟨s₃, hs₃, hwrite⟩ := nodeWrite_fails (c := c₂.alloced node) hout hhas ho fun _ => rfl
      have hst₃ : TreeStep c.sb s₃ [] [w] := by
        rcases hs₃ with rfl | rfl
        · exact hst₂
        · exact hst₂.andWrite (.inr (mem_singleton_self w))
      let c₃ : Heap := { c with
        sb := s₃, writes := update c.writes .create (c.writes .create + 1) }
      have hok₃ : Ok c₃ R ∅ := (hok.onSb hst₃).counted _ _
      have hundo := createUndo_run hok₃ hfree (hst₃.owned_fresh hz (mem_singleton_self w))
      refine Runs.step hwrite (Runs.intro hundo (.inr ⟨rfl, TreeStep.dropNode (by exact hst₃), ?_,
        ⟨rfl, (append_nil _).symm, rfl⟩, hsame rfl, fun hcan => hout (hcan.2 _)⟩))
      exact ((hok.onSb (TreeStep.dropNode (n := node) (by exact hst₃))).counted _ c.log).skip

lemma Ok.alloced (hok : Ok c R D) (h0 : node.block = 0) : Ok (c.alloced node) (c.next ::ₘ R) D :=
  hok.new (c.alloced node) rfl rfl rfl (fun _ _ => (or_iff_left fun h => h.2.1 (h.2.2.trans h0)).symm)
    (fun hb => absurd h0 hb) (fun hb => absurd h0 hb) hok.active

/-- `__nkfs_btree_node_free` of a node that never had a block. -/
lemma nodeFree_run (hok : Ok c (n ::ₘ R) D) (hn : n ∉ R) (h : c.Has n node) (h0 : node.block = 0) :
    Runs (nodeFree n) c fun _ c' => Ok c' R D ∧ Quiet c c' ∧ Same c c' R := by
  have hdrop := hok.drop hn h rfl rfl
  simp only [h0, if_true] at hdrop
  obtain ⟨o, ho, -⟩ := h
  refine Runs.step (getObj_run ho) (Runs.intro rfl ⟨hdrop, ⟨rfl, rfl, rfl, rfl, rfl⟩, fun x hx y hy => ?_⟩)
  have hne : x ≠ n := fun heq => hn (heq ▸ hx)
  exact (has_setObj_other hne _).mpr hy

/-- `nkfs_btree_node_delete`: the block is given back and the node leaves the cache; it stays in memory as
long as there are references. -/
lemma nodeDelete_run (hok : Ok c R D) (h : c.Has n node) (ho : c.sb.Owned node.block) :
    Runs (nodeDelete n) c fun _ c' => Ok c' R D ∧ c'.sb = c.sb.dropNode node ∧ Logged c c' [] ∧
      c'.Has n { node with block := 0 } ∧ ∀ x ≠ n, ∀ y, c.Has x y → c'.Has x y := by
  obtain ⟨o, hobj, rfl⟩ := h
  have hcached := (hok.cached o.node.block n).mpr ⟨ho.ne_zero, o.node, ⟨o, hobj, rfl⟩, rfl⟩
  let c₁ : Heap := { c with nodes := update c.nodes o.node.block none, nodesActive := c.nodesActive - 1 }
  have hremove : nodesRemove n c = .ok ((), c₁) := by
    rw [nodesRemove_eq ⟨o, hobj, rfl⟩ fun _ => hcached]
    simp only [ho.ne_zero, if_false]
    rfl
  let c₂ : Heap := { c₁ with sb := c.sb.dropNode o.node }
  have hdrop : onSb (Nkfs.nodeDelete o.node) c₁ = .ok ({ o.node with block := 0 }, c₂) :=
    onSb_run (Nkfs.nodeDelete_run ho.lt ho.marked)
  have hobj₂ : c₂.objs n = some o := hobj
  refine Runs.step hremove (Runs.step (getNode_run (c := c₁) ⟨o, hobj, rfl⟩) (Runs.step hdrop
    (Runs.step (getObj_run hobj₂) (Runs.intro rfl ?_))))
  obtain ⟨hsome, hcounts⟩ := hok.uncached ⟨o, hobj, rfl⟩ (if_neg ho.ne_zero).symm (if_neg ho.ne_zero).symm
  refine ⟨?_, rfl, ⟨rfl, (append_nil _).symm, rfl⟩, has_setObj_self, fun x hx y hy => (has_setObj_other hx _).mpr hy⟩
  refine hok.replace (n := n) (fun x hx => setObj_other hx _) (fun _ _ => rfl)
    (iff_of_true ((hok.live n).mpr ⟨o, hobj⟩) ⟨_, setObj_self _⟩) ?_ le_rfl
    (fun b x hx => (hsome b x).trans (and_iff_right hx)) (fun b => ?_) (fun b x hx => ?_) (fun x hx y hy hxD _ => ⟨hxD, ?_⟩)
    (fun y hy _ hb => absurd (congrArg Node.block (hy.unique has_setObj_self)) hb) hcounts
  · intro q hq
    rw [setObj_self, Option.some.injEq] at hq
    have href : o.ref = R.count n := hok.ref hobj
    rw [← hq]
    exact ⟨href, hok.lt hobj⟩
  · rw [has_iff (setObj_self (some { o with node := { o.node with block := 0 } }))]
    exact iff_of_false (fun hx => ((hsome b n).mp hx).1 rfl) fun h => h.1 h.2.symm
  · obtain ⟨hne, hx⟩ := (hsome b x).mp hx
    refine (update_of_ne (fun heq => hne ?_) ..).trans (hok.marked hx)
    exact Option.some.inj ((heq ▸ hx).symm.trans hcached)
  · exact update_of_ne (fun heq => hx (hok.unique ⟨o, hobj, rfl⟩ hy ho.ne_zero heq)) ..

/-- Only nodes in memory can differ from what was written. -/
lemma Ok.clean (hok : Ok c R D) (hD : ∀ x ∈ D, x ∉ R) : Ok c R ∅ :=
  { hok with synced := fun h _ => hok.synced h fun hx => hD _ hx (hok.mem h) }

/-- A node is deleted and its last reference dropped. -/
lemma deleteDeref_run {β : Type} {f : Unit → P β} {Q : β → Heap → Prop} (hok : Ok c (n ::ₘ R) D) (hn : n ∉ R)
    (h : c.Has n node) (ho : c.sb.Owned node.block)
    (hf : ∀ c', Ok c' R D → c'.sb = c.sb.dropNode node → Logged c c' [] → Same c c' R → Runs (f ()) c' Q) :
    Runs (nodeDelete n >>= fun _ => nodeDeref n >>= f) c Q := by
  refine Runs.bind (nodeDelete_run hok h ho) fun _ c₁ ⟨hok₁, hsb₁, hl₁, _, hother⟩ => ?_
  refine Runs.bind (nodeDeref_run hok₁) fun _ c₂ ⟨hok₂, hq₂, hs₂⟩ => hf c₂ hok₂ (hq₂.sb.trans hsb₁) (hl₁.quiet hq₂) ?_
  exact fun x hx y hy => hs₂ x hx y (hother x (fun heq => hn (heq ▸ hx)) y hy)

/-! ### The reference of a cursor -/

/-- The references `F` and that of the node a loop has come to; the first node is not the loop's. -/
def cursor (first n : ℕ) (F : Multiset ℕ) : Multiset ℕ := if n = first then F else n ::ₘ F

lemma cursor_self (first : ℕ) (F : Multiset ℕ) : cursor first first F = F := if_pos rfl

lemma cursor_of_ne {first : ℕ} (hn : n ≠ first) (F : Multiset ℕ) : cursor first n F = n ::ₘ F := if_neg hn

lemma cursor_cons (first n m : ℕ) (F : Multiset ℕ) : cursor first n (m ::ₘ F) = m ::ₘ cursor first n F := by
  unfold cursor
  split_ifs
  · rfl
  · exact Multiset.cons_swap n m F

lemma mem_cursor {first x : ℕ} {F : Multiset ℕ} (hx : x ∈ F) : x ∈ cursor first n F := by
  unfold cursor
  split_ifs
  · exact hx
  · exact Multiset.mem_cons_of_mem hx

lemma derefUnless_run {first : ℕ} {F : Multiset ℕ} (hok : Ok c (cursor first n F) D) :
    Runs (derefUnless first n) c fun _ c' => Ok c' F D ∧ Quiet c c' ∧ Same c c' F := by
  unfold derefUnless
  by_cases hn : n = first
  · rw [cursor, if_pos hn] at hok
    rw [if_neg fun h => h hn]
    exact Runs.pure ⟨hok, Quiet.refl c, fun _ _ _ h => h⟩
  · rw [cursor_of_ne hn] at hok
    rw [if_pos hn]
    exact nodeDeref_run hok

end

end Nkfs.Refs
