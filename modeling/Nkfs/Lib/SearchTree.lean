import Mathlib

/-!
# Search trees with foreign rebalancing

Binary trees in which every element is found by comparing keys on the way down. The walk (`search`)
and the place of a new leaf (`link`) are given by the caller's comparison, which may fault. What
recolours and rotates is not fixed: a `Balancer` is any pair of operations that keep the sequence of
the elements (`toList`), up to the element erased. On a tree whose sequence has increasing keys the
walk finds exactly the elements (`search_of_mem`, `search_of_notMem`), and linking keeps the order
(`link_spec`).
-/

namespace Lib.SearchTree

open List

variable {α κ ε : Type}

/-- A binary tree; nodes have a colour. -/
inductive RbTree (α : Type) where
  | nil
  | node (red : Bool) (left : RbTree α) (a : α) (right : RbTree α)

/-- The elements from left to right. -/
def RbTree.toList : RbTree α → List α
  | nil => []
  | node _ l a r => l.toList ++ a :: r.toList

/-- The walk down from the root; `cmp a` compares what is searched with the element `a`. -/
def RbTree.search (cmp : α → Except ε Ordering) : RbTree α → Except ε (Option α)
  | nil => .ok none
  | node _ l a r =>
    match cmp a with
    | .error e => .error e
    | .ok .lt => l.search cmp
    | .ok .gt => r.search cmp
    | .ok .eq => .ok (some a)

/-- The tree with a new red leaf where the walk ends; unchanged if the walk finds an element. -/
def RbTree.link (cmp : α → Except ε Ordering) (x : α) : RbTree α → Except ε (RbTree α)
  | nil => .ok (node true nil x nil)
  | node c l a r =>
    match cmp a with
    | .error e => .error e
    | .ok .lt => (l.link cmp x).map fun l' => node c l' a r
    | .ok .gt => (r.link cmp x).map fun r' => node c l a r'
    | .ok .eq => .ok (node c l a r)

/-- Rebalancing after a leaf was linked, and removal with rebalancing. -/
structure Balancer (α : Type) [DecidableEq α] where
  insertColor : α → RbTree α → RbTree α
  erase : α → RbTree α → RbTree α
  toList_insertColor : ∀ a t, (insertColor a t).toList = t.toList
  toList_erase : ∀ a t, (erase a t).toList = t.toList.erase a

/-- The tree without left subtrees that has the given elements. -/
def RbTree.ofList : List α → RbTree α
  | [] => nil
  | a :: l => node false nil a (ofList l)

lemma RbTree.toList_ofList (l : List α) : (ofList l).toList = l := by
  induction l with
  | nil => rfl
  | cons a l ih => rw [ofList, toList, ih, toList, nil_append]

/-- A balancer that does not balance. -/
def Balancer.plain [DecidableEq α] : Balancer α where
  insertColor _ t := t
  erase a t := .ofList (t.toList.erase a)
  toList_insertColor _ _ := rfl
  toList_erase _ _ := RbTree.toList_ofList _

section order

variable [LinearOrder κ] {key : α → κ} {cmp : α → Except ε Ordering} {t : RbTree α} {k : κ} {a x : α}

/-- Increasing keys from left to right. -/
def RbTree.Sorted (key : α → κ) (t : RbTree α) : Prop := t.toList.Pairwise fun a b => key a < key b

lemma RbTree.Sorted.congr {key' : α → κ} (h : t.Sorted key) (hkey : ∀ a ∈ t.toList, key' a = key a) :
    t.Sorted key' :=
  h.imp_of_mem fun {a b} ha hb hab => by rwa [hkey a ha, hkey b hb]

lemma RbTree.Sorted.nodup (h : t.Sorted key) : t.toList.Nodup :=
  List.Pairwise.imp (fun hab heq => (heq ▸ hab).false) h

/-- On the elements of the tree `cmp` compares `k` with their keys. -/
def Compares (cmp : α → Except ε Ordering) (key : α → κ) (k : κ) (t : RbTree α) : Prop :=
  ∀ a ∈ t.toList, cmp a = .ok (compare k (key a))

variable {c : Bool} {l r : RbTree α}

lemma RbTree.sorted_node : (node c l a r).Sorted key ↔ l.Sorted key ∧ r.Sorted key ∧
    (∀ b ∈ l.toList, key b < key a) ∧ ∀ b ∈ r.toList, key a < key b := by
  rw [Sorted, toList, pairwise_append, pairwise_cons]
  constructor
  · rintro ⟨hl, ⟨ha, hr⟩, hlr⟩
    exact ⟨hl, hr, fun b hb => hlr b hb a (mem_cons_self ..), ha⟩
  · rintro ⟨hl, hr, hla, har⟩
    refine ⟨hl, ⟨har, hr⟩, fun b hb d hd => ?_⟩
    rcases mem_cons.mp hd with rfl | hd
    · exact hla b hb
    · exact (hla b hb).trans (har d hd)

lemma Compares.node (h : Compares cmp key k (.node c l a r)) :
    cmp a = .ok (compare k (key a)) ∧ Compares cmp key k l ∧ Compares cmp key k r := by
  refine ⟨h a ?_, fun b hb => h b ?_, fun b hb => h b ?_⟩ <;> rw [RbTree.toList]
  · exact mem_append_right _ (mem_cons_self ..)
  · exact mem_append_left _ hb
  · exact mem_append_right _ (mem_cons_of_mem _ hb)

/-- The walk finds the element with the key. -/
lemma RbTree.search_of_mem (hs : t.Sorted key) (hc : Compares cmp key k t) (ha : a ∈ t.toList)
    (hk : key a = k) : t.search cmp = .ok (some a) := by
  induction t with
  | nil => cases ha
  | node c l b r ihl ihr =>
    obtain ⟨hl, hr, hlb, hbr⟩ := sorted_node.mp hs
    obtain ⟨hcb, hcl, hcr⟩ := hc.node
    rw [search, hcb]
    rw [toList, mem_append, mem_cons] at ha
    rcases ha with ha | rfl | ha
    · rw [compare_lt_iff_lt.mpr (hk ▸ hlb a ha)]
      exact ihl hl hcl ha
    · rw [compare_eq_iff_eq.mpr hk.symm]
    · rw [compare_gt_iff_gt.mpr (hk ▸ hbr a ha)]
      exact ihr hr hcr ha

/-- The walk ends at a leaf if no element has the key. -/
lemma RbTree.search_of_notMem (hc : Compares cmp key k t) (hk : ∀ a ∈ t.toList, key a ≠ k) :
    t.search cmp = .ok none := by
  induction t with
  | nil => rfl
  | node c l b r ihl ihr =>
    obtain ⟨hcb, hcl, hcr⟩ := hc.node
    rw [toList] at hk
    have hkb := hk b (mem_append_right _ (mem_cons_self ..))
    rw [search, hcb]
    rcases lt_trichotomy k (key b) with hlt | heq | hgt
    · rw [compare_lt_iff_lt.mpr hlt]
      exact ihl hcl fun a ha => hk a (mem_append_left _ ha)
    · exact absurd heq.symm hkb
    · rw [compare_gt_iff_gt.mpr hgt]
      exact ihr hcr fun a ha => hk a (mem_append_right _ (mem_cons_of_mem _ ha))

/-- Linking an element with a new key adds it and keeps the order. -/
lemma RbTree.link_spec (hs : t.Sorted key) (hc : Compares cmp key (key x) t)
    (hx : ∀ a ∈ t.toList, key a ≠ key x) :
    ∃ t', t.link cmp x = .ok t' ∧ t'.toList.Perm (x :: t.toList) ∧ t'.Sorted key := by
  induction t with
  | nil => exact ⟨_, rfl, List.Perm.refl _, pairwise_singleton ..⟩
  | node c l b r ihl ihr =>
    obtain ⟨hl, hr, hlb, hbr⟩ := sorted_node.mp hs
    obtain ⟨hcb, hcl, hcr⟩ := hc.node
    rw [toList] at hx
    have hxb := hx b (mem_append_right _ (mem_cons_self ..))
    rw [link, hcb]
    rcases lt_trichotomy (key x) (key b) with hlt | heq | hgt
    · obtain ⟨l', hl', hperm, hsl'⟩ := ihl hl hcl fun a ha => hx a (mem_append_left _ ha)
      rw [compare_lt_iff_lt.mpr hlt, hl']
      refine ⟨node c l' b r, rfl, hperm.append_right _, sorted_node.mpr ⟨hsl', hr, fun a ha => ?_, hbr⟩⟩
      rcases mem_cons.mp (hperm.mem_iff.mp ha) with rfl | ha
      · exact hlt
      · exact hlb a ha
    · exact absurd heq.symm hxb
    · obtain ⟨r', hr', hperm, hsr'⟩ :=
        ihr hr hcr fun a ha => hx a (mem_append_right _ (mem_cons_of_mem _ ha))
      rw [compare_gt_iff_gt.mpr hgt, hr']
      refine ⟨node c l b r', rfl, ?_, sorted_node.mpr ⟨hl, hsr', hlb, fun a ha => ?_⟩⟩
      · exact ((hperm.cons b).append_left l.toList).trans
          (((List.Perm.swap x b _).append_left _).trans perm_middle)
      · rcases mem_cons.mp (hperm.mem_iff.mp ha) with rfl | ha
        · exact hgt
        · exact hbr a ha

lemma Balancer.sorted_insertColor [DecidableEq α] (rb : Balancer α) (h : t.Sorted key) :
    (rb.insertColor a t).Sorted key := by
  rw [RbTree.Sorted, rb.toList_insertColor]
  exact h

lemma Balancer.sorted_erase [DecidableEq α] (rb : Balancer α) (h : t.Sorted key) :
    (rb.erase a t).Sorted key := by
  rw [RbTree.Sorted, rb.toList_erase]
  exact h.sublist erase_sublist

end order

end Lib.SearchTree
