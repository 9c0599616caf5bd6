import Mathlib

/-!
# Arrays of slots and their in-order reading

A node of a search tree keeps separators `f 0, .., f (n - 1)` and parts `g 0, .., g n` in slots.
`inorder g f n` reads them from left to right. It can be cut at any part (`inorder_split`), and
inserting a slot is inserting into that reading (`inorder_insert`). Separators are lists, so that
the reading without separators is a special case.
-/

namespace Lib.Slots

open List

variable {α : Type*} {g p f q : ℕ → List α} {i k c n : ℕ}

/-- Slots `i, .., n - 1` moved up by one and `x` put at `i`. -/
def insertSlot {β : Type*} (s : ℕ → β) (i n : ℕ) (x : β) : ℕ → β := fun j =>
  if j < i then s j else if j = i then x else if j ≤ n then s (j - 1) else s j

/-- Slots `i + 1, .., n - 1` moved down by one. -/
def removeSlot {β : Type*} (s : ℕ → β) (i n : ℕ) : ℕ → β := fun j =>
  if j < i then s j else if j + 1 < n then s (j + 1) else s j

section insertSlot

variable {β : Type*} {s : ℕ → β} {j : ℕ} {x : β}

lemma insertSlot_of_lt (h : j < i) : insertSlot s i n x j = s j := if_pos h

lemma insertSlot_self : insertSlot s i n x i = x := by
  rw [insertSlot, if_neg (lt_irrefl i), if_pos rfl]

lemma insertSlot_succ (h : i ≤ j) (hj : j < n) : insertSlot s i n x (j + 1) = s j := by
  rw [insertSlot, if_neg (by omega), if_neg (by omega), if_pos (by omega), Nat.add_sub_cancel]

lemma removeSlot_of_lt (h : j < i) : removeSlot s i n j = s j := if_pos h

lemma removeSlot_of_ge (h : i ≤ j) (hj : j + 1 < n) : removeSlot s i n j = s (j + 1) := by
  rw [removeSlot, if_neg (by omega), if_pos hj]

end insertSlot

/-- The reading up to part `i`. -/
def upto (g f : ℕ → List α) : ℕ → List α
  | 0 => []
  | i + 1 => upto g f i ++ g i ++ f i

/-- The reading after part `i`, for `c` separators and parts. -/
def after (g f : ℕ → List α) (i : ℕ) : ℕ → List α
  | 0 => []
  | c + 1 => after g f i c ++ f (i + c) ++ g (i + c + 1)

/-- Parts and separators from left to right. -/
def inorder (g f : ℕ → List α) (n : ℕ) : List α := upto g f n ++ g n

lemma inorder_add (i : ℕ) : ∀ c, inorder g f (i + c) = upto g f i ++ g i ++ after g f i c
  | 0 => by simp [inorder, after]
  | c + 1 => by
    have ih := inorder_add i c
    rw [inorder] at ih
    rw [inorder, ← add_assoc, upto, ih, after]
    simp only [append_assoc]

lemma inorder_split (h : i ≤ n) : inorder g f n = upto g f i ++ g i ++ after g f i (n - i) := by
  have hadd := inorder_add (g := g) (f := f) i (n - i)
  rwa [Nat.add_sub_cancel' h] at hadd

lemma upto_congr : ∀ {i}, (∀ j < i, g j = p j) → (∀ j < i, f j = q j) → upto g f i = upto p q i
  | 0, _, _ => rfl
  | i + 1, hg, hf => by
    rw [upto, upto, upto_congr (fun j hj => hg j (hj.trans i.lt_succ_self))
      (fun j hj => hf j (hj.trans i.lt_succ_self)), hg i i.lt_succ_self, hf i i.lt_succ_self]

/-- The reading after a part depends on the slots after it only, wherever they stand. -/
lemma after_congr : ∀ {c}, (∀ j < c, q (k + j) = f (i + j)) →
    (∀ j < c, p (k + j + 1) = g (i + j + 1)) → after p q k c = after g f i c
  | 0, _, _ => rfl
  | c + 1, hf, hg => by
    rw [after, after, after_congr (fun j hj => hf j (hj.trans c.lt_succ_self))
      (fun j hj => hg j (hj.trans c.lt_succ_self)), hf c c.lt_succ_self, hg c c.lt_succ_self]

lemma after_succ (i : ℕ) : ∀ c, after g f i (c + 1) = f i ++ g (i + 1) ++ after g f (i + 1) c
  | 0 => by simp [after]
  | c + 1 => by
    rw [after, after_succ i c, after, show i + (c + 1) = i + 1 + c by omega]
    simp only [append_assoc]

lemma inorder_congr (hg : ∀ j ≤ n, g j = p j) (hf : ∀ j < n, f j = q j) : inorder g f n = inorder p q n := by
  rw [inorder, inorder, upto_congr (fun j hj => hg j hj.le) hf, hg n le_rfl]

/-- Another content of one part. -/
lemma inorder_update (h : i ≤ n) (hg : ∀ j ≤ n, j ≠ i → p j = g j) :
    inorder p f n = upto g f i ++ p i ++ after g f i (n - i) := by
  rw [inorder_split h]
  congr 1
  · congr 1
    exact upto_congr (fun j hj => hg j (by omega) hj.ne) fun _ _ => rfl
  · exact after_congr (fun _ _ => rfl) fun j hj => hg _ (by omega) (by omega)

/-- One part becomes two, with a new separator between them. -/
lemma inorder_insert (h : i ≤ n) (hflt : ∀ j < i, q j = f j)
    (hfge : ∀ j, i ≤ j → j < n → q (j + 1) = f j) (hglt : ∀ j < i, p j = g j)
    (hgge : ∀ j, i < j → j ≤ n → p (j + 1) = g j) :
    inorder p q (n + 1) = upto g f i ++ (p i ++ q i ++ p (i + 1)) ++ after g f i (n - i) := by
  rw [inorder_split (h.trans n.le_succ), Nat.succ_sub h, after_succ, upto_congr (p := g) (q := f) hglt hflt]
  have htail : after p q (i + 1) (n - i) = after g f i (n - i) :=
    after_congr (fun j hj => by rw [Nat.add_right_comm, hfge _ (by omega) (by omega)])
      fun j hj => by rw [Nat.add_right_comm i 1 j, hgge _ (by omega) (by omega)]
  rw [htail]
  simp only [append_assoc]

lemma mem_upto {x : α} : ∀ {i}, x ∈ upto g f i ↔ ∃ j < i, x ∈ g j ∨ x ∈ f j
  | 0 => by simp [upto]
  | i + 1 => by
    rw [upto, mem_append, mem_append, mem_upto]
    constructor
    · rintro ((⟨j, hj, hx⟩ | hx) | hx)
      · exact ⟨j, hj.trans i.lt_succ_self, hx⟩
      · exact ⟨i, i.lt_succ_self, Or.inl hx⟩
      · exact ⟨i, i.lt_succ_self, Or.inr hx⟩
    · rintro ⟨j, hj, hx⟩
      rcases Nat.lt_succ_iff_lt_or_eq.mp hj with hlt | rfl
      · exact Or.inl (Or.inl ⟨j, hlt, hx⟩)
      · rcases hx with hx | hx
        · exact Or.inl (Or.inr hx)
        · exact Or.inr hx

lemma mem_inorder {x : α} : x ∈ inorder g f n ↔ (∃ j ≤ n, x ∈ g j) ∨ ∃ j < n, x ∈ f j := by
  rw [inorder, mem_append, mem_upto]
  constructor
  · rintro (⟨j, hj, hx | hx⟩ | hx)
    · exact Or.inl ⟨j, hj.le, hx⟩
    · exact Or.inr ⟨j, hj, hx⟩
    · exact Or.inl ⟨n, le_rfl, hx⟩
  · rintro (⟨j, hj, hx⟩ | ⟨j, hj, hx⟩)
    · rcases hj.lt_or_eq with hlt | rfl
      · exact Or.inl ⟨j, hlt, Or.inl hx⟩
      · exact Or.inr hx
    · exact Or.inl ⟨j, hj, Or.inr hx⟩

/-- The reading holds the parts and the separators. -/
lemma inorder_perm (g f : ℕ → List α) (n : ℕ) :
    (inorder g f n).Perm ((range (n + 1)).flatMap g ++ (range n).flatMap f) := by
  have hupto : ∀ i, (upto g f i).Perm ((range i).flatMap g ++ (range i).flatMap f) := by
    intro i
    induction i with
    | zero => exact List.Perm.refl _
    | succ i ih =>
      rw [upto, range_succ, flatMap_append, flatMap_append, flatMap_singleton,
        flatMap_singleton, append_assoc, append_assoc]
      refine (ih.append_right _).trans ?_
      rw [append_assoc]
      refine List.Perm.append_left _ ?_
      rw [← append_assoc, ← append_assoc]
      exact List.Perm.append_right _ perm_append_comm
  rw [inorder, range_succ, flatMap_append, flatMap_singleton, append_assoc]
  refine ((hupto n).append_right _).trans ?_
  rw [append_assoc]
  exact List.Perm.append_left _ perm_append_comm

end Lib.Slots
