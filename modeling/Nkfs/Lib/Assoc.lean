import Mathlib

/-!
# Sorted association lists

A finite map as the list of its pairs in strictly increasing order of their keys (`Sorted`). `find`
reads the list as a map; `put` and `del` are the updates, defined by filtering, so that they can be
computed part by part on a list cut at the key (`put_append`, `del_append`, `find_append_of_below`). On
sorted lists they are the updates of the map (`find_put`, `find_del`).
-/

namespace Lib.Assoc

open List

variable {K V : Type*} [LinearOrder K]

/-- Strictly increasing keys. -/
def Sorted (l : List (K × V)) : Prop := l.Pairwise fun x y => x.1 < y.1

/-- Every key of the list is below `k`. -/
def Below (l : List (K × V)) (k : K) : Prop := ∀ x ∈ l, x.1 < k

/-- Every key of the list is above `k`. -/
def Above (k : K) (l : List (K × V)) : Prop := ∀ x ∈ l, k < x.1

/-- The value of a key. -/
def find (l : List (K × V)) (k : K) : Option V := (l.find? fun x => x.1 = k).map Prod.snd

/-- The list with the pair `(k, v)` in place of whatever `k` had. -/
def put (k : K) (v : V) (l : List (K × V)) : List (K × V) :=
  l.filter (fun x => x.1 < k) ++ (k, v) :: l.filter fun x => k < x.1

/-- The list without `k`. -/
def del (k : K) (l : List (K × V)) : List (K × V) := l.filter fun x => x.1 ≠ k

variable {l l₁ l₂ : List (K × V)} {k k' : K} {v : V} {x : K × V}

/-! ### Cutting a sorted list -/

lemma sorted_append : Sorted (l₁ ++ l₂) ↔
    Sorted l₁ ∧ Sorted l₂ ∧ ∀ x ∈ l₁, ∀ y ∈ l₂, x.1 < y.1 := pairwise_append

lemma sorted_cons : Sorted (x :: l) ↔ Above x.1 l ∧ Sorted l := pairwise_cons

/-- A sorted list around one of its pairs. -/
lemma sorted_mid : Sorted (l₁ ++ x :: l₂) ↔ Sorted l₁ ∧ Sorted l₂ ∧ Below l₁ x.1 ∧ Above x.1 l₂ := by
  rw [sorted_append, sorted_cons]
  constructor
  · rintro ⟨h₁, ⟨habove, h₂⟩, hlt⟩
    exact ⟨h₁, h₂, fun y hy => hlt y hy x (mem_cons_self ..), habove⟩
  · rintro ⟨h₁, h₂, hbelow, habove⟩
    refine ⟨h₁, ⟨habove, h₂⟩, fun y hy z hz => ?_⟩
    rcases mem_cons.mp hz with rfl | hz
    · exact hbelow y hy
    · exact (hbelow y hy).trans (habove z hz)

lemma Below.mono (h : Below l k) (hk : k ≤ k') : Below l k' := fun x hx => (h x hx).trans_le hk

lemma Above.mono (h : Above k' l) (hk : k ≤ k') : Above k l := fun x hx => hk.trans_lt (h x hx)

lemma below_append : Below (l₁ ++ l₂) k ↔ Below l₁ k ∧ Below l₂ k := forall_mem_append

lemma above_cons : Above k (x :: l) ↔ k < x.1 ∧ Above k l := forall_mem_cons

/-! ### Updating part of a list -/

lemma put_append (h₁ : Below l₁ k) : put k v (l₁ ++ l) = l₁ ++ put k v l := by
  have hlt : l₁.filter (fun x => x.1 < k) = l₁ :=
    filter_eq_self.mpr fun x hx => decide_eq_true (h₁ x hx)
  have hgt : l₁.filter (fun x => k < x.1) = [] :=
    filter_eq_nil_iff.mpr fun x hx => by simpa using (h₁ x hx).le
  rw [put, put, filter_append, filter_append, hlt, hgt, nil_append, append_assoc]

lemma put_append_above (h₂ : Above k l₂) : put k v (l ++ l₂) = put k v l ++ l₂ := by
  have hlt : l₂.filter (fun x => x.1 < k) = [] :=
    filter_eq_nil_iff.mpr fun x hx => by simpa using (h₂ x hx).le
  have hgt : l₂.filter (fun x => k < x.1) = l₂ :=
    filter_eq_self.mpr fun x hx => decide_eq_true (h₂ x hx)
  rw [put, put, filter_append, filter_append, hlt, hgt, append_nil]
  simp only [append_assoc, cons_append]

lemma put_singleton (h : x.1 = k) : put k v [x] = [(k, v)] := by
  simp [put, h]

lemma del_of_below (h : Below l k) : del k l = l :=
  filter_eq_self.mpr fun x hx => decide_eq_true (h x hx).ne

lemma del_of_above (h : Above k l) : del k l = l :=
  filter_eq_self.mpr fun x hx => decide_eq_true (h x hx).ne'

lemma del_append : del k (l₁ ++ l₂) = del k l₁ ++ del k l₂ := filter_append ..

lemma del_singleton (h : x.1 = k) : del k [x] = [] := by
  simp [del, h]

/-- Deleting the key of a pair in the middle of a sorted list. -/
lemma del_mid (h : Sorted (l₁ ++ x :: l₂)) : del x.1 (l₁ ++ x :: l₂) = l₁ ++ l₂ := by
  obtain ⟨-, -, hbelow, habove⟩ := sorted_mid.mp h
  rw [← singleton_append, del_append, del_append, del_of_below hbelow, del_singleton rfl,
    del_of_above habove, nil_append]

lemma find_append_of_below (h : Below l₁ k) : find (l₁ ++ l) k = find l k := by
  have hnone : l₁.find? (fun x => x.1 = k) = none :=
    List.find?_eq_none.mpr fun x hx => by simpa using (h x hx).ne
  rw [find, find, List.find?_append, hnone, Option.none_or]

lemma find_append_of_above (h : Above k l₂) : find (l ++ l₂) k = find l k := by
  have hnone : l₂.find? (fun x => x.1 = k) = none :=
    List.find?_eq_none.mpr fun x hx => by simpa using (h x hx).ne'
  rw [find, find, List.find?_append, hnone, Option.or_none]

lemma find_cons_self : find (x :: l) x.1 = some x.2 := by
  simp [find]

lemma find_eq_none_iff : find l k = none ↔ ∀ x ∈ l, x.1 ≠ k := by
  simp [find]

/-! ### The updates of the map -/

lemma sorted_put (h : Sorted l) : Sorted (put k v l) := by
  refine sorted_mid.mpr ⟨h.sublist filter_sublist, h.sublist filter_sublist, ?_, ?_⟩
  · intro x hx
    simpa using (mem_filter.mp hx).2
  · intro x hx
    simpa using (mem_filter.mp hx).2

lemma sorted_del (h : Sorted l) : Sorted (del k l) := h.sublist filter_sublist

lemma find_filter (p : K → Bool) (hp : p k = true) : find (l.filter fun x => p x.1) k = find l k := by
  rw [find, find, List.find?_filter]
  congr 2
  funext x
  by_cases hx : x.1 = k
  · simp [hx, hp]
  · simp [hx]

lemma find_put (l : List (K × V)) (k k' : K) (v : V) :
    find (put k v l) k' = if k' = k then some v else find l k' := by
  have hbelow : Below (l.filter fun x => x.1 < k) k := fun x hx => by
    simpa using (mem_filter.mp hx).2
  have habove : Above k (l.filter fun x => k < x.1) := fun x hx => by
    simpa using (mem_filter.mp hx).2
  split_ifs with hk
  · subst hk
    rw [put, find_append_of_below hbelow]
    exact find_cons_self
  · rcases lt_or_gt_of_ne hk with hlt | hgt
    · have hcons : Above k' ((k, v) :: l.filter fun x => k < x.1) :=
        above_cons.mpr ⟨hlt, habove.mono hlt.le⟩
      rw [put, find_append_of_above hcons]
      exact find_filter (fun y => y < k) (decide_eq_true hlt)
    · have hne : find ((k, v) :: l.filter fun x => k < x.1) k' = find (l.filter fun x => k < x.1) k' := by
        simp [find, Ne.symm hk]
      rw [put, find_append_of_below (hbelow.mono hgt.le), hne]
      exact find_filter (fun y => k < y) (decide_eq_true hgt)

lemma find_del (l : List (K × V)) (k k' : K) : find (del k l) k' = if k' = k then none else find l k' := by
  split_ifs with hk
  · subst hk
    refine find_eq_none_iff.mpr fun x hx => ?_
    simpa using (mem_filter.mp hx).2
  · exact find_filter (fun y => y ≠ k) (decide_eq_true hk)

/-- In a sorted list the value of a key is the one it is paired with. -/
lemma find_eq_some_iff (h : Sorted l) : find l k = some v ↔ (k, v) ∈ l := by
  constructor
  · intro hf
    rw [find, Option.map_eq_some_iff] at hf
    obtain ⟨x, hx, rfl⟩ := hf
    have hk := List.find?_some hx
    have hmem := List.mem_of_find?_eq_some hx
    rw [decide_eq_true_iff] at hk
    subst hk
    exact hmem
  · intro hmem
    obtain ⟨l₁, l₂, rfl⟩ := append_of_mem hmem
    have hmid := sorted_mid.mp h
    rw [find_append_of_below hmid.2.2.1]
    exact find_cons_self

/-- The pairs after an update. -/
lemma mem_put : x ∈ put k v l ↔ x = (k, v) ∨ x ∈ l ∧ x.1 ≠ k := by
  rw [put, mem_append, mem_cons, mem_filter, mem_filter]
  constructor
  · rintro (⟨hx, hlt⟩ | rfl | ⟨hx, hlt⟩)
    · exact Or.inr ⟨hx, (of_decide_eq_true hlt).ne⟩
    · exact Or.inl rfl
    · exact Or.inr ⟨hx, (of_decide_eq_true hlt).ne'⟩
  · rintro (rfl | ⟨hx, hne⟩)
    · exact Or.inr (Or.inl rfl)
    · rcases lt_or_gt_of_ne hne with hlt | hgt
      · exact Or.inl ⟨hx, decide_eq_true hlt⟩
      · exact Or.inr (Or.inr ⟨hx, decide_eq_true hgt⟩)

lemma mem_del : x ∈ del k l ↔ x ∈ l ∧ x.1 ≠ k := by
  simp [del]

/-- A new key adds its pair. -/
lemma put_perm_of_find_none (h : find l k = none) : (put k v l).Perm ((k, v) :: l) := by
  rw [find_eq_none_iff] at h
  have hgt : l.filter (fun x => k < x.1) = l.filter (fun x => !decide (x.1 < k)) :=
    filter_congr fun x hx => by
      rcases lt_or_gt_of_ne (h x hx) with hlt | hlt
      · simp [hlt, hlt.not_gt]
      · simp [hlt, hlt.not_gt]
  rw [put, hgt]
  exact perm_middle.trans (List.Perm.cons _ (filter_append_perm _ l))

lemma length_put_of_find_none (h : find l k = none) : (put k v l).length = l.length + 1 :=
  (put_perm_of_find_none h).length_eq

/-- Removing a key removes its pair. -/
lemma perm_del_of_find_some (hs : Sorted l) (h : find l k = some v) : l.Perm ((k, v) :: del k l) := by
  obtain ⟨l₁, l₂, rfl⟩ := append_of_mem ((find_eq_some_iff hs).mp h)
  rw [show del k (l₁ ++ (k, v) :: l₂) = l₁ ++ l₂ from del_mid hs]
  exact perm_middle

/-- Removing what was put gives the list back. -/
lemma del_put_of_find_none (hs : Sorted l) (h : find l k = none) : del k (put k v l) = l := by
  have hmid : Sorted (put k v l) := sorted_put hs
  rw [put] at hmid ⊢
  rw [del_mid hmid]
  rw [find_eq_none_iff] at h
  have hcut : ∀ {l : List (K × V)}, Sorted l → (∀ x ∈ l, x.1 ≠ k) →
      l.filter (fun x => x.1 < k) ++ l.filter (fun x => k < x.1) = l := by
    intro l hs hne
    induction l with
    | nil => rfl
    | cons x l ih =>
      rw [sorted_cons] at hs
      have hxk := hne x (mem_cons_self ..)
      have ih := ih hs.2 fun y hy => hne y (mem_cons_of_mem _ hy)
      rcases lt_or_gt_of_ne hxk with hlt | hgt
      · rw [filter_cons_of_pos (by simp [hlt]), filter_cons_of_neg (by simp [hlt.le]),
          cons_append, ih]
      · -- every later key is above as well
        have hl : ∀ y ∈ l, k < y.1 := fun y hy => lt_trans hgt (hs.1 y hy)
        rw [filter_cons_of_neg (by simp [hgt.le]), filter_cons_of_pos (by simp [hgt]),
          filter_eq_nil_iff.mpr fun y hy => by simp [(hl y hy).le],
          filter_eq_self.mpr fun y hy => decide_eq_true (hl y hy)]
        rfl
  exact hcut hs h

end Lib.Assoc
