import Mathlib

/-!
# Choosing from a list by a key

The first `r` elements of a list in ascending order are compared with a bound by counting, so that the answer
can be read off any other arrangement of the list. `LastMax` is what a loop keeps that takes every element at
least as large as the one it has.
-/

namespace Lib.Selection

open List

variable {α β : Type*} {key : α → β} {l : List α} {r : ℕ}

/-- Dropping from a list whatever is among its first `n` values leaves the rest, if no value occurs twice. -/
lemma filter_notMem_take [DecidableEq β] {f : α → β} (hnd : (l.map f).Nodup) (n : ℕ) :
    l.filter (fun x => f x ∉ (l.map f).take n) = l.drop n := by
  conv_lhs => rw [← take_append_drop n l, filter_append]
  rw [take_append_drop n l, ← map_take]
  have hin : (l.take n).filter (fun x => f x ∉ (l.take n).map f) = [] :=
    filter_eq_nil_iff.mpr fun x hx h => of_decide_eq_true h (mem_map_of_mem hx)
  have hout : (l.drop n).filter (fun x => f x ∉ (l.take n).map f) = l.drop n := by
    refine filter_eq_self.mpr fun x hx => decide_eq_true fun hmem => ?_
    rw [← take_append_drop n l, map_append, nodup_append'] at hnd
    exact hnd.2.2 hmem (mem_map_of_mem hx)
  rw [hin, hout, nil_append]

/-- Dropping from a list as many values as `s` has. -/
lemma length_filter_notMem [DecidableEq β] {f : α → β} {s : List β} (hnd : (l.map f).Nodup) (hs : s.Nodup)
    (hsub : s ⊆ l.map f) : (l.filter fun x => f x ∉ s).length + s.length = l.length := by
  have hperm : ((l.map f).filter fun b => b ∈ s).Perm s := by
    refine (perm_ext_iff_of_nodup (hnd.filter _) hs).mpr fun b => ?_
    rw [mem_filter, decide_eq_true_iff]
    exact and_iff_right_of_imp fun hb => hsub hb
  have hin : (l.filter fun x => f x ∈ s).length = s.length := by
    rw [← hperm.length_eq, filter_map, length_map]
    rfl
  have hsum := length_eq_length_filter_add (l := l) fun x => decide (f x ∈ s)
  simp only [decide_not]
  omega

variable [LinearOrder β]

/-- All but the first `r` elements are at least `a` exactly if at most `r` are below `a`. -/
lemma forall_drop_le_iff (hs : l.Pairwise fun x y => key x ≤ key y) (hr : r ≤ l.length) (a : β) :
    (∀ y ∈ l.drop r, a ≤ key y) ↔ l.countP (fun x => key x < a) ≤ r := by
  have hcount : l.countP (fun x => key x < a) =
      (l.take r).countP (fun x => key x < a) + (l.drop r).countP fun x => key x < a := by
    rw [← countP_append, take_append_drop]
  have htake : (l.take r).length = r := length_take_of_le hr
  rw [hcount]
  constructor
  · intro h
    have hzero : (l.drop r).countP (fun x => key x < a) = 0 :=
      countP_eq_zero.mpr fun y hy => by simpa using h y hy
    have hle := countP_le_length (p := fun x => decide (key x < a)) (l := l.take r)
    omega
  · intro h y hy
    by_contra hlt
    rw [not_le] at hlt
    rw [← take_append_drop r l, pairwise_append] at hs
    have hall : (l.take r).countP (fun x => key x < a) = (l.take r).length :=
      countP_eq_length.mpr fun x hx => decide_eq_true ((hs.2.2 x hx y hy).trans_lt hlt)
    have hpos : 0 < (l.drop r).countP fun x => key x < a := countP_pos_iff.mpr ⟨y, hy, decide_eq_true hlt⟩
    omega

/-- The first `r` elements are at most `b` exactly if at least `r` are. -/
lemma forall_take_le_iff (hs : l.Pairwise fun x y => key x ≤ key y) (hr : r ≤ l.length) (b : β) :
    (∀ x ∈ l.take r, key x ≤ b) ↔ r ≤ l.countP fun x => key x ≤ b := by
  have hcount : l.countP (fun x => key x ≤ b) =
      (l.take r).countP (fun x => key x ≤ b) + (l.drop r).countP fun x => key x ≤ b := by
    rw [← countP_append, take_append_drop]
  have htake : (l.take r).length = r := length_take_of_le hr
  rw [hcount]
  constructor
  · intro h
    have hall : (l.take r).countP (fun x => key x ≤ b) = (l.take r).length :=
      countP_eq_length.mpr fun x hx => decide_eq_true (h x hx)
    omega
  · intro h x hx
    by_contra hlt
    rw [not_le] at hlt
    rw [← take_append_drop r l, pairwise_append] at hs
    have hzero : (l.drop r).countP (fun x => key x ≤ b) = 0 :=
      countP_eq_zero.mpr fun y hy => by simpa using hlt.trans_le (hs.2.2 x hx y hy)
    have hless : (l.take r).countP (fun x => key x ≤ b) < (l.take r).length :=
      countP_lt_length_iff.mpr ⟨x, hx, decide_eq_false (not_le.mpr hlt)⟩
    omega

/-! ### The last of the largest -/

/-- `a` is the last element of `l` at which the key is largest. -/
def LastMax (key : α → β) (l : List α) (a : α) : Prop :=
  ∃ l₁ l₂, l = l₁ ++ a :: l₂ ∧ (∀ x ∈ l₁, key x ≤ key a) ∧ ∀ x ∈ l₂, key x < key a

variable {a b x : α}

lemma LastMax.mem (h : LastMax key l a) : a ∈ l := by
  obtain ⟨l₁, l₂, rfl, -, -⟩ := h
  simp

lemma lastMax_cons : LastMax key (x :: l) a ↔
    (a = x ∧ ∀ y ∈ l, key y < key x) ∨ (key x ≤ key a ∧ LastMax key l a) := by
  constructor
  · rintro ⟨_ | ⟨y, l₁⟩, l₂, heq, h₁, h₂⟩
    · obtain ⟨rfl, rfl⟩ := cons.inj heq
      exact .inl ⟨rfl, h₂⟩
    · obtain ⟨rfl, rfl⟩ := cons.inj heq
      exact .inr ⟨h₁ x mem_cons_self, l₁, l₂, rfl, fun z hz => h₁ z (mem_cons_of_mem _ hz), h₂⟩
  · rintro (⟨rfl, h⟩ | ⟨hle, l₁, l₂, rfl, h₁, h₂⟩)
    · exact ⟨[], l, rfl, by simp, h⟩
    · exact ⟨x :: l₁, l₂, rfl, forall_mem_cons.mpr ⟨hle, h₁⟩, h₂⟩

lemma LastMax.unique (ha : LastMax key l a) (hb : LastMax key l b) : a = b := by
  induction l with
  | nil => exact absurd ha.mem not_mem_nil
  | cons x l ih =>
    rcases lastMax_cons.mp ha with ⟨rfl, hlt⟩ | ⟨hxa, htail⟩
    · rcases lastMax_cons.mp hb with ⟨rfl, -⟩ | ⟨hab, hb⟩
      · rfl
      · exact absurd (hlt b hb.mem) (not_lt.mpr hab)
    · rcases lastMax_cons.mp hb with ⟨rfl, hlt⟩ | ⟨-, hb⟩
      · exact absurd (hlt a htail.mem) (not_lt.mpr hxa)
      · exact ih htail hb

end Lib.Selection
