import Mathlib

/-!
# Counted loops over indexed state

A `for` loop is a fold over the list of its indices. The lemmas give the closed form of two loops
that occur again and again: one that rewrites a set of rows from a row it does not touch, and one
that sums.
-/

namespace Lib.Loop

open List

/-- A loop that rewrites each row of a duplicate-free list from that row and from a fixed row
outside the list leaves the rewritten rows on the list and every other row alone. -/
lemma foldl_update_rows {ι ρ : Type*} [DecidableEq ι] (i : ι) (f : ι → ρ → ρ → ρ) :
    ∀ (l : List ι) (S : ι → ρ), l.Nodup → i ∉ l →
      l.foldl (fun S k => Function.update S k (f k (S i) (S k))) S =
        fun r => if r ∈ l then f r (S i) (S r) else S r
  | [], S, _, _ => by simp
  | k :: l, S, hnd, hi => by
    rw [nodup_cons] at hnd
    rw [mem_cons, not_or] at hi
    rw [foldl_cons, foldl_update_rows i f l _ hnd.2 hi.2, Function.update_of_ne hi.1]
    funext r
    by_cases hrk : r = k
    · subst hrk
      rw [if_neg hnd.1, if_pos (mem_cons_self ..), Function.update_self]
    · rw [Function.update_of_ne hrk]
      simp only [mem_cons, hrk, false_or]

/-- A loop that counts down. -/
lemma foldl_range_succ_reverse {σ : Type*} (f : σ → ℕ → σ) (s : σ) (n : ℕ) :
    (range (n + 1)).reverse.foldl f s = (range n).reverse.foldl f (f s n) := by
  rw [range_succ, reverse_append, reverse_singleton, singleton_append, foldl_cons]

/-- Two nested loops with the index `j * k + m` count through `p * k` positions. -/
lemma flatMap_range_mul (p k : ℕ) :
    (range p).flatMap (fun j => (range k).map fun m => j * k + m) = range (p * k) := by
  induction p with
  | zero => rw [zero_mul]; rfl
  | succ p ih =>
    rw [range_succ, flatMap_append, ih, Nat.succ_mul, range_add]
    simp

/-- A loop that accumulates terms sums them. -/
lemma foldl_range_add {M : Type*} [AddCommMonoid M] (f : ℕ → M) (a : M) : ∀ n,
    (range n).foldl (fun s i => s + f i) a = a + ∑ i ∈ Finset.range n, f i
  | 0 => by simp
  | n + 1 => by
    rw [range_succ, foldl_append, foldl_range_add f a n, Finset.sum_range_succ]
    simp [add_assoc]

end Lib.Loop
