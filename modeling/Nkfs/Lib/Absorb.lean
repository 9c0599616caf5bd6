import Mathlib

/-!
# Block-wise absorption

A state takes its input in blocks of `n` elements. `absorb` feeds the whole blocks of a list and keeps the rest;
`update` is the buffered form, where a rest from before is filled up first. Whatever the pieces in which an input
arrives, buffered updates come to what `absorb` makes of it at once (`foldl_update`).
-/

namespace Lib.Absorb

open List

section

variable {σ β : Type*} (n : ℕ) (step : σ → List β → σ)

/-- Feeds `k` blocks. -/
def blocks : ℕ → σ → List β → σ × List β
  | 0, s, l => (s, l)
  | k + 1, s, l => blocks k (step s (l.take n)) (l.drop n)

/-- Feeds the whole blocks of a list. -/
def absorb (s : σ) (l : List β) : σ × List β := blocks n step (l.length / n) s l

/-- Adds to a rest that is shorter than a block. -/
def update (p : σ × List β) (l : List β) : σ × List β :=
  if p.2.length + l.length < n then (p.1, p.2 ++ l)
  else absorb n step (step p.1 (p.2 ++ l.take (n - p.2.length))) (l.drop (n - p.2.length))

variable {n step} {s : σ} {l : List β}

lemma absorb_of_lt (h : l.length < n) : absorb n step s l = (s, l) := by
  rw [absorb, Nat.div_eq_of_lt h, blocks]

lemma absorb_block (hn : 0 < n) {b : List β} (hb : b.length = n) (s : σ) (l : List β) :
    absorb n step s (b ++ l) = absorb n step (step s b) l := by
  have hlen : (b ++ l).length / n = l.length / n + 1 := by rw [length_append, hb, Nat.add_div_left _ hn]
  rw [absorb, hlen, blocks, take_left' hb, drop_left' hb, absorb]

/-- The induction on blocks: what holds of a rest shorter than a block and carries over a block holds of all lists. -/
lemma block_induction (hn : 0 < n) {P : List β → Prop} (hrest : ∀ l, l.length < n → P l)
    (hblock : ∀ b l, b.length = n → P l → P (b ++ l)) (l : List β) : P l := by
  induction hlen : l.length using Nat.strong_induction_on generalizing l with
  | _ m ih =>
    by_cases hlt : l.length < n
    · exact hrest l hlt
    · have hdrop : (l.drop n).length < m := by rw [length_drop]; omega
      have htake : (l.take n).length = n := by rw [length_take]; omega
      rw [← take_append_drop n l]
      exact hblock _ _ htake (ih _ hdrop _ rfl)

/-- The rest is shorter than a block. -/
lemma length_absorb (hn : 0 < n) (s : σ) (l : List β) : (absorb n step s l).2.length = l.length % n := by
  induction l using block_induction hn generalizing s with
  | hrest l hl => rw [absorb_of_lt hl, Nat.mod_eq_of_lt hl]
  | hblock b l hb ih => rw [absorb_block hn hb, ih, length_append, hb, Nat.add_mod_left]

/-- Absorption goes on where it stopped. -/
lemma absorb_append (hn : 0 < n) (s : σ) (l l' : List β) :
    absorb n step s (l ++ l') = absorb n step (absorb n step s l).1 ((absorb n step s l).2 ++ l') := by
  induction l using block_induction hn generalizing s with
  | hrest l hl => rw [absorb_of_lt hl]
  | hblock b l hb ih => rw [append_assoc, absorb_block hn hb, absorb_block hn hb, ih]

lemma update_eq (hn : 0 < n) {p : σ × List β} (hp : p.2.length < n) (l : List β) :
    update n step p l = absorb n step p.1 (p.2 ++ l) := by
  unfold update
  split_ifs with h
  · rw [absorb_of_lt (by rw [length_append]; exact h)]
  · have hfill : (p.2 ++ l.take (n - p.2.length)).length = n := by
      rw [length_append, length_take]
      omega
    rw [← absorb_block hn hfill, append_assoc, take_append_drop]

/-- **Pieces.** Updates with the pieces of an input come to its absorption. -/
theorem foldl_update (hn : 0 < n) (s : σ) (chunks : List (List β)) :
    chunks.foldl (update n step) (s, []) = absorb n step s chunks.flatten := by
  induction chunks using List.reverseRecOn with
  | nil => exact (absorb_of_lt hn).symm
  | append_singleton chunks l ih =>
    have hlt : (absorb n step s chunks.flatten).2.length < n := by
      rw [length_absorb hn]
      exact Nat.mod_lt _ hn
    rw [List.foldl_append, ih, List.foldl_cons, List.foldl_nil, update_eq hn hlt, ← absorb_append hn,
      List.flatten_append, List.flatten_singleton]

end

end Lib.Absorb
