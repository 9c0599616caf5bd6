import Nkfs.Btree.Node

/-!
# The two searches in a node

`nkfs_btree_node_has_key` and `nkfs_btree_node_find_key_index` are two binary searches with exits of their own before
the loop. Insertion, lookup and deletion use them side by side, on the understanding that they agree
(`searches_agree`).

What slots they read is said by running them on other memory. `hasKeyBy` and `findKeyIndexBy` are the same searches
over any way to read a slot; where reading a slot from `nr_keys` on is a fault, they return what they always return
(`hasKeyBy_congr`, `findKeyIndexBy_congr`), so they do not read such a slot.
-/

namespace Nkfs

/-! ### Searches over a way to read slots -/

section by_read

variable (read : ℕ → Except Fault Key) (nr : ℕ) (key : Key)

def keyProbablyInsideBy : Except Fault Bool := do
  if nr = 0 then return false
  else
    let last ← read (nr - 1)
    if cmpKey key last = .gt then return false
    else
      let first ← read 0
      return cmpKey key first ≠ .lt

def searchLoopBy : ℕ → ℕ → ℕ → Except Fault (Option ℕ × ℕ)
  | 0, _, _ => .error .fuel
  | fuel + 1, start, stop =>
    if start < stop then do
      let mid := (start + stop) / 2
      let midKey ← read mid
      match cmpKey key midKey with
      | .eq => return (some mid, stop)
      | .lt => searchLoopBy fuel start mid
      | .gt => searchLoopBy fuel (mid + 1) stop
    else .ok (none, stop)

def hasKeyBy : Except Fault (Option ℕ) := do
  if ← keyProbablyInsideBy read nr key then
    let (found, _) ← searchLoopBy read key (nr + 1) 0 nr
    return found
  else return none

def findKeyIndexBy : Except Fault ℕ := do
  if nr = 0 then return 0
  else
    let last ← read (nr - 1)
    if cmpKey key last = .gt then return nr
    else
      let first ← read 0
      if cmpKey key first = .lt then return 0
      else
        let (found, stop) ← searchLoopBy read key (nr + 1) 0 nr
        return found.getD stop

end by_read

/-! ### Slots that are read -/

section congr

variable {read read' : ℕ → Except Fault Key} {nr : ℕ}

/-- The loop reads below `stop` only. -/
lemma searchLoopBy_congr (h : ∀ i < nr, read i = read' i) (key : Key) : ∀ fuel start stop, stop ≤ nr →
    searchLoopBy read key fuel start stop = searchLoopBy read' key fuel start stop
  | 0, _, _, _ => rfl
  | fuel + 1, start, stop, hstop => by
    rw [searchLoopBy, searchLoopBy]
    by_cases hlt : start < stop
    · have hmid : (start + stop) / 2 < nr := by omega
      rw [if_pos hlt, if_pos hlt]
      simp only [h _ hmid]
      cases read' ((start + stop) / 2) with
      | error e => rfl
      | ok midKey =>
        show (match cmpKey key midKey with | .eq => _ | .lt => _ | .gt => _) = match cmpKey key midKey with
          | .eq => _ | .lt => _ | .gt => _
        cases cmpKey key midKey with
        | eq => rfl
        | lt => exact searchLoopBy_congr h key fuel start _ hmid.le
        | gt => exact searchLoopBy_congr h key fuel _ stop hstop
    · rw [if_neg hlt, if_neg hlt]

lemma hasKeyBy_congr (h : ∀ i < nr, read i = read' i) (key : Key) : hasKeyBy read nr key = hasKeyBy read' nr key := by
  unfold hasKeyBy keyProbablyInsideBy
  rw [searchLoopBy_congr h key _ _ _ le_rfl]
  by_cases h0 : nr = 0
  · rw [if_pos h0, if_pos h0]
  · rw [if_neg h0, if_neg h0, h _ (by omega), h _ (by omega)]

lemma findKeyIndexBy_congr (h : ∀ i < nr, read i = read' i) (key : Key) :
    findKeyIndexBy read nr key = findKeyIndexBy read' nr key := by
  unfold findKeyIndexBy
  rw [searchLoopBy_congr h key _ _ _ le_rfl]
  by_cases h0 : nr = 0
  · rw [if_pos h0, if_pos h0]
  · rw [if_neg h0, if_neg h0, h _ (by omega), h _ (by omega)]

end congr

/-! ### A node -/

/-- A slot of a node, where a slot from `nr_keys` on must not be read. -/
def usedKey (n : Node) (i : ℕ) : Except Fault Key := if i < n.nrKeys then nodeKey n i else .error .oob

section node

variable {n : Node}

lemma searchLoop_eq_by (key : Key) : ∀ fuel start stop,
    searchLoop n key fuel start stop = searchLoopBy (nodeKey n) key fuel start stop
  | 0, _, _ => rfl
  | fuel + 1, start, stop => by
    have ih : searchLoop n key fuel = searchLoopBy (nodeKey n) key fuel := funext₂ (searchLoop_eq_by key fuel)
    unfold searchLoop searchLoopBy
    exact ih ▸ rfl

lemma hasKey_eq_by (key : Key) : hasKey n key = hasKeyBy (nodeKey n) n.nrKeys key := by
  unfold hasKey hasKeyBy
  exact searchLoop_eq_by key _ _ _ ▸ rfl

lemma findKeyIndex_eq_by (key : Key) : findKeyIndex n key = findKeyIndexBy (nodeKey n) n.nrKeys key := by
  unfold findKeyIndex findKeyIndexBy
  simp only [searchLoop_eq_by]

/-- The rank of a key is the number of keys below it. -/
lemma Node.IsRank.eq_card {key : Key} {i : ℕ} (h : n.IsRank key i) :
    i = ((Finset.range n.nrKeys).filter fun j => n.key j < key).card := by
  have hset : (Finset.range n.nrKeys).filter (fun j => n.key j < key) = Finset.range i := by
    ext j
    rw [Finset.mem_filter, Finset.mem_range, Finset.mem_range]
    constructor
    · rintro ⟨hj, hlt⟩
      by_contra hge
      exact absurd hlt (not_lt.mpr (h.above j (not_lt.mp hge) hj))
    · intro hj
      exact ⟨hj.trans_le h.le, h.below j hj⟩
  rw [hset, Finset.card_range]

/-- **The searches agree.** On a node with increasing keys both return. The one gives the number of keys below the
key, the other that number if the key is there and -1 otherwise, and neither reads a slot from `nr_keys` on. -/
theorem searches_agree (hn : n.Increasing) (hnr : n.nrKeys ≤ keySlots) (key : Key) :
    ∃ i, i = ((Finset.range n.nrKeys).filter fun j => n.key j < key).card ∧
      findKeyIndex n key = .ok i ∧
      hasKey n key = .ok (if ∃ j < n.nrKeys, n.key j = key then some i else none) ∧
      findKeyIndexBy (usedKey n) n.nrKeys key = .ok i ∧
      hasKeyBy (usedKey n) n.nrKeys key = hasKey n key := by
  have hused : ∀ j < n.nrKeys, usedKey n j = nodeKey n j := fun j hj => if_pos hj
  obtain ⟨i, hi, hrank⟩ := findKeyIndex_spec hn hnr key
  refine ⟨i, hrank.eq_card, hi, ?_, ?_, ?_⟩
  · by_cases hmem : ∃ j < n.nrKeys, n.key j = key
    · obtain ⟨j, hj, hjk⟩ := hmem
      -- the slot of the key is its rank
      have hij : j = i := by
        rcases lt_trichotomy j i with hlt | heq | hgt
        · exact absurd hjk (hrank.below j hlt).ne
        · exact heq
        · have habove := hrank.above i le_rfl (hgt.trans hj)
          rw [← hjk] at habove
          exact absurd (hn i j hgt hj) (not_lt.mpr habove)
      rw [hasKey_of_mem hn hnr hj hjk, if_pos ⟨j, hj, hjk⟩, hij]
    · rw [hasKey_of_notMem hn hnr fun j hj hjk => hmem ⟨j, hj, hjk⟩, if_neg hmem]
  · rw [findKeyIndexBy_congr hused, ← findKeyIndex_eq_by]
    exact hi
  · rw [hasKeyBy_congr hused, ← hasKey_eq_by]

end node

/-- A node with one key. -/
theorem searches_agree_single : ∃ i,
    findKeyIndexBy (usedKey { Node.zero with nrKeys := 1 }) 1 (keyByU64 1) = .ok i ∧
      findKeyIndex { Node.zero with nrKeys := 1 } (keyByU64 1) = .ok i := by
  have hn : Node.Increasing { Node.zero with nrKeys := 1 } := fun i j hij hj => by
    have hj : j < 1 := hj
    omega
  obtain ⟨i, -, hfind, -, hused, -⟩ := searches_agree hn (by decide) (keyByU64 1)
  exact ⟨i, hused, hfind⟩

end Nkfs
