import Nkfs.Dio.CacheInvariant

/-!
# Batches of clusters

The loops over all clusters take references on a batch of up to 16, go on after the last index of it,
and give the references back. `withBatch extra ids` are the references while the clusters `ids` are
held. Aging changes ages only; eviction writes a cluster back before it leaves it, so the bytes stay;
the release of the device leaves them all on the disk.
-/

namespace Nkfs

open Lib.Assoc Lib.Bytes Lib.Program Function List

/-- One further reference for each occurrence in the list. -/
def withBatch (extra : ℕ → ℕ) (ids : List ℕ) : ℕ → ℕ := fun j => extra j + ids.count j

section

variable {d d' : Dev} {gets extra extra' : ℕ → ℕ} {ids nodes : List ℕ} {i id first first' fuel : ℕ} {c : Clu}

lemma withBatch_nil (extra : ℕ → ℕ) (j : ℕ) : withBatch extra [] j = extra j := by
  rw [withBatch, count_nil, add_zero]

lemma withBatch_cons (extra : ℕ → ℕ) (id : ℕ) (ids : List ℕ) (j : ℕ) :
    withBatch extra (id :: ids) j = bump (withBatch extra ids) id j := by
  rw [withBatch, count_cons, bump, withBatch]
  by_cases h : j = id
  · rw [if_pos h, if_pos (by simp [h])]
    rfl
  · rw [if_neg h, if_neg (by simpa using Ne.symm h)]
    rfl

lemma withBatch_bump (extra : ℕ → ℕ) (id : ℕ) (ids : List ℕ) (j : ℕ) :
    withBatch extra (id :: ids) j = withBatch (bump extra id) ids j := by
  rw [withBatch_cons, bump, withBatch, withBatch, bump]
  split_ifs <;> omega

/-! ### Gang lookups -/

lemma mem_gang (h : id ∈ d.gang first) : ∃ i, (i, id) ∈ d.root ∧ first ≤ i := by
  rw [Dev.gang, mem_map] at h
  obtain ⟨x, hx, rfl⟩ := h
  have hx := mem_filter.mp (mem_of_mem_take hx)
  exact ⟨x.1, hx.1, by simpa using hx.2⟩

/-- What a batch leaves. -/
lemma gang_rest (hle : first ≤ first') (hpast : ∀ id ∈ d.gang first, ∀ i, (i, id) ∈ d.root → i < first') :
    d.root.filter (fun x => first' ≤ x.1) =
      ((d.root.filter fun x => first ≤ x.1).drop 16).filter fun x => first' ≤ x.1 := by
  have hfilter : d.root.filter (fun x => first' ≤ x.1) =
      (d.root.filter fun x => first ≤ x.1).filter fun x => first' ≤ x.1 := by
    rw [filter_filter]
    refine filter_congr fun x _ => ?_
    by_cases hx : first' ≤ x.1
    · simp [hx, hle.trans hx]
    · simp [hx]
  rw [hfilter]
  rw [Dev.gang] at hpast
  generalize hl : d.root.filter (fun x => first ≤ x.1) = l at *
  have htake : (l.take 16).filter (fun x => first' ≤ x.1) = [] := by
    refine filter_eq_nil_iff.mpr fun x hx => ?_
    have hroot : x ∈ d.root := (mem_filter.mp (hl ▸ mem_of_mem_take hx)).1
    simpa using hpast x.2 (mem_map_of_mem hx) x.1 hroot
  conv_lhs => rw [← take_append_drop 16 l, filter_append, htake, nil_append]

/-- After a batch fewer clusters are left. -/
lemma gang_advance (hne : d.gang first ≠ []) (hle : first ≤ first')
    (hpast : ∀ id ∈ d.gang first, ∀ i, (i, id) ∈ d.root → i < first') :
    (d.root.filter fun x => first' ≤ x.1).length < (d.root.filter fun x => first ≤ x.1).length := by
  have hrest := gang_rest hle hpast
  rw [Dev.gang] at hne
  generalize d.root.filter (fun x => first ≤ x.1) = l at *
  have hpos : 0 < l.length := length_pos_iff.mpr fun h => hne (by rw [h]; rfl)
  calc (d.root.filter fun x => first' ≤ x.1).length ≤ (l.drop 16).length := hrest ▸ length_filter_le _ _
    _ < l.length := by rw [length_drop]; omega

lemma root_of_gang_nil (h : d.gang 0 = []) : d.root = [] := by
  rw [Dev.gang, map_eq_nil_iff, take_eq_nil_iff] at h
  have hfilter := h.resolve_left (by decide)
  by_contra hne
  obtain ⟨x, hx⟩ := exists_mem_of_ne_nil _ hne
  exact filter_eq_nil_iff.mp hfilter x hx (by simp)

lemma CacheOk.ids_nodup (h : CacheOk d gets extra) : (d.root.map Prod.snd).Nodup := by
  rw [List.Nodup, pairwise_map]
  refine h.sorted.imp_of_mem fun {x y} hx hy hlt heq => ?_
  have hindex := h.index_unique (show (x.1, x.2) ∈ d.root from hx) (show (y.1, x.2) ∈ d.root from heq ▸ hy)
  omega

lemma CacheOk.gang_nodup (h : CacheOk d gets extra) (first : ℕ) : (d.gang first).Nodup := by
  refine h.ids_nodup.sublist (List.Sublist.map _ ?_)
  exact (take_sublist _ _).trans filter_sublist

/-! ### References on a batch -/

lemma refBatch_spec (h : CacheOk d gets extra) (hin : ∀ id ∈ ids, ∃ i, (i, id) ∈ d.root) :
    Runs (refBatch ids first) d fun first' d' => CacheOk d' gets (withBatch extra ids) ∧ Same d d' ∧
      first ≤ first' ∧ (∀ id ∈ ids, ∀ i, (i, id) ∈ d.root → i < first') ∧
      (first' = first ∨ ∃ id ∈ ids, ∃ i, (i, id) ∈ d.root ∧ first' = i + 1) := by
  induction ids generalizing d extra first with
  | nil =>
    exact Runs.pure ⟨h.congr (fun _ => rfl) (withBatch_nil extra), .refl d, le_refl _,
      fun _ hid => absurd hid not_mem_nil, .inl rfl⟩
  | cons id ids ih =>
    obtain ⟨i, hi⟩ := hin id mem_cons_self
    refine (dioCluRef_spec h hi).bind fun _ d₁ ⟨h₁, hs₁⟩ => ?_
    have hi₁ : (i, id) ∈ d₁.root := hs₁.root ▸ hi
    obtain ⟨c, hc, hok⟩ := h₁.cached i id hi₁
    refine Runs.step (cluOf_run hc) ?_
    have hbound := h.bound _ hi
    have hnext : (if c.index ≥ first then (c.index + 1) % 2 ^ 64 else first) = max (i + 1) first := by
      rw [hok.index, Nat.mod_eq_of_lt (by omega)]
      split_ifs with hge
      · exact (max_eq_left (by omega)).symm
      · exact (max_eq_right (by omega)).symm
    rw [hnext]
    refine (ih h₁ fun id' hid' => ?_).mono fun first' d₂ ⟨h₂, hs₂, hle, hpast, hfrom⟩ =>
      ⟨?_, hs₁.trans hs₂, ?_, ?_, ?_⟩
    · rw [hs₁.root]
      exact hin id' (mem_cons_of_mem _ hid')
    · exact h₂.congr (fun _ => rfl) (withBatch_bump extra id ids)
    · exact (le_max_right _ _).trans hle
    · intro id' hid' j hj
      rcases mem_cons.mp hid' with rfl | hid'
      · obtain rfl := h.index_unique hi hj
        exact lt_of_lt_of_le (Nat.lt_succ_self i) ((le_max_left _ _).trans hle)
      · exact hpast id' hid' j (hs₁.root ▸ hj)
    · rw [hs₁.root] at hfrom
      rcases hfrom with hfrom | ⟨id', hid', j, hj, hfrom⟩
      · rcases max_choice (i + 1) first with hmax | hmax
        · exact .inr ⟨id, mem_cons_self, i, hi, hfrom.trans hmax⟩
        · exact .inl (hfrom.trans hmax)
      · exact .inr ⟨id', mem_cons_of_mem _ hid', j, hj, hfrom⟩

lemma derefAll_spec (h : CacheOk d gets (withBatch extra ids)) :
    Runs (derefAll ids) d fun _ d' => CacheOk d' gets extra ∧ Same d d' := by
  induction ids generalizing d with
  | nil => exact Runs.pure ⟨h.congr (fun _ => rfl) fun j => (withBatch_nil extra j).symm, .refl d⟩
  | cons id ids ih =>
    have h' := h.congr (fun _ => rfl) fun j => (withBatch_cons extra id ids j).symm
    refine (dioCluDeref_spec h').bind fun _ d₁ ⟨h₁, hs₁⟩ => ?_
    exact (ih h₁).mono fun _ d₂ ⟨h₂, hs₂⟩ => ⟨h₂, hs₁.trans hs₂⟩

/-! ### Aging -/

lemma ageBatch_spec (h : CacheOk d gets (withBatch extra ids)) (hin : ∀ id ∈ ids, ∃ i, (i, id) ∈ d.root) :
    Runs (ageBatch ids) d fun _ d' => CacheOk d' gets extra ∧ Same d d' := by
  induction ids generalizing d with
  | nil => exact Runs.pure ⟨h.congr (fun _ => rfl) fun j => (withBatch_nil extra j).symm, .refl d⟩
  | cons id ids ih =>
    have h' := h.congr (fun _ => rfl) fun j => (withBatch_cons extra id ids j).symm
    obtain ⟨i, hi⟩ := hin id mem_cons_self
    obtain ⟨c, hc, hok⟩ := h'.cached i id hi
    let c' : Clu := { c with age := c.age >>> 1 }
    have hage : CacheOk (d.setClu id c') gets (bump (withBatch extra ids) id) :=
      h'.setClu hi ⟨hok.index, hok.ref, hok.pin, hok.read, hok.clean⟩ (fun _ _ => rfl) fun _ _ => rfl
    have hsame : Same d (d.setClu id c') := h'.same_setClu hi hc rfl
    refine Runs.step (dioCluAge_run hc) ((dioCluDeref_spec hage).bind fun _ d₁ ⟨h₁, hs₁⟩ => ?_)
    have hs := hsame.trans hs₁
    refine (ih h₁ fun id' hid' => ?_).mono fun _ d₂ ⟨h₂, hs₂⟩ => ⟨h₂, hs.trans hs₂⟩
    rw [hs.root]
    exact hin id' (mem_cons_of_mem _ hid')

lemma ageLoop_spec (h : CacheOk d gets extra) (hfuel : (d.root.filter fun x => first ≤ x.1).length < fuel) :
    Runs (ageLoop fuel first) d fun _ d' => CacheOk d' gets extra ∧ Same d d' := by
  induction fuel generalizing d first with
  | zero => exact absurd hfuel (Nat.not_lt_zero _)
  | succ fuel ih =>
    have hin : ∀ id ∈ d.gang first, ∃ i, (i, id) ∈ d.root := fun id hid => (mem_gang hid).imp fun _ => And.left
    refine Runs.get ((refBatch_spec h hin).bind fun next d₁ ⟨h₁, hs₁, hle, hpast, _⟩ => ?_)
    split_ifs with hnil
    · rw [hnil] at h₁
      exact Runs.pure ⟨h₁.congr (fun _ => rfl) fun j => (withBatch_nil extra j).symm, hs₁⟩
    · refine (ageBatch_spec h₁ fun id hid => ?_).bind fun _ d₂ ⟨h₂, hs₂⟩ => ?_
      · rw [hs₁.root]
        exact hin id hid
      · have hs := hs₁.trans hs₂
        refine (ih h₂ ?_).mono fun _ d₃ ⟨h₃, hs₃⟩ => ⟨h₃, hs.trans hs₃⟩
        have hlt := gang_advance hnil hle hpast
        rw [hs.root]
        omega

/-- **`dio_clus_age`** -/
theorem dioClusAge_spec (h : CacheOk d gets extra) :
    Runs dioClusAge d fun _ d' => CacheOk d' gets extra ∧ Same d d' :=
  Runs.get (ageLoop_spec h (Nat.lt_succ_of_le (List.length_filter_le _ _)))

/-! ### Choosing clusters -/

lemma withBatch_append (extra : ℕ → ℕ) (l₁ l₂ : List ℕ) (j : ℕ) :
    withBatch extra (l₁ ++ l₂) j = withBatch (withBatch extra l₁) l₂ j := by
  rw [withBatch, withBatch, withBatch, count_append, add_assoc]

/-- The unpinned clusters of a batch keep their references as far as there is room, the others lose them. -/
lemma pickBatch_spec (h : CacheOk d gets (withBatch (withBatch extra nodes) ids))
    (hin : ∀ id ∈ ids, ∃ i, (i, id) ∈ d.root) :
    Runs (pickBatch ids nodes) d fun nodes' d' => CacheOk d' gets (withBatch extra nodes') ∧ Same d d' ∧
      nodes' = nodes ++ (ids.filter fun id => gets id = 0).take (nodesLimit - nodes.length) := by
  induction ids generalizing d nodes with
  | nil =>
    exact Runs.pure ⟨h.congr (fun _ => rfl) fun j => (withBatch_nil _ j).symm, .refl d, by simp⟩
  | cons id ids ih =>
    obtain ⟨i, hi⟩ := hin id mem_cons_self
    have hin' : ∀ id' ∈ ids, ∃ i, (i, id') ∈ d.root := fun id' hid' => hin id' (mem_cons_of_mem _ hid')
    obtain ⟨c, hc, hok⟩ := h.cached i id hi
    have hgets : c.pin = 0 ↔ gets id = 0 := by
      have := hok.pin
      omega
    refine Runs.step (cluOf_run hc) ?_
    split_ifs with hpin
    · -- chosen
      have h' : CacheOk d gets (withBatch (withBatch extra (nodes ++ [id])) ids) := h.congr (fun _ => rfl) fun j => by
        rw [← withBatch_append, ← withBatch_append, append_assoc, singleton_append]
      refine (ih h' hin').mono fun nodes' d' ⟨hd, hs, hl⟩ => ⟨hd, hs, ?_⟩
      obtain ⟨room, hroom⟩ := Nat.exists_eq_add_of_lt hpin.2
      have hleft : nodesLimit - nodes.length = room + 1 := by omega
      have hleft' : nodesLimit - (nodes ++ [id]).length = room := by
        rw [length_append, length_singleton]
        omega
      rw [hl, hleft, hleft', filter_cons_of_pos (by simpa using hgets.mp hpin.1), take_succ_cons,
        append_assoc, singleton_append]
    · have h' := h.congr (fun _ => rfl) fun j => (withBatch_cons (withBatch extra nodes) id ids j).symm
      refine (dioCluDeref_spec h').bind fun _ d₁ ⟨h₁, hs₁⟩ => ?_
      refine (ih h₁ fun id' hid' => ?_).mono fun nodes' d' ⟨hd, hs, hl⟩ => ⟨hd, hs₁.trans hs, ?_⟩
      · rw [hs₁.root]
        exact hin' id' hid'
      · rw [hl]
        rcases not_and_or.mp hpin with hpin | hfull
        · rw [filter_cons_of_neg (by simpa using mt hgets.mpr hpin)]
        · rw [Nat.sub_eq_zero_of_le (not_lt.mp hfull), take_zero, take_zero]

/-- Clusters that can be evicted: cached, without gets, each once. -/
structure Chosen (d : Dev) (gets : ℕ → ℕ) (nodes : List ℕ) : Prop where
  nodup : nodes.Nodup
  cached : ∀ id ∈ nodes, ∃ i, (i, id) ∈ d.root
  unpinned : ∀ id ∈ nodes, gets id = 0

/-- The unpinned clusters from index `first` on. -/
def Dev.unpinnedFrom (d : Dev) (gets : ℕ → ℕ) (first : ℕ) : List ℕ :=
  ((d.root.filter fun x => first ≤ x.1).map Prod.snd).filter fun id => gets id = 0

/-- The clusters after a batch are those from the next start on. -/
lemma CacheOk.drop_gang (h : CacheOk d gets extra) (hle : first ≤ first')
    (hpast : ∀ id ∈ d.gang first, ∀ i, (i, id) ∈ d.root → i < first') (hfrom : first' = first ∨
      ∃ id ∈ d.gang first, ∃ i, (i, id) ∈ d.root ∧ first' = i + 1) :
    (d.root.filter fun x => first ≤ x.1).drop 16 = d.root.filter fun x => first' ≤ x.1 := by
  rw [gang_rest hle hpast]
  have hsorted := h.sorted.sublist (filter_sublist (p := fun x => decide (first ≤ x.1)))
  have hmem : ∀ x ∈ d.root.filter (fun x => first ≤ x.1), x ∈ d.root ∧ first ≤ x.1 := fun x hx => by
    simpa using mem_filter.mp hx
  rw [Dev.gang] at hfrom
  generalize d.root.filter (fun x => first ≤ x.1) = l at *
  rw [← take_append_drop 16 l, pairwise_append] at hsorted
  refine (filter_eq_self.mpr fun x hx => ?_).symm
  have hge : first' ≤ x.1 := by
    rcases hfrom with rfl | ⟨id, hid, i, hi, rfl⟩
    · exact (hmem x (mem_of_mem_drop hx)).2
    · obtain ⟨y, hy, rfl⟩ := mem_map.mp hid
      have hyi : y.1 = i := h.index_unique (hmem y (mem_of_mem_take hy)).1 hi
      have hlt := hsorted.2.2 y hy x hx
      omega
  simpa using hge

lemma pickLoop_spec (h : CacheOk d gets (withBatch extra nodes))
    (hfuel : (d.root.filter fun x => first ≤ x.1).length < fuel) :
    Runs (pickLoop fuel first nodes) d fun nodes' d' => CacheOk d' gets (withBatch extra nodes') ∧ Same d d' ∧
      nodes' = nodes ++ (d.unpinnedFrom gets first).take (nodesLimit - nodes.length) := by
  induction fuel generalizing d first nodes with
  | zero => exact absurd hfuel (Nat.not_lt_zero _)
  | succ fuel ih =>
    rw [pickLoop]
    split_ifs with hlimit
    · have hin : ∀ id ∈ d.gang first, ∃ i, (i, id) ∈ d.root := fun id hid => (mem_gang hid).imp fun _ => And.left
      refine Runs.get ((refBatch_spec h hin).bind fun next d₁ ⟨h₁, hs₁, hle, hnext, hfrom⟩ => ?_)
      split_ifs with hnil
      · rw [hnil] at h₁
        refine Runs.pure ⟨h₁.congr (fun _ => rfl) fun j => (withBatch_nil _ j).symm, hs₁, ?_⟩
        have hempty : d.root.filter (fun x => first ≤ x.1) = [] := by
          rw [Dev.gang, map_eq_nil_iff, take_eq_nil_iff] at hnil
          exact hnil.resolve_left (by decide)
        rw [Dev.unpinnedFrom, hempty]
        simp
      · have hin₁ : ∀ id ∈ d.gang first, ∃ i, (i, id) ∈ d₁.root := by
          rw [hs₁.root]
          exact hin
        refine (pickBatch_spec h₁ hin₁).bind fun nodes' d₂ ⟨h₂, hs₂, hl⟩ => ?_
        have hs := hs₁.trans hs₂
        refine (ih h₂ ?_).mono fun nodes'' d₃ ⟨h₃, hs₃, hl₃⟩ => ⟨h₃, hs.trans hs₃, ?_⟩
        · have hlt := gang_advance hnil hle hnext
          rw [hs.root]
          omega
        · -- the batch and what comes after it
          have hsplit : d.unpinnedFrom gets first =
              ((d.gang first).filter fun id => gets id = 0) ++ d₂.unpinnedFrom gets next := by
            have hdrop := h.drop_gang hle hnext hfrom
            rw [Dev.unpinnedFrom, Dev.unpinnedFrom, hs.root, Dev.gang, ← hdrop, ← filter_append, ← map_append,
              take_append_drop]
          have hroom : nodesLimit - nodes'.length =
              nodesLimit - nodes.length - ((d.gang first).filter fun id => gets id = 0).length := by
            rw [hl, length_append, length_take]
            omega
          rw [hl₃, hroom, hl, hsplit, take_append, append_assoc]
    · refine Runs.pure ⟨h, .refl d, ?_⟩
      rw [Nat.sub_eq_zero_of_le (not_lt.mp hlimit), take_zero, append_nil]

lemma mem_unpinnedFrom (hid : id ∈ d.unpinnedFrom gets first) : (∃ i, (i, id) ∈ d.root) ∧ gets id = 0 := by
  obtain ⟨hmem, hgets⟩ := mem_filter.mp hid
  obtain ⟨x, hx, rfl⟩ := mem_map.mp hmem
  exact ⟨⟨x.1, (mem_filter.mp hx).1⟩, by simpa using hgets⟩

/-- The clusters that are chosen can be evicted. -/
lemma CacheOk.chosen (h : CacheOk d gets extra) (n : ℕ) : Chosen d gets ((d.unpinnedFrom gets first).take n) where
  nodup := by
    refine (h.ids_nodup.sublist ?_).sublist (take_sublist n _)
    exact filter_sublist.trans (List.Sublist.map _ filter_sublist)
  cached id hid := (mem_unpinnedFrom (mem_of_mem_take hid)).1
  unpinned id hid := (mem_unpinnedFrom (mem_of_mem_take hid)).2

/-! ### Removing clusters -/

/-- The device after cluster `i` was written back and left the tree; `o` is what is left of it. -/
def Dev.dropClu (d : Dev) (i id : ℕ) (o : Option Clu) : Dev :=
  { d with root := del i d.root, nrClus := d.nrClus - 1, disk := Function.update d.disk i (d.bytes i),
           clus := Function.update d.clus id o }

lemma CacheOk.dropClu (h : CacheOk d gets extra) (hi : (i, id) ∈ d.root) (hgets : gets id = 0) (o : Option Clu)
    (hzero : extra' id = 0 → o = none)
    (hpos : 0 < extra' id → ∃ c, o = some c ∧ c.ref = extra' id ∧ c.dirty = false)
    (he : ∀ j, j ≠ id → extra' j = extra j) : CacheOk (d.dropClu i id o) gets extra' := by
  obtain ⟨c, hc, hok⟩ := h.cached i id hi
  have hlt := h.lt_next hc
  have hclus : ∀ {j}, j ≠ id → (d.dropClu i id o).clus j = d.clus j := fun hj => update_of_ne hj ..
  have hself : (d.dropClu i id o).clus id = o := update_self ..
  -- outside the new tree: the cluster itself, or outside the old one
  have hout : ∀ {id'}, id' ≠ id → (∀ j, (j, id') ∉ del i d.root) → ∀ j, (j, id') ∉ d.root := by
    intro id' hid hno j hj
    exact hno j (mem_del.mpr ⟨hj, fun hji => hid (h.id_unique hi (hji ▸ hj))⟩)
  refine ⟨sorted_del h.sorted, ?_, fun x hx => h.bound x (mem_del.mp hx).1, fun j id' hj => ?_, fun id' hno => ?_,
    fun id' hno h0 => ?_, fun id' hno hp => ?_, fun id' hge => ?_⟩
  · show d.nrClus - 1 = (del i d.root).length
    have hperm := (perm_del_of_find_some h.sorted ((find_eq_some_iff h.sorted).mpr hi)).length_eq
    rw [h.count, hperm, length_cons, Nat.add_sub_cancel]
  · obtain ⟨hj, hji⟩ := mem_del.mp hj
    have hid : id' ≠ id := fun heq => hji (h.index_unique (heq ▸ hj) hi)
    rw [hclus hid, he id' hid, show (d.dropClu i id o).disk j = d.disk j from update_of_ne hji ..]
    exact h.cached j id' hj
  · by_cases hid : id' = id
    · rw [hid, hgets]
    · exact h.unpinned id' (hout hid hno)
  · by_cases hid : id' = id
    · subst hid
      exact hself.trans (hzero h0)
    · rw [hclus hid]
      exact h.freed id' (hout hid hno) (he id' hid ▸ h0)
  · by_cases hid : id' = id
    · subst hid
      rw [hself]
      exact hpos hp
    · rw [hclus hid, he id' hid]
      exact h.loose id' (hout hid hno) (he id' hid ▸ hp)
  · rw [hclus fun heq => absurd hlt (by rw [← heq]; exact not_lt.mpr hge)]
    exact h.fresh id' hge

lemma CacheOk.bytes_dropClu (h : CacheOk d gets extra) (hi : (i, id) ∈ d.root) (o : Option Clu) :
    (d.dropClu i id o).bytes = d.bytes := by
  funext j
  have hroot : (d.dropClu i id o).root = del i d.root := rfl
  by_cases hji : j = i
  · subst hji
    rw [Dev.bytes_of_none (by rw [hroot, find_del, if_pos rfl])]
    exact update_self ..
  · rw [Dev.bytes, Dev.bytes, hroot, find_del, if_neg hji]
    cases hf : find d.root j with
    | none => exact update_of_ne hji ..
    | some id' =>
      have hj := (find_eq_some_iff h.sorted).mp hf
      have hid : id' ≠ id := fun heq => hji (h.index_unique (heq ▸ hj) hi)
      obtain ⟨c, hc, -⟩ := h.cached j id' hj
      have hc' : (d.dropClu i id o).clus id' = some c := (update_of_ne hid ..).trans hc
      dsimp only
      rw [hc, hc']

/-- A cluster that is not dirty is already what a sync makes of it. -/
lemma Dev.synced_eq (hc : d.clus id = some c) (hclean : c.dirty = false → c.pages = d.disk c.index) :
    d.synced id c = { d with disk := update d.disk c.index c.pages }.setClu id { c with dirty := false } := by
  rw [Dev.synced]
  split_ifs with hdirty
  · rfl
  · rw [Bool.not_eq_true] at hdirty
    have hdisk : update d.disk c.index c.pages = d.disk := by rw [hclean hdirty, update_eq_self]
    have hself : { c with dirty := false } = c := by rw [← hdirty]
    rw [hdisk, hself]
    exact (Dev.setClu_eq_self hc).symm

/-- A cluster is cached once. -/
lemma CacheOk.filter_ne_eq_del (h : CacheOk d gets extra) (hi : (i, id) ∈ d.root) :
    d.root.filter (fun x => x.2 ≠ id) = del i d.root := by
  refine filter_congr fun ⟨j, id'⟩ hx => decide_eq_decide.mpr (not_congr ⟨fun hid => ?_, fun hj => ?_⟩)
  · obtain rfl : id' = id := hid
    exact h.index_unique hx hi
  · obtain rfl : j = i := hj
    exact h.id_unique hi hx

lemma CacheOk.length_filter_ne (h : CacheOk d gets extra) (hi : (i, id) ∈ d.root) :
    (d.root.filter fun x => x.2 ≠ id).length + 1 = d.root.length := by
  rw [h.filter_ne_eq_del hi, (perm_del_of_find_some h.sorted ((find_eq_some_iff h.sorted).mpr hi)).length_eq,
    length_cons]

/-- Remove and sync of a cached cluster without gets. -/
lemma remove_sync (h : CacheOk d gets extra) (hi : (i, id) ∈ d.root) (hgets : gets id = 0) (hc : d.clus id = some c)
    (hok : CluOk c i (gets id) (extra id) (d.disk i)) :
    ∃ d₁, dioCluRemove i d = .ok (some id, d₁) ∧
      dioCluSync id d₁ = .ok ((), d.dropClu i id (some { c with dirty := false })) := by
  have hpin : c.pin = 0 := by rw [hok.pin, hgets]; rfl
  refine ⟨{ d with root := del i d.root, nrClus := d.nrClus - 1 }, ?_, ?_⟩
  · refine run_get.trans ?_
    rw [(find_eq_some_iff h.sorted).mpr hi]
    refine (run_bind_ok (cluOf_run hc)).trans ?_
    rw [if_neg (not_not.mpr hpin), if_neg (not_not.mpr hok.index)]
    rfl
  · have href := hok.ref
    have hclean : c.dirty = false → c.pages = d.disk c.index := fun hd => by rw [hok.index, hok.clean hd]
    refine (dioCluSync_run (by exact hc) (by omega)).trans ?_
    rw [Dev.synced_eq (d := { d with root := del i d.root, nrClus := d.nrClus - 1 }) hc hclean, hok.index, Dev.dropClu,
      Dev.bytes_of_mem h.sorted hi hc]
    rfl

lemma Dev.dropClu_setClu {o : Option Clu} : (d.dropClu i id o).setClu id c = d.dropClu i id (some c) := by
  rw [Dev.dropClu, Dev.setClu, update_idem, Dev.dropClu]

lemma Dev.dropClu_self {o : Option Clu} : (d.dropClu i id o).clus id = o := update_self ..

lemma Dev.dropClu_freeClu {o : Option Clu} : (d.dropClu i id o).freeClu id = d.dropClu i id none := by
  rw [Dev.dropClu, Dev.freeClu, update_idem, Dev.dropClu]

/-- What holds after clusters left the tree. -/
structure Shrunk (d d' : Dev) : Prop where
  root : ∀ x ∈ d'.root, x ∈ d.root
  bytes : d'.bytes = d.bytes
  nrPages : d'.nrPages = d.nrPages
  nrMaxClus : d'.nrMaxClus = d.nrMaxClus

lemma Same.shrunk (h : Same d d') : Shrunk d d' := ⟨fun _ hx => h.root ▸ hx, h.bytes, h.nrPages, h.nrMaxClus⟩

lemma Shrunk.trans {d'' : Dev} (h : Shrunk d d') (h' : Shrunk d' d'') : Shrunk d d'' :=
  ⟨fun x hx => h.root x (h'.root x hx), h'.bytes.trans h.bytes, h'.nrPages.trans h.nrPages,
    h'.nrMaxClus.trans h.nrMaxClus⟩

lemma CacheOk.shrunk_dropClu (h : CacheOk d gets extra) (hi : (i, id) ∈ d.root) (o : Option Clu) :
    Shrunk d (d.dropClu i id o) :=
  ⟨fun _ hx => (mem_del.mp hx).1, h.bytes_dropClu hi o, rfl, rfl⟩

/-- The eviction of a cluster that the caller holds. -/
lemma evict_spec (h : CacheOk d gets extra) (hi : (i, id) ∈ d.root) (hgets : gets id = 0) (hextra : 0 < extra id) :
    Runs (evict id) d fun _ d' => CacheOk d' gets extra ∧ Shrunk d d' ∧ d'.root = d.root.filter fun x => x.2 ≠ id := by
  obtain ⟨c, hc, hok⟩ := h.cached i id hi
  obtain ⟨d₁, hremove, hsync⟩ := remove_sync h hi hgets hc hok
  have href := hok.ref
  refine Runs.step (cluOf_run hc) ?_
  rw [hok.index]
  refine Runs.step hremove ?_
  dsimp only
  rw [if_neg (not_not.mpr rfl)]
  refine Runs.step hsync (Runs.step (dioCluDeref_run Dev.dropClu_self (show 1 < c.ref by omega)) ?_)
  rw [Dev.dropClu_setClu]
  refine .intro (dioCluDeref_run Dev.dropClu_self (show 1 < c.ref - 1 by omega)) ?_
  rw [Dev.dropClu_setClu]
  refine ⟨h.dropClu hi hgets _ (fun h0 => absurd h0 (by omega))
    (fun _ => ⟨_, rfl, show c.ref - 1 - 1 = extra id by omega, rfl⟩) fun _ _ => rfl, h.shrunk_dropClu hi _,
    (h.filter_ne_eq_del hi).symm⟩

/-- The second loop takes the first clusters of its list out of the tree, as many as there are too many. -/
lemma evictLoop_spec (h : CacheOk d gets extra) (hch : Chosen d gets ids) (hextra : ∀ id ∈ ids, 0 < extra id) :
    Runs (evictLoop ids) d fun _ d' => CacheOk d' gets extra ∧ Shrunk d d' ∧
      d'.root = d.root.filter fun x => x.2 ∉ ids.take (d.nrClus - d.nrMaxClus) := by
  induction ids generalizing d with
  | nil => exact Runs.pure ⟨h, (Same.refl d).shrunk, by simp⟩
  | cons id ids ih =>
    have hnodup := nodup_cons.mp hch.nodup
    have htail : ∀ {P : ℕ → Prop}, (∀ id' ∈ id :: ids, P id') → ∀ id' ∈ ids, P id' :=
      fun hP id' hid' => hP id' (mem_cons_of_mem _ hid')
    refine Runs.get ?_
    split_ifs with hmax
    · obtain ⟨i, hi⟩ := hch.cached id mem_cons_self
      refine (evict_spec h hi (hch.unpinned id mem_cons_self) (hextra id mem_cons_self)).bind
        fun _ d₁ ⟨h₁, hs₁, hroot₁⟩ => ?_
      have hch₁ : Chosen d₁ gets ids := by
        refine ⟨hnodup.2, fun id' hid' => ?_, htail hch.unpinned⟩
        obtain ⟨j, hj⟩ := hch.cached id' (mem_cons_of_mem _ hid')
        refine ⟨j, hroot₁ ▸ mem_filter.mpr ⟨hj, decide_eq_true fun heq => hnodup.1 (heq ▸ hid')⟩⟩
      refine (ih h₁ hch₁ (htail hextra)).mono fun _ d₂ ⟨h₂, hs₂, hroot₂⟩ => ⟨h₂, hs₁.trans hs₂, ?_⟩
      have hone := h.length_filter_ne hi
      have hleft : d.nrClus - d.nrMaxClus = d₁.nrClus - d₁.nrMaxClus + 1 := by
        rw [h₁.count, hs₁.nrMaxClus, hroot₁]
        have := h.count
        omega
      rw [hroot₂, hroot₁, hleft, take_succ_cons, filter_filter]
      refine filter_congr fun x _ => ?_
      simp only [mem_cons, not_or, Bool.decide_and]
      exact Bool.and_comm ..
    · refine (ih h ⟨hnodup.2, htail hch.cached, htail hch.unpinned⟩ (htail hextra)).mono
        fun _ d₁ ⟨h₁, hs₁, hroot₁⟩ => ⟨h₁, hs₁, hroot₁.trans ?_⟩
      rw [Nat.sub_eq_zero_of_le (not_lt.mp hmax), take_zero, take_zero]

/-- All that `dio_clus_lru_frees` does: it looks at the first unpinned clusters in the order of their indices, as many
as fit on a page, and evicts those of them that `sort` puts first, as many as there are too many. -/
lemma dioClusLruFrees_run {sort : (ℕ → UInt64) → List ℕ → List ℕ} (hsort : ∀ age l, (sort age l).Perm l)
    (h : CacheOk d gets extra) (hmax : d.nrMaxClus < d.nrClus) :
    Runs (dioClusLruFrees sort) d fun _ d' => CacheOk d' gets extra ∧ Shrunk d d' ∧
      ∃ d₁, pickLoop (d.root.length + 1) 0 [] d = .ok ((d.unpinnedFrom gets 0).take nodesLimit, d₁) ∧
        CacheOk d₁ gets (withBatch extra ((d.unpinnedFrom gets 0).take nodesLimit)) ∧ Same d d₁ ∧
        d'.root = d.root.filter fun x =>
          x.2 ∉ (sort d₁.ageOf ((d.unpinnedFrom gets 0).take nodesLimit)).take (d.nrClus - d.nrMaxClus) := by
  refine Runs.get ?_
  rw [if_neg (not_le.mpr hmax)]
  have h₀ := h.congr (fun _ => rfl) (withBatch_nil extra)
  have hfuel : (d.root.filter fun x => 0 ≤ x.1).length < d.root.length + 1 :=
    Nat.lt_succ_of_le (length_filter_le _ _)
  obtain ⟨nodes, d₁, hrun, h₁, hs₁, hnodes⟩ := pickLoop_spec h₀ hfuel
  rw [nil_append, length_nil, Nat.sub_zero] at hnodes
  subst hnodes
  refine Runs.step hrun (Runs.get ?_)
  have hch : Chosen d₁ gets ((d.unpinnedFrom gets 0).take nodesLimit) := by
    have hsame : d.unpinnedFrom gets 0 = d₁.unpinnedFrom gets 0 := by rw [Dev.unpinnedFrom, Dev.unpinnedFrom, hs₁.root]
    rw [hsame]
    exact h₁.chosen nodesLimit
  have hperm := hsort d₁.ageOf ((d.unpinnedFrom gets 0).take nodesLimit)
  have hch' : Chosen d₁ gets (sort d₁.ageOf ((d.unpinnedFrom gets 0).take nodesLimit)) :=
    ⟨hperm.nodup_iff.mpr hch.nodup, fun id hid => hch.cached id (hperm.subset hid),
      fun id hid => hch.unpinned id (hperm.subset hid)⟩
  have h₁' : CacheOk d₁ gets (withBatch extra (sort d₁.ageOf ((d.unpinnedFrom gets 0).take nodesLimit))) :=
    h₁.congr (fun _ => rfl) fun j => by rw [withBatch, withBatch, hperm.count_eq]
  refine (evictLoop_spec h₁' hch' fun id hid => Nat.add_pos_right _ (count_pos_iff.mpr hid)).bind
    fun _ d₂ ⟨h₂, hs₂, hroot₂⟩ => ?_
  refine (derefAll_spec h₂).mono fun _ d₃ ⟨h₃, hs₃⟩ =>
    ⟨h₃, (hs₁.shrunk.trans hs₂).trans hs₃.shrunk, d₁, hrun, h₁, hs₁, ?_⟩
  rw [hs₃.root, hroot₂, hs₁.root, h₁.count, hs₁.root, ← h.count, hs₁.nrMaxClus]

/-- **`dio_clus_lru_frees`** -/
theorem dioClusLruFrees_spec {sort : (ℕ → UInt64) → List ℕ → List ℕ} (hsort : ∀ age l, (sort age l).Perm l)
    (h : CacheOk d gets extra) :
    Runs (dioClusLruFrees sort) d fun _ d' => CacheOk d' gets extra ∧ Shrunk d d' := by
  by_cases hmax : d.nrMaxClus < d.nrClus
  · exact (dioClusLruFrees_run hsort h hmax).mono fun _ d' ⟨h', hs, _⟩ => ⟨h', hs⟩
  · refine Runs.get ?_
    rw [if_pos (not_lt.mp hmax)]
    exact Runs.pure ⟨h, (Same.refl d).shrunk⟩

/-! ### Release of the device -/

lemma releaseBatch_spec (h : CacheOk d (fun _ => 0) (withBatch (fun _ => 0) ids)) (hnodup : ids.Nodup)
    (hin : ∀ id ∈ ids, ∃ i, (i, id) ∈ d.root) :
    Runs (releaseBatch ids) d fun _ d' => CacheOk d' (fun _ => 0) (fun _ => 0) ∧ Shrunk d d' ∧
      d'.root.length + ids.length = d.root.length := by
  induction ids generalizing d with
  | nil => exact Runs.pure ⟨h.congr (fun _ => rfl) fun j => (withBatch_nil (fun _ => 0) j).symm, (Same.refl d).shrunk, rfl⟩
  | cons id ids ih =>
    obtain ⟨hnot, hnodup⟩ := nodup_cons.mp hnodup
    obtain ⟨i, hi⟩ := hin id mem_cons_self
    obtain ⟨c, hc, hok⟩ := h.cached i id hi
    obtain ⟨d₁, hremove, hsync⟩ := remove_sync h hi rfl hc hok
    -- the references of allocation, tree and batch
    have hcount : withBatch (fun _ => 0) (id :: ids) id = 1 := by
      rw [withBatch_cons, bump_self, withBatch, count_eq_zero.mpr hnot]
    have href : c.ref = 3 := by rw [hok.ref, hcount]
    have hpin : { c with pin := 0 } = c := by
      have hzero : c.pin = 0 := hok.pin
      rw [← hzero]
    refine Runs.step (cluOf_run hc) (Runs.step setClu_run ?_)
    rw [hpin, Dev.setClu_eq_self hc, hok.index]
    refine Runs.step hremove ?_
    rw [if_neg (not_not.mpr rfl)]
    refine Runs.step hsync (Runs.step (dioCluDeref_run Dev.dropClu_self (show 1 < c.ref by omega)) ?_)
    rw [Dev.dropClu_setClu]
    refine Runs.step (dioCluDeref_run Dev.dropClu_self (show 1 < c.ref - 1 by omega)) ?_
    rw [Dev.dropClu_setClu]
    refine Runs.step (dioCluDeref_last Dev.dropClu_self (show c.ref - 1 - 1 = 1 by omega) rfl) ?_
    rw [Dev.dropClu_freeClu]
    have h₁ : CacheOk (d.dropClu i id none) (fun _ => 0) (withBatch (fun _ => 0) ids) := by
      refine h.dropClu hi rfl none (fun _ => rfl) (fun hpos => ?_) fun j hj => ?_
      · exact absurd hpos (by rw [withBatch, count_eq_zero.mpr hnot]; omega)
      · rw [withBatch_cons, bump_of_ne _ hj]
    have hlength := (perm_del_of_find_some h.sorted ((find_eq_some_iff h.sorted).mpr hi)).length_eq
    refine (ih h₁ hnodup fun id' hid' => ?_).mono fun _ d₂ ⟨h₂, hs₂, hlen⟩ =>
      ⟨h₂, (h.shrunk_dropClu hi none).trans hs₂, ?_⟩
    · obtain ⟨j, hj⟩ := hin id' (mem_cons_of_mem _ hid')
      refine ⟨j, mem_del.mpr ⟨hj, fun hji => hnot ?_⟩⟩
      obtain rfl : j = i := hji
      exact h.id_unique hi hj ▸ hid'
    · have hlen : d₂.root.length + ids.length = (del i d.root).length := hlen
      rw [length_cons] at hlength ⊢
      omega

lemma releaseLoop_spec {fuel : ℕ} (h : CacheOk d (fun _ => 0) (fun _ => 0)) (hfuel : d.root.length < fuel) :
    Runs (releaseLoop fuel) d fun _ d' => CacheOk d' (fun _ => 0) (fun _ => 0) ∧ Shrunk d d' ∧ d'.root = [] := by
  induction fuel generalizing d with
  | zero => exact absurd hfuel (Nat.not_lt_zero _)
  | succ fuel ih =>
    have hin : ∀ id ∈ d.gang 0, ∃ i, (i, id) ∈ d.root := fun id hid => (mem_gang hid).imp fun _ => And.left
    refine Runs.get ((refBatch_spec h hin).bind fun _ d₁ ⟨h₁, hs₁, _⟩ => ?_)
    split_ifs with hnil hcount
    · rw [h.count, root_of_gang_nil hnil] at hcount
      exact absurd rfl hcount
    · rw [hnil] at h₁
      refine Runs.pure ⟨h₁.congr (fun _ => rfl) fun j => (withBatch_nil (fun _ => 0) j).symm, hs₁.shrunk, ?_⟩
      rw [hs₁.root, root_of_gang_nil hnil]
    · have hin₁ : ∀ id ∈ d.gang 0, ∃ i, (i, id) ∈ d₁.root := by
        rw [hs₁.root]
        exact hin
      refine (releaseBatch_spec h₁ (h.gang_nodup 0) hin₁).bind fun _ d₂ ⟨h₂, hs₂, hlen⟩ => ?_
      have hpos := length_pos_of_ne_nil hnil
      rw [hs₁.root] at hlen
      exact (ih h₂ (by omega)).mono fun _ d₃ ⟨h₃, hs₃, hempty⟩ => ⟨h₃, (hs₁.shrunk.trans hs₂).trans hs₃, hempty⟩

/-- **`dio_clus_release`** frees every cluster and leaves the bytes on the device. -/
theorem dioClusRelease_spec (h : CacheOk d (fun _ => 0) (fun _ => 0)) :
    Runs dioClusRelease d fun _ d' => d'.root = [] ∧ (∀ id, d'.clus id = none) ∧ d'.disk = d.bytes := by
  refine Runs.get ((releaseLoop_spec h (Nat.lt_succ_self _)).mono fun _ d' ⟨h', hs, hempty⟩ => ?_)
  refine ⟨hempty, fun id => h'.freed id (fun i hi => ?_) rfl, ?_⟩
  · rw [hempty] at hi
    exact List.not_mem_nil hi
  · rw [← hs.bytes]
    funext i
    exact (Dev.bytes_of_none (by rw [hempty]; rfl)).symm

end

end Nkfs
