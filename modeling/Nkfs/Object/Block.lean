import Nkfs.Object.Layout

/-!
# Data blocks and their checksum blocks

Block `v` of an object has its checksum in slot `v % 8192` of block `v / 8192` of the checksum table.
`KeysOk` says that the keys of the two trees are block numbers below a limit and that every mapped
block has its checksum block. On such an object lookup is lookup in the maps
(`inodeBlockRead_some`, `inodeBlockRead_none`), and `inodeBlockAlloc_spec` says all that
`nkfs_inode_block_alloc` can do: map a block that was free, or give back everything it took.

Its rollback deletes a key from the checksum tree. With fewer than `T` checksum blocks that tree is
a single leaf and the deletion succeeds; `vlim` is the limit that keeps an object so small, or the
one that the machine's integers give. Above the first the rollback may fault, but only after a
failed allocation (`Late`).
-/

namespace Nkfs

open Lib.Bytes Lib.Program Lib.Assoc List

/-! ### Block numbers -/

/-- Number of checksums in a block. -/
def sumSlots : ℕ := 8192

/-- A bound for block numbers of an object: what a `u64` offset can reach, or `T - 1` checksum
blocks. -/
def vlim (big : Bool) : ℕ := if big then 2 ^ 48 + 1 else (btreeT - 1) * sumSlots

lemma vlim_le (big : Bool) : vlim big ≤ 2 ^ 48 + 1 := by
  cases big <;> decide

/-- The block `b` of an object with its checksum in block `c`. -/
def ibAt (v b c : ℕ) : InodeBlock where
  vblock := v
  block := b
  vsumBlock := v / sumSlots
  sumBlock := c
  sumOff := csumSize * (v % sumSlots)

lemma blockToSumBlock_eq {v : ℕ} (hv : v < 2 ^ 61) :
    blockToSumBlock v blockSize = (v / sumSlots, csumSize * (v % sumSlots)) := by
  have hmul : u64 (v * csumSize) = v * 8 := Nat.mod_eq_of_lt (by show v * 8 < 2 ^ 64; omega)
  show (u64 (v * csumSize) / 65536, u64 (v * csumSize) % 65536) = (v / 8192, 8 * (v % 8192))
  rw [hmul, Prod.mk.injEq]
  omega

/-- The keys of the trees are block numbers below the limit, and a mapped block has a checksum
block. -/
structure KeysOk (big : Bool) (o : Layout) : Prop where
  data : ∀ x ∈ o.data.map, ∃ v < vlim big, x.1 = keyByU64 v ∧ ∃ c, o.sumBlock (v / sumSlots) = some c
  sum : ∀ x ∈ o.sum.map, ∃ w, sumSlots * w < vlim big ∧ x.1 = keyByU64 w

section keys

variable {s : Sb} {o : Layout} {ps : List ℕ} {big : Bool} {v b c : ℕ}

lemma TreeView.Ok.sorted {t : TreeView} (h : t.Ok s) : Sorted t.map := by
  have hs := h.sub.sorted
  rwa [h.entries_eq] at hs

lemma keyByU64_inj {u v : ℕ} (hu : u < vlim big) (hv : v < vlim big)
    (h : keyByU64 u = keyByU64 v) : u = v := by
  have := vlim_le big
  exact keyByU64_injective (by omega) (by omega) h

lemma mem_held_of_find {t : TreeView} {k : Key} (h : t.Ok s) (hf : find t.map k = some b) : b ∈ t.held :=
  mem_append_right _ (mem_map.mpr ⟨(k, b), (find_eq_some_iff h.sorted).mp hf, rfl⟩)

lemma Stored.block_owned (h : Stored s o ps) (hb : o.block v = some b) : s.Owned b :=
  h.owned_block (o.held_mem (mem_held_of_find (h.tree false) hb))

lemma Stored.sumBlock_owned (h : Stored s o ps) {w : ℕ} (hc : o.sumBlock w = some c) : s.Owned c :=
  h.owned_block (o.held_mem (mem_held_of_find (h.tree true) hc))

lemma KeysOk.sumBlock (hk : KeysOk big o) (h : Stored s o ps) (hv : v < vlim big)
    (hb : o.block v = some b) : ∃ c, o.sumBlock (v / sumSlots) = some c := by
  obtain ⟨u, hu, hkey, hc⟩ := hk.data _ ((find_eq_some_iff (h.tree false).sorted).mp hb)
  obtain rfl := keyByU64_inj hv hu hkey
  exact hc

/-- Distinct numbers below `n` make at most `n` keys. -/
lemma length_le_of_keys {l : List (Key × ℕ)} {n : ℕ} (hs : Sorted l)
    (hl : ∀ x ∈ l, ∃ w < n, x.1 = keyByU64 w) : l.length ≤ n := by
  have hnd : (l.map Prod.fst).Nodup := by
    rw [nodup_iff_pairwise_ne, pairwise_map]
    exact hs.imp fun hlt => hlt.ne
  have hsub : (l.map Prod.fst).toFinset ⊆ (Finset.range n).image keyByU64 := by
    intro k hk
    obtain ⟨x, hx, rfl⟩ := mem_map.mp (mem_toFinset.mp hk)
    obtain ⟨w, hw, hkey⟩ := hl x hx
    exact Finset.mem_image.mpr ⟨w, Finset.mem_range.mpr hw, hkey.symm⟩
  calc l.length = (l.map Prod.fst).toFinset.card := by
        rw [toFinset_card_of_nodup hnd, length_map]
    _ ≤ ((Finset.range n).image keyByU64).card := Finset.card_le_card hsub
    _ ≤ n := Finset.card_image_le.trans_eq (Finset.card_range n)

end keys

/-! ### Lookup -/

section lookup

variable {s : Sb} {o : Layout} {ps : List ℕ} {inode : Inode} {v b c : ℕ}

/-- The inode in memory has the trees of the layout. -/
structure Layout.Trees (o : Layout) (inode : Inode) : Prop where
  data : inode.blocksTree = some o.data.tree
  sum : inode.blocksSumTree = some o.sum.tree

lemma derefTree_run {t : Tree} {p : Option Tree} (h : p = some t) : derefTree p s = .ok (t, s) := by
  rw [h]
  rfl

lemma openClus_run {ib : InodeBlock} (hb : s.Owned ib.block) (hc : s.Owned ib.sumBlock) :
    openClus ib s = .ok (.ok (), s) := by
  unfold openClus
  rw [run_get, if_neg (not_or.mpr ⟨not_le.mpr hb.lt, not_le.mpr hc.lt⟩)]
  rfl

lemma inodeBlockRead_none (h : Stored s o ps) (hi : o.Trees inode) (hb : o.block v = none) :
    inodeBlockRead inode v s = .ok (.error .enoent, s) := by
  unfold inodeBlockRead
  rw [run_bind_ok (derefTree_run hi.data), run_bind_ok (derefTree_run hi.sum)]
  have hfind := findKey_run (t := o.data.tree) rfl (h.tree false) (keyByU64 v)
  rw [show find (o.tree false).map (keyByU64 v) = none from hb] at hfind
  exact run_bind_ok hfind

lemma inodeBlockRead_some (h : Stored s o ps) (hi : o.Trees inode) (hv : v < 2 ^ 61)
    (hb : o.block v = some b) (hc : o.sumBlock (v / sumSlots) = some c) :
    inodeBlockRead inode v s = .ok (.ok (ibAt v b c), s) := by
  unfold inodeBlockRead
  rw [run_bind_ok (derefTree_run hi.data), run_bind_ok (derefTree_run hi.sum)]
  have hfind := findKey_run (t := o.data.tree) rfl (h.tree false) (keyByU64 v)
  rw [show find (o.tree false).map (keyByU64 v) = some b from hb] at hfind
  have hfind₂ := findKey_run (t := o.sum.tree) rfl (h.tree true) (keyByU64 (v / sumSlots))
  rw [show find (o.tree true).map (keyByU64 (v / sumSlots)) = some c from hc] at hfind₂
  rw [run_bind_ok hfind, blockToSumBlock_eq hv]
  refine (run_bind_ok hfind₂).trans ?_
  exact run_bind_ok (openClus_run (h.block_owned hb) (h.sumBlock_owned hc))

end lookup

/-! ### Allocation -/

section alloc

variable {s₀ s : Sb} {o₀ o : Layout} {ps : List ℕ} {big : Bool} {inode : Inode} {v b c : ℕ}

/-- A fault that only a large object can meet, after more than `f` failed allocations. -/
def Late (big : Bool) (f : ℕ) : Fault → Sb → Prop := fun _ s' => big = true ∧ f < s'.allocFails

lemma Late.mono {f f' : ℕ} (hf : f ≤ f') : ∀ e s', Late big f' e s' → Late big f e s' :=
  fun _ _ h => ⟨h.1, hf.trans_lt h.2⟩

/-- With fewer than `T` keys a tree is a single leaf, and any key can be deleted. -/
lemma TreeView.Ok.roomy {t : TreeView} (h : t.Ok s) (hlen : t.map.length < btreeT) (k : Key) :
    Roomy s.nodes k (t.height - 1) t.root := by
  rw [h.height_eq_one hlen]
  trivial

/-- The rollback when the checksum tree was not changed: what is in flight is given back. -/
lemma inodeBlockAllocFail_run (allocated : Bool) {t : Tree} {e : Errno}
    (hw : Work s₀ s o₀ o (if allocated then [c, b] else [b])) :
    Runs (inodeBlockAllocFail t (ibAt v b c) allocated false e) s fun r s' =>
      r = .error e ∧ s'.allocFails = s.allocFails ∧ Work s₀ s' o₀ o [] := by
  have hlast : ∀ {s : Sb}, Work s₀ s o₀ o [b] → Runs (do
      let _ ← blockFree b
      return .error e : M (Except Errno InodeBlock)) s fun r s' =>
        r = .error e ∧ s'.allocFails = s.allocFails ∧ Work s₀ s' o₀ o [] := fun hw =>
    Runs.step hw.free.1 (Runs.pure ⟨rfl, rfl, hw.free.2⟩)
  cases allocated with
  | false => exact hlast hw
  | true =>
    have hw : Work s₀ s o₀ o [c, b] := hw
    show Runs (ignore (blockFree c) >>= fun _ => _) s _
    exact Runs.step (run_bind_ok hw.free.1) (hlast hw.free.2)

/-- The rollback after the checksum block was put in the tree: the key is deleted again. -/
lemma inodeBlockAllocFail_spec {e : Errno} (hw : Work s₀ s o₀ o [b])
    (hc : o.sumBlock (v / sumSlots) = some c) (hnew : s₀.bm c = false)
    (hsmall : big = true ∨ o.sum.map.length < btreeT) (f : ℕ) (hf : f < s.allocFails) :
    Ends (inodeBlockAllocFail o.sum.tree (ibAt v b c) true true e) s (fun r s' =>
      r = .error e ∧ s'.allocFails = s.allocFails ∧
        ∃ t, t.map = del (keyByU64 (v / sumSlots)) o.sum.map ∧ Work s₀ s' o₀ (o.setTree true t) [])
      (Late big f) := by
  show Ends (ignore (deleteKey o.sum.tree (keyByU64 (v / sumSlots))) >>= fun _ =>
    inodeBlockAllocFail o.sum.tree (ibAt v b c) true false e) s _ _
  by_cases hroomy : Roomy s.nodes (keyByU64 (v / sumSlots)) (o.sum.height - 1) o.sum.root
  · obtain ⟨r, s₁, hrun, hf₁, t, ht, hw₁⟩ := hw.delete true hc hnew hroomy
    refine Ends.step (run_bind_ok hrun) (Runs.ends ?_)
    refine (inodeBlockAllocFail_run true hw₁).mono ?_
    rintro _ s' ⟨rfl, hf', hw'⟩
    exact ⟨rfl, hf'.trans hf₁, t, ht, hw'⟩
  · rcases hsmall with hbig | hlen
    · obtain ⟨e', s', hrun, -, hle⟩ := deleteKey_stops (t := o.sum.tree) rfl (hw.stored.tree true)
        (keyByU64 (v / sumSlots)) hroomy
      exact Or.inr ⟨e', s', run_bind_error (run_bind_error hrun), hbig, hf.trans_le hle⟩
    · exact absurd ((hw.stored.tree true).roomy hlen _) hroomy

/-- What mapping block `v` to `b` ends in; `fresh` tells whether the checksum block came with it. -/
def Mapped (s₀ s : Sb) (o₀ o : Layout) (v b c : ℕ) (fresh : Bool) (r : Except Errno InodeBlock)
    (s' : Sb) : Prop :=
  (r = .ok (ibAt v b c) ∧ s'.allocFails = s.allocFails ∧ ∃ o', Work s₀ s' o₀ o' [] ∧
    o'.data.map = put (keyByU64 v) b o.data.map ∧ o'.sum.map = o.sum.map) ∨
  (∃ e, r = .error e ∧ s.allocFails < s'.allocFails ∧ ¬ s.Ample (o.data.height + 2) ∧
    ∃ o', Work s₀ s' o₀ o' [] ∧ o'.data.map = o.data.map ∧
      o'.sum.map = if fresh then del (keyByU64 (v / sumSlots)) o.sum.map else o.sum.map)

lemma inodeBlockAllocMap_spec (big fresh : Bool) (hw : Work s₀ s o₀ o [b])
    (hb : o.block v = none) (hc : o.sumBlock (v / sumSlots) = some c)
    (hnew : fresh = true → s₀.bm c = false)
    (hsmall : fresh = true → big = true ∨ o.sum.map.length < btreeT) :
    Ends (inodeBlockAllocMap o.data.tree o.sum.tree (ibAt v b c) fresh) s
      (Mapped s₀ s o₀ o v b c fresh) (Late big s.allocFails) := by
  unfold inodeBlockAllocMap
  have hown := hw.stored.owned b (mem_append_right _ (mem_singleton_self b))
  refine Ends.step (openClus_run hown (hw.stored.sumBlock_owned hc)) ?_
  refine Ends.bind (hw.insert false hb).ends ?_
  rintro _ s₁ (⟨rfl, hf, t, _, ht, -, -, hw₁⟩ | ⟨e, rfl, hf, hfull, t, ht, hw₁⟩)
  · exact Runs.ends (Runs.pure (Or.inl ⟨rfl, hf, _, hw₁, ht, rfl⟩))
  · cases fresh with
    | false =>
      refine Runs.ends ((inodeBlockAllocFail_run false hw₁).mono ?_)
      rintro _ s' ⟨rfl, hf', hw'⟩
      exact Or.inr ⟨e, rfl, hf'.symm ▸ hf, hfull, _, hw', ht, rfl⟩
    | true =>
      refine (inodeBlockAllocFail_spec hw₁ hc (hnew rfl) (hsmall rfl) _ hf).mono ?_ fun _ _ h => h
      rintro _ s' ⟨rfl, hf', t', ht', hw'⟩
      exact Or.inr ⟨e, rfl, hf'.symm ▸ hf, hfull, _, hw', ht, ht'⟩

/-- Free blocks that are enough to map one more block. -/
def Layout.room (o : Layout) : ℕ := o.data.height + o.sum.height + o.sum.map.length + 8

/-- What `nkfs_inode_block_alloc` ends in. -/
def Allocated (s : Sb) (o : Layout) (v : ℕ) (r : Except Errno InodeBlock) (s' : Sb) : Prop :=
  (∃ o' b c, r = .ok (ibAt v b c) ∧ s'.allocFails = s.allocFails ∧ Work s s' o o' [] ∧
    s.bm b = false ∧ o'.data.map = put (keyByU64 v) b o.data.map ∧
    (o.sumBlock (v / sumSlots) = some c ∧ o'.sum.map = o.sum.map ∨
      o.sumBlock (v / sumSlots) = none ∧ o'.sum.map = put (keyByU64 (v / sumSlots)) c o.sum.map)) ∨
  (∃ e o', r = .error e ∧ s.allocFails < s'.allocFails ∧ ¬ s.Ample o.room ∧ Work s s' o o' [] ∧
    o'.data.map = o.data.map ∧ o'.sum.map = o.sum.map)

/-- **Allocation of a block.** A block that is not mapped becomes so, with its checksum block, or
everything that was taken is given back. -/
theorem inodeBlockAlloc_spec (h : Stored s o []) (hk : KeysOk big o) (hi : o.Trees inode)
    (hv : v < vlim big) (hb : o.block v = none) :
    Ends (inodeBlockAlloc inode v) s (Allocated s o v) (Late big s.allocFails) := by
  have hv61 : v < 2 ^ 61 := by
    have := vlim_le big
    omega
  unfold inodeBlockAlloc
  refine Ends.step (derefTree_run hi.data) (Ends.step (derefTree_run hi.sum) ?_)
  refine Ends.bind (Work.refl h).alloc.ends ?_
  rintro _ s₁ (⟨b, rfl, hst₁, hw₁, hf₁⟩ | ⟨e, rfl, hw₁, hf₁, hfull⟩)
  swap
  · refine Runs.ends (Runs.pure (Or.inr ⟨e, o, rfl, hf₁, fun ha => hfull (ha.mono ?_), hw₁, rfl, rfl⟩))
    rw [Layout.room]
    omega
  have hfree := (hst₁.free b (List.mem_singleton_self b)).1
  have hroom₁ : ∀ {n : ℕ}, s.Ample (n + 1) → s₁.Ample n := fun ha => hst₁.ample ha
  have hfind := findKey_run (t := o.sum.tree) rfl (hw₁.stored.tree true) (keyByU64 (v / sumSlots))
  simp only [blockToSumBlock_eq hv61]
  cases hc : o.sumBlock (v / sumSlots) with
  | some c =>
    rw [show find (o.tree true).map (keyByU64 (v / sumSlots)) = some c from hc] at hfind
    refine Ends.step hfind ?_
    refine (inodeBlockAllocMap_spec big false hw₁ hb hc (fun h => nomatch h)
      fun h => nomatch h).mono ?_ (Late.mono hf₁.ge)
    rintro r s' (⟨rfl, hf, o', hw', hd, hs⟩ | ⟨e, rfl, hf, hfull, o', hw', hd, hs⟩)
    · exact Or.inl ⟨o', b, c, rfl, hf.trans hf₁, hw', hfree, hd, Or.inl ⟨hc, hs⟩⟩
    · refine Or.inr ⟨e, o', rfl, hf₁ ▸ hf, fun ha => hfull (hroom₁ (ha.mono ?_)), hw', hd, hs⟩
      rw [Layout.room]
      omega
  | none =>
    have hnone : find (o.tree true).map (keyByU64 (v / sumSlots)) = none := hc
    rw [hnone] at hfind
    refine Ends.step hfind (Ends.bind hw₁.alloc.ends ?_)
    rintro _ s₂ (⟨c, rfl, hst₂, hw₂, hf₂⟩ | ⟨e, rfl, hw₂, hf₂, hfull⟩)
    swap
    · refine Runs.ends ((inodeBlockAllocFail_run (v := v) (c := 0) false hw₂).mono ?_)
      rintro _ s' ⟨rfl, hf, hw'⟩
      refine Or.inr ⟨e, o, rfl, by omega, fun ha => hfull (hroom₁ (ha.mono ?_)), hw', rfl, rfl⟩
      rw [Layout.room]
      omega
    have hcfree := hw₁.free_before (hst₂.free c (List.mem_singleton_self c)).1
    have hroom₂ : ∀ {n : ℕ}, s.Ample (n + 2) → s₂.Ample n := fun ha => hst₂.ample (hroom₁ ha)
    refine Ends.bind (hw₂.insert true hnone).ends ?_
    rintro _ s₃ (⟨rfl, hf₃, t, fresh, ht, hst₃, hlen, hw₃⟩ | ⟨e, rfl, hf₃, hfull, t, ht, hw₃⟩)
    · have hc₃ : (o.setTree true t).sumBlock (v / sumSlots) = some c := by
        show find t.map _ = some c
        rw [ht, find_put, if_pos rfl]
      have hsmall : big = true ∨ (o.setTree true t).sum.map.length < btreeT := by
        cases big with
        | true => exact Or.inl rfl
        | false =>
          refine Or.inr (Nat.lt_of_le_of_lt (m := btreeT - 1) ?_ (by decide))
          refine length_le_of_keys ((hw₃.stored.tree true).sorted) fun x hx => ?_
          have hx : x ∈ t.map := hx
          rw [ht, mem_put] at hx
          have hlim : vlim false = (btreeT - 1) * 8192 := rfl
          rcases hx with rfl | ⟨hx, -⟩
          · exact ⟨v / 8192, by omega, rfl⟩
          · obtain ⟨w, hw, hkey⟩ := hk.sum x hx
            have hw : 8192 * w < vlim false := hw
            exact ⟨w, by omega, hkey⟩
      have hroot : (o.setTree true t).sum.root = o.sum.root := hw₃.root true
      have hmap := inodeBlockAllocMap_spec big true hw₃ hb hc₃ (fun _ => hcfree)
        fun _ => hsmall
      rw [show (o.setTree true t).sum.tree = o.sum.tree from congrArg (Tree.mk · false) hroot] at hmap
      refine hmap.mono ?_ (Late.mono (f := s.allocFails) (by omega))
      rintro r s' (⟨rfl, hf, o', hw', hd, hs⟩ | ⟨e, rfl, hf, hfull, o', hw', hd, hs⟩)
      · exact Or.inl ⟨o', b, c, rfl, by omega, hw', hfree, hd, Or.inr ⟨hc, hs.trans ht⟩⟩
      · refine Or.inr ⟨e, o', rfl, by omega, fun ha => hfull (hst₃.ample (hroom₂ (ha.mono ?_))),
          hw', hd, ?_⟩
        · rw [Layout.room]
          show o.data.height + 2 + fresh.length + 2 ≤ _
          have : fresh.length ≤ o.sum.map.length + 1 := hlen
          omega
        · rw [if_pos rfl] at hs
          rw [hs, show (o.setTree true t).sum.map = t.map from rfl, ht]
          exact del_put_of_find_none (hw₁.stored.tree true).sorted hnone
    · refine Runs.ends ((inodeBlockAllocFail_run (v := v) true hw₃).mono ?_)
      rintro _ s' ⟨rfl, hf, hw'⟩
      refine Or.inr ⟨e, _, rfl, by omega, fun ha => hfull (hroom₂ (ha.mono ?_)), hw', rfl, ht⟩
      rw [Layout.room]
      show o.sum.height + 2 + 2 ≤ _
      omega

end alloc

end Nkfs
