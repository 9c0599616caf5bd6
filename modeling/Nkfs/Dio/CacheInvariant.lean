import Nkfs.Dio.Cache

/-!
# References of the cluster cache

`CacheOk d gets extra`: the clusters of the tree have two references of their own, `gets` from
`dio_clu_get` and `extra` that the running function took; a cluster outside the tree has only the
`extra` ones, and is freed with the last. `Dev.bytes` are the logical contents: the pages of a cached
cluster, the device elsewhere. Each function of the cache keeps both.
-/

namespace Nkfs

open Lib.Assoc Lib.Bytes Lib.Program Function

/-! ### Pages -/

section pages

variable {nrPages pgIdx pgOff read len off : ℕ} {pages buf : Mem}

/-- A round of the loop moves something, and only the last one may end inside a page. -/
lemma pageStep_spec (pgIdx : ℕ) (hoff : pgOff < pageSize) (hread : read < len) :
    let step := if len - read > pageSize - pgOff then pageSize - pgOff else len - read
    0 < step ∧ read + step ≤ len ∧ (read + step < len → (pgIdx + 1) * pageSize + 0 = pgIdx * pageSize + pgOff + step) := by
  dsimp only
  rw [Nat.add_mul]
  split_ifs with h
  · exact ⟨by omega, by omega, fun _ => by omega⟩
  · exact ⟨by omega, by omega, fun h => by omega⟩

/-- A page index inside the cluster. -/
lemma pageIdx_lt (hread : read < len) (hroom : pgIdx * pageSize + pgOff + (len - read) ≤ nrPages * pageSize) :
    pgIdx < nrPages := by
  by_contra hge
  have := Nat.mul_le_mul_right pageSize (not_lt.mp hge)
  omega

/-- A copy in two parts, the second of which may be empty. -/
lemma copyIn_two (m src : Mem) {a a' k n : ℕ} (hk : k ≤ n) (ha : k < n → a' = a + k) :
    copyIn (copyIn m a src k) a' (fun i => src (k + i)) (n - k) = copyIn m a src n := by
  rcases Nat.lt_or_ge k n with h | h
  · rw [ha h, copyIn_append, Nat.add_sub_cancel' hk]
  · obtain rfl : k = n := by omega
    rw [Nat.sub_self, copyIn_none]

/-- Writing: the rest of the buffer goes to where the loop stands. -/
lemma pagesIoLoop_write {fuel : ℕ} (hfuel : len - read < fuel) (hle : read ≤ len) (hoff : pgOff < pageSize)
    (hroom : read < len → pgIdx * pageSize + pgOff + (len - read) ≤ nrPages * pageSize) :
    pagesIoLoop nrPages true fuel pgIdx pgOff read len pages buf =
      .ok (copyIn pages (pgIdx * pageSize + pgOff) (fun i => buf (read + i)) (len - read), buf) := by
  induction fuel generalizing pgIdx pgOff read pages with
  | zero => omega
  | succ fuel ih =>
    rw [pagesIoLoop]
    by_cases hread : read < len
    · obtain ⟨hpos, hstep, haddr⟩ := pageStep_spec pgIdx hoff hread
      have hroom := hroom hread
      rw [if_pos hread, if_neg (not_le.mpr (pageIdx_lt hread hroom)), if_pos rfl]
      generalize (if len - read > pageSize - pgOff then pageSize - pgOff else len - read) = step at *
      rw [ih (by omega) hstep (by decide) fun hlast => by rw [haddr hlast]; omega]
      have htwo := copyIn_two (n := len - read) pages (fun i => buf (read + i)) (by omega)
        fun hlast : step < len - read => haddr (by omega)
      rw [← htwo, Nat.sub_sub]
      simp only [add_assoc]
    · obtain rfl : read = len := by omega
      rw [if_neg hread, Nat.sub_self, copyIn_none]

/-- Reading: the bytes from where the loop stands go to the rest of the buffer. -/
lemma pagesIoLoop_read {fuel : ℕ} (hfuel : len - read < fuel) (hle : read ≤ len) (hoff : pgOff < pageSize)
    (hroom : read < len → pgIdx * pageSize + pgOff + (len - read) ≤ nrPages * pageSize) :
    pagesIoLoop nrPages false fuel pgIdx pgOff read len pages buf =
      .ok (pages, copyIn buf read (fun i => pages (pgIdx * pageSize + pgOff + i)) (len - read)) := by
  induction fuel generalizing pgIdx pgOff read buf with
  | zero => omega
  | succ fuel ih =>
    rw [pagesIoLoop]
    by_cases hread : read < len
    · obtain ⟨hpos, hstep, haddr⟩ := pageStep_spec pgIdx hoff hread
      have hroom := hroom hread
      rw [if_pos hread, if_neg (not_le.mpr (pageIdx_lt hread hroom)), if_neg (by decide)]
      generalize (if len - read > pageSize - pgOff then pageSize - pgOff else len - read) = step at *
      rw [ih (by omega) hstep (by decide) fun hlast => by rw [haddr hlast]; omega]
      have htwo := copyIn_two (a := read) (n := len - read) buf (fun i => pages (pgIdx * pageSize + pgOff + i))
        (show step ≤ len - read by omega) fun _ => rfl
      have hsrc : ∀ i < len - (read + step),
          pages ((pgIdx + 1) * pageSize + 0 + i) = pages (pgIdx * pageSize + pgOff + (step + i)) := fun i hi => by
        rw [haddr (by omega), add_assoc _ step]
      rw [← htwo, Nat.sub_sub, copyIn_congr hsrc]
    · obtain rfl : read = len := by omega
      rw [if_neg hread, Nat.sub_self, copyIn_none]

/-- **`dio_pages_io`** copies the range. -/
theorem dioPagesIo_write (h : off + len ≤ nrPages * pageSize) :
    dioPagesIo nrPages true pages buf off len = .ok (copyIn pages off buf len, buf) := by
  have haddr : off / pageSize * pageSize + off % pageSize = off := Nat.div_add_mod' off pageSize
  rw [dioPagesIo, if_neg (not_lt.mpr h), pagesIoLoop_write (by omega) (Nat.zero_le _) (Nat.mod_lt _ (by decide))
    fun _ => by rw [haddr]; exact h, haddr]
  simp only [Nat.zero_add, Nat.sub_zero]

lemma dioPagesIo_read (h : off + len ≤ nrPages * pageSize) :
    dioPagesIo nrPages false pages buf off len = .ok (pages, copyIn buf 0 (fun i => pages (off + i)) len) := by
  have haddr : off / pageSize * pageSize + off % pageSize = off := Nat.div_add_mod' off pageSize
  rw [dioPagesIo, if_neg (not_lt.mpr h), pagesIoLoop_read (by omega) (Nat.zero_le _) (Nat.mod_lt _ (by decide))
    fun _ => by rw [haddr]; exact h, haddr]
  simp only [Nat.sub_zero]

end pages

/-! ### Steps on one cluster -/

section run

variable {d : Dev} {id i : ℕ} {c c' : Clu}

/-- The device without the cluster `id`. -/
def Dev.freeClu (d : Dev) (id : ℕ) : Dev := { d with clus := Function.update d.clus id none }

/-- The device after a sync of the cluster `id`. -/
def Dev.synced (d : Dev) (id : ℕ) (c : Clu) : Dev :=
  if c.dirty then { d.setClu id { c with dirty := false } with disk := Function.update d.disk c.index c.pages }
  else d

lemma Dev.setClu_self : (d.setClu id c).clus id = some c := update_self ..

lemma Dev.setClu_of_ne {j : ℕ} (h : j ≠ id) : (d.setClu id c).clus j = d.clus j := update_of_ne h ..

lemma Dev.setClu_setClu : (d.setClu id c).setClu id c' = d.setClu id c' := by
  rw [Dev.setClu, Dev.setClu, Dev.setClu, update_idem]

lemma Dev.setClu_freeClu : (d.setClu id c).freeClu id = d.freeClu id := by
  rw [Dev.setClu, Dev.freeClu, Dev.freeClu, update_idem]

lemma cluOf_run (h : d.clus id = some c) : cluOf id d = .ok (c, d) := by
  rw [cluOf, run_get, h]
  rfl

lemma setClu_run : setClu id c d = .ok ((), d.setClu id c) := rfl

lemma dioCluRef_run (h : d.clus id = some c) (href : c.ref ≠ 0) :
    dioCluRef id d = .ok ((), d.setClu id { c with ref := c.ref + 1 }) := by
  refine (run_bind_ok (cluOf_run h)).trans ?_
  rw [if_neg href]
  rfl

lemma dioCluPin_run (h : d.clus id = some c) :
    dioCluPin id d = .ok ((), d.setClu id { c with pin := c.pin + 1 }) :=
  (run_bind_ok (cluOf_run h)).trans rfl

lemma dioCluUnpin_run (h : d.clus id = some c) :
    dioCluUnpin id d = .ok ((), d.setClu id { c with pin := c.pin - 1 }) :=
  (run_bind_ok (cluOf_run h)).trans rfl

lemma dioCluTouch_run (h : d.clus id = some c) :
    dioCluTouch id d = .ok ((), d.setClu id { c with age := c.age ||| ((1 : UInt64) <<< 63) }) :=
  (run_bind_ok (cluOf_run h)).trans rfl

lemma dioCluAge_run (h : d.clus id = some c) :
    dioCluAge id d = .ok ((), d.setClu id { c with age := c.age >>> 1 }) :=
  (run_bind_ok (cluOf_run h)).trans rfl

/-- A reference that is not the last. -/
lemma dioCluDeref_run (h : d.clus id = some c) (href : 1 < c.ref) :
    dioCluDeref id d = .ok ((), d.setClu id { c with ref := c.ref - 1 }) := by
  refine (run_bind_ok (cluOf_run h)).trans ?_
  rw [if_neg (by omega)]
  refine (run_bind_ok setClu_run).trans ?_
  rw [if_neg (by omega)]
  rfl

/-- The last reference. -/
lemma dioCluDeref_last (h : d.clus id = some c) (href : c.ref = 1) (hdirty : c.dirty = false) :
    dioCluDeref id d = .ok ((), d.freeClu id) := by
  refine (run_bind_ok (cluOf_run h)).trans ?_
  rw [if_neg (by omega)]
  refine (run_bind_ok setClu_run).trans ?_
  rw [if_pos (by omega)]
  refine (run_bind_ok (cluOf_run Dev.setClu_self)).trans ?_
  rw [if_neg (by simp [hdirty])]
  exact congrArg (fun d => Except.ok ((), d)) Dev.setClu_freeClu

lemma dioCluSync_run (h : d.clus id = some c) (href : c.ref ≠ 0) :
    dioCluSync id d = .ok ((), d.synced id c) := by
  refine (run_bind_ok (cluOf_run h)).trans ?_
  rw [Dev.synced]
  split_ifs with hdirty
  · -- the reference is given back, so only the flag and the device change
    let d₁ : Dev := { d with disk := update d.disk c.index c.pages }
    let c₁ : Clu := { c with ref := c.ref + 1 }
    refine (run_bind_ok (dioCluRef_run h href)).trans ?_
    have hdisk : (modify fun d => { d with disk := update d.disk c.index c.pages } : D PUnit) (d.setClu id c₁) =
        .ok ((), d₁.setClu id c₁) := rfl
    refine (run_bind_ok hdisk).trans ?_
    refine (run_bind_ok (cluOf_run Dev.setClu_self)).trans ?_
    refine (run_bind_ok setClu_run).trans ?_
    rw [Dev.setClu_setClu]
    have href₁ : 1 < ({ c₁ with dirty := false } : Clu).ref := by
      show 1 < c.ref + 1
      omega
    rw [dioCluDeref_run Dev.setClu_self href₁, Dev.setClu_setClu]
    rfl
  · rfl

/-- The first read of a cluster. -/
lemma dioCluWaitRead_run (h : d.clus id = some c) (href : c.ref ≠ 0) (hstart : c.readStart = false) :
    dioCluWaitRead id d =
      .ok ((), d.setClu id { c with readStart := true, pages := d.disk c.index, read := true }) := by
  refine (run_bind_ok (cluOf_run h)).trans ?_
  rw [if_neg (by simp [hstart])]
  refine (run_bind_ok setClu_run).trans ?_
  have href₀ : ({ c with readStart := true } : Clu).ref ≠ 0 := href
  refine (run_bind_ok (dioCluRef_run Dev.setClu_self href₀)).trans ?_
  rw [Dev.setClu_setClu]
  refine run_get.trans ?_
  refine (run_bind_ok (cluOf_run Dev.setClu_self)).trans ?_
  refine (run_bind_ok setClu_run).trans ?_
  rw [Dev.setClu_setClu]
  have href₁ : 1 < c.ref + 1 := by omega
  rw [dioCluDeref_run Dev.setClu_self href₁, Dev.setClu_setClu]
  rfl

lemma dioCluReady_run (h : d.clus id = some c) (hread : c.read = true) : dioCluReady id d = .ok ((), d) := by
  refine (run_bind_ok (cluOf_run h)).trans ?_
  rw [if_pos hread]
  rfl

/-- **`dio_clu_read`** of a cluster that is read -/
theorem dioCluRead_run {buf : Mem} {len off : ℕ} (h : d.clus id = some c) (hread : c.read = true)
    (hlen : off + len ≤ d.cluSize) :
    dioCluRead id buf len off d = .ok (copyIn buf 0 (fun i => c.pages (off + i)) len, d) := by
  refine run_get.trans ?_
  rw [if_neg (not_lt.mpr hlen)]
  refine (run_bind_ok (dioCluReady_run h hread)).trans ?_
  refine (run_bind_ok (cluOf_run h)).trans ?_
  exact (run_bind_ok (run_lift (dioPagesIo_read hlen))).trans rfl

/-- **`dio_clu_write`** to a cluster that is read -/
theorem dioCluWrite_run {buf : Mem} {len off : ℕ} (h : d.clus id = some c) (hread : c.read = true)
    (hlen : off + len ≤ d.cluSize) :
    dioCluWrite id buf len off d =
      .ok ((), d.setClu id { c with dirty := true, pages := copyIn c.pages off buf len }) := by
  refine run_get.trans ?_
  rw [if_neg (not_lt.mpr hlen)]
  refine (run_bind_ok (dioCluReady_run h hread)).trans ?_
  refine (run_bind_ok (cluOf_run h)).trans ?_
  rw [if_neg (by simp [hread])]
  exact (run_bind_ok (run_lift (dioPagesIo_write hlen))).trans rfl

lemma Dev.setClu_eq_self (h : d.clus id = some c) : d.setClu id c = d := by
  rw [Dev.setClu, ← h, update_eq_self]

/-- The loop of `dio_clu_zero` on the pages from `off` on; the cluster is dirty unless nothing was
written. -/
lemma cluZeroLoop_run {left off : ℕ} (h : d.clus id = some c) (hread : c.read = true)
    (hlen : off + left * pageSize = d.cluSize) :
    ∃ dirty, cluZeroLoop id left off d = .ok ((), d.setClu id
      { c with dirty := dirty, pages := copyIn c.pages off (fun _ => 0) (left * pageSize) }) ∧
      (dirty = false → left = 0 ∧ c.dirty = false) := by
  induction left generalizing d c off with
  | zero =>
    refine ⟨c.dirty, ?_, fun hd => ⟨rfl, hd⟩⟩
    rw [zero_mul, copyIn_none, Dev.setClu_eq_self h]
    rfl
  | succ left ih =>
    rw [Nat.add_mul, one_mul] at hlen
    have hwrite : dioCluWrite id (fun _ => 0) pageSize off d = _ := dioCluWrite_run h hread (by omega)
    obtain ⟨dirty, hrun, hdirty⟩ := ih
      (c := { c with dirty := true, pages := copyIn c.pages off (fun _ => 0) pageSize }) Dev.setClu_self hread
      (show off + pageSize + left * pageSize = d.cluSize by omega)
    refine ⟨dirty, ?_, fun hd => absurd (hdirty hd).2 (by simp)⟩
    refine (run_bind_ok hwrite).trans (hrun.trans ?_)
    have hpages := copyIn_append c.pages (fun _ => 0) off pageSize (left * pageSize)
    rw [Dev.setClu_setClu, Nat.add_mul, one_mul, add_comm (left * pageSize), ← hpages]

/-- **`dio_clu_zero`** -/
theorem dioCluZero_run (h : d.clus id = some c) (hread : c.read = true) :
    ∃ dirty, dioCluZero id d = .ok ((), d.setClu id
      { c with dirty := dirty, pages := copyIn c.pages 0 (fun _ => 0) d.cluSize }) ∧
      (dirty = false → d.cluSize = 0 ∧ c.dirty = false) := by
  obtain ⟨dirty, hrun, hdirty⟩ := cluZeroLoop_run h hread (Nat.zero_add (d.nrPages * pageSize))
  refine ⟨dirty, run_get.trans hrun, fun hd => ?_⟩
  obtain ⟨hpages, hc⟩ := hdirty hd
  exact ⟨by rw [Dev.cluSize, hpages, Nat.zero_mul], hc⟩

end run

/-! ### The invariant -/

/-- A cached cluster of index `i` with `g` gets and `e` further references, over the bytes on the
device. -/
structure CluOk (c : Clu) (i g e : ℕ) (disk : Mem) : Prop where
  index : c.index = i
  ref : c.ref = 2 + g + e
  pin : c.pin = g
  read : c.read = true
  clean : c.dirty = false → c.pages = disk

/-- The clusters of the tree have two references of their own, those of the gets and the `extra` ones;
the others only the `extra` ones. -/
structure CacheOk (d : Dev) (gets extra : ℕ → ℕ) : Prop where
  sorted : Sorted d.root
  count : d.nrClus = d.root.length
  bound : ∀ x ∈ d.root, x.1 < 2 ^ 51
  cached : ∀ i id, (i, id) ∈ d.root → ∃ c, d.clus id = some c ∧ CluOk c i (gets id) (extra id) (d.disk i)
  unpinned : ∀ id, (∀ i, (i, id) ∉ d.root) → gets id = 0
  freed : ∀ id, (∀ i, (i, id) ∉ d.root) → extra id = 0 → d.clus id = none
  loose : ∀ id, (∀ i, (i, id) ∉ d.root) → 0 < extra id → ∃ c, d.clus id = some c ∧ c.ref = extra id ∧ c.dirty = false
  fresh : ∀ id, d.next ≤ id → d.clus id = none

/-- The bytes of cluster `i`: the pages if it is cached, the device otherwise. -/
def Dev.bytes (d : Dev) (i : ℕ) : Mem :=
  match find d.root i with
  | none => d.disk i
  | some id =>
    match d.clus id with
    | none => d.disk i
    | some c => c.pages

section ok

variable {d d' : Dev} {gets gets' extra extra' : ℕ → ℕ} {i j id : ℕ} {c c' : Clu}

lemma cacheOk_init (nrPages nrMaxClus : ℕ) (disk : ℕ → Mem) :
    CacheOk (Dev.init nrPages nrMaxClus disk) (fun _ => 0) (fun _ => 0) where
  sorted := List.Pairwise.nil
  count := rfl
  bound _ hx := absurd hx List.not_mem_nil
  cached _ _ hx := absurd hx List.not_mem_nil
  unpinned _ _ := rfl
  freed _ _ _ := rfl
  loose _ _ h := absurd h (lt_irrefl 0)
  fresh _ _ := rfl

/-- A cluster has one index. -/
lemma CacheOk.index_unique (h : CacheOk d gets extra) (hi : (i, id) ∈ d.root) (hj : (j, id) ∈ d.root) : i = j := by
  obtain ⟨c, hc, hok⟩ := h.cached i id hi
  obtain ⟨c', hc', hok'⟩ := h.cached j id hj
  obtain rfl : c = c' := Option.some.inj (hc.symm.trans hc')
  exact hok.index.symm.trans hok'.index

lemma CacheOk.lt_next (h : CacheOk d gets extra) (hc : d.clus id = some c) : id < d.next := by
  by_contra hge
  rw [h.fresh id (not_lt.mp hge)] at hc
  cases hc

lemma CacheOk.congr (h : CacheOk d gets extra) (hg : ∀ id, gets' id = gets id) (he : ∀ id, extra' id = extra id) :
    CacheOk d gets' extra' := by
  obtain rfl : gets' = gets := funext hg
  obtain rfl : extra' = extra := funext he
  exact h

lemma Dev.bytes_of_mem (h : Sorted d.root) (hi : (i, id) ∈ d.root) (hc : d.clus id = some c) : d.bytes i = c.pages := by
  rw [Dev.bytes, (find_eq_some_iff h).mpr hi]
  dsimp only
  rw [hc]

lemma Dev.bytes_of_none (hi : find d.root i = none) : d.bytes i = d.disk i := by
  rw [Dev.bytes, hi]

/-- A cached cluster changes. -/
lemma CacheOk.setClu (h : CacheOk d gets extra) (hi : (i, id) ∈ d.root)
    (hc : CluOk c i (gets' id) (extra' id) (d.disk i)) (hg : ∀ j, j ≠ id → gets' j = gets j)
    (he : ∀ j, j ≠ id → extra' j = extra j) : CacheOk (d.setClu id c) gets' extra' where
  sorted := h.sorted
  count := h.count
  bound := h.bound
  cached j id' hj := by
    by_cases hid : id' = id
    · subst hid
      obtain rfl := h.index_unique hi hj
      exact ⟨c, Dev.setClu_self, hc⟩
    · rw [Dev.setClu_of_ne hid, hg id' hid, he id' hid]
      exact h.cached j id' hj
  unpinned id' hno := by
    have hid : id' ≠ id := fun heq => hno i (heq ▸ hi)
    rw [hg id' hid]
    exact h.unpinned id' hno
  freed id' hno hzero := by
    have hid : id' ≠ id := fun heq => hno i (heq ▸ hi)
    rw [Dev.setClu_of_ne hid]
    exact h.freed id' hno (he id' hid ▸ hzero)
  loose id' hno hpos := by
    have hid : id' ≠ id := fun heq => hno i (heq ▸ hi)
    rw [Dev.setClu_of_ne hid, he id' hid]
    exact h.loose id' hno (he id' hid ▸ hpos)
  fresh id' hge := by
    obtain ⟨c', hc', -⟩ := h.cached i id hi
    rw [Dev.setClu_of_ne fun heq => absurd (h.lt_next hc') (by rw [← heq]; exact not_lt.mpr hge)]
    exact h.fresh id' hge

/-- The bytes after a cached cluster changed. -/
lemma CacheOk.bytes_setClu (h : CacheOk d gets extra) (hi : (i, id) ∈ d.root) :
    (d.setClu id c).bytes = update d.bytes i c.pages := by
  funext j
  have hroot : (d.setClu id c).root = d.root := rfl
  by_cases hji : j = i
  · subst hji
    rw [update_self, Dev.bytes_of_mem (d := d.setClu id c) h.sorted hi Dev.setClu_self]
  · rw [update_of_ne hji, Dev.bytes, Dev.bytes, hroot]
    cases hf : find d.root j with
    | none => rfl
    | some id' =>
      have hid : id' ≠ id := fun heq =>
        hji (h.index_unique (heq ▸ (find_eq_some_iff h.sorted).mp hf) hi)
      dsimp only
      rw [Dev.setClu_of_ne hid]
      rfl

/-- Same clusters in the tree, same bytes. -/
structure Same (d d' : Dev) : Prop where
  root : d'.root = d.root
  bytes : d'.bytes = d.bytes
  nrPages : d'.nrPages = d.nrPages
  nrMaxClus : d'.nrMaxClus = d.nrMaxClus

lemma Same.refl (d : Dev) : Same d d := ⟨rfl, rfl, rfl, rfl⟩

lemma Same.trans {d'' : Dev} (h : Same d d') (h' : Same d' d'') : Same d d'' :=
  ⟨h'.root.trans h.root, h'.bytes.trans h.bytes, h'.nrPages.trans h.nrPages, h'.nrMaxClus.trans h.nrMaxClus⟩

/-- A cached cluster changes, but not its pages. -/
lemma CacheOk.same_setClu (h : CacheOk d gets extra) (hi : (i, id) ∈ d.root) (hc : d.clus id = some c)
    (hpages : c'.pages = c.pages) : Same d (d.setClu id c') := by
  refine ⟨rfl, ?_, rfl, rfl⟩
  rw [h.bytes_setClu hi, hpages, ← Dev.bytes_of_mem h.sorted hi hc, update_eq_self]

/-- A cluster outside the tree changes or is freed. -/
lemma CacheOk.updateLoose (h : CacheOk d gets extra) (hno : ∀ i, (i, id) ∉ d.root) (hlt : id < d.next)
    (o : Option Clu) (hzero : extra' id = 0 → o = none)
    (hpos : 0 < extra' id → ∃ c, o = some c ∧ c.ref = extra' id ∧ c.dirty = false)
    (he : ∀ j, j ≠ id → extra' j = extra j) :
    CacheOk { d with clus := update d.clus id o } gets extra' := by
  have hclus : ∀ {j}, j ≠ id → update d.clus id o j = d.clus j := fun hj => update_of_ne hj ..
  refine ⟨h.sorted, h.count, h.bound, fun j id' hj => ?_, h.unpinned, fun id' hno' h0 => ?_, fun id' hno' hp => ?_,
    fun id' hge => ?_⟩
  · have hid : id' ≠ id := fun heq => hno j (heq ▸ hj)
    show ∃ c, update d.clus id o id' = some c ∧ _
    rw [hclus hid, he id' hid]
    exact h.cached j id' hj
  · show update d.clus id o id' = none
    by_cases hid : id' = id
    · subst hid
      rw [update_self]
      exact hzero h0
    · rw [hclus hid]
      exact h.freed id' hno' (he id' hid ▸ h0)
  · show ∃ c, update d.clus id o id' = some c ∧ _
    by_cases hid : id' = id
    · subst hid
      rw [update_self]
      exact hpos hp
    · rw [hclus hid, he id' hid]
      exact h.loose id' hno' (he id' hid ▸ hp)
  · show update d.clus id o id' = none
    rw [hclus fun heq => absurd hlt (by rw [← heq]; exact not_lt.mpr hge)]
    exact h.fresh id' hge

/-- A cluster outside the tree is not part of the bytes. -/
lemma CacheOk.same_updateLoose (h : CacheOk d gets extra) (hno : ∀ i, (i, id) ∉ d.root) (o : Option Clu) :
    Same d { d with clus := update d.clus id o } := by
  refine ⟨rfl, funext fun j => ?_, rfl, rfl⟩
  rw [Dev.bytes, Dev.bytes]
  cases hf : find d.root j with
  | none => rfl
  | some id' =>
    have hid : id' ≠ id := fun heq => hno j (heq ▸ (find_eq_some_iff h.sorted).mp hf)
    dsimp only
    rw [update_of_ne hid]

/-! ### Functions -/

/-- One more for `id`. -/
def bump (f : ℕ → ℕ) (id : ℕ) : ℕ → ℕ := fun j => if j = id then f j + 1 else f j

lemma bump_self (f : ℕ → ℕ) (id : ℕ) : bump f id id = f id + 1 := if_pos rfl

lemma bump_of_ne (f : ℕ → ℕ) (h : j ≠ id) : bump f id j = f j := if_neg h

lemma dioCluRef_spec (h : CacheOk d gets extra) (hi : (i, id) ∈ d.root) :
    Runs (dioCluRef id) d fun _ d' => CacheOk d' gets (bump extra id) ∧ Same d d' := by
  obtain ⟨c, hc, hok⟩ := h.cached i id hi
  have href := hok.ref
  refine .intro (dioCluRef_run hc (by omega)) ⟨h.setClu hi ?_ (fun _ _ => rfl) fun _ => bump_of_ne extra,
    h.same_setClu hi hc rfl⟩
  refine ⟨hok.index, ?_, hok.pin, hok.read, hok.clean⟩
  show c.ref + 1 = 2 + gets id + bump extra id id
  rw [bump_self]
  omega

lemma dioCluDeref_spec (h : CacheOk d gets (bump extra id)) :
    Runs (dioCluDeref id) d fun _ d' => CacheOk d' gets extra ∧ Same d d' := by
  have hself := bump_self extra id
  have hother : ∀ j, j ≠ id → extra j = bump extra id j := fun j hj => (bump_of_ne extra hj).symm
  by_cases hin : ∃ i, (i, id) ∈ d.root
  · obtain ⟨i, hi⟩ := hin
    obtain ⟨c, hc, hok⟩ := h.cached i id hi
    have href := hok.ref
    refine .intro (dioCluDeref_run hc (by omega)) ⟨h.setClu hi ?_ (fun _ _ => rfl) hother, h.same_setClu hi hc rfl⟩
    exact ⟨hok.index, show c.ref - 1 = _ by omega, hok.pin, hok.read, hok.clean⟩
  · have hno : ∀ i, (i, id) ∉ d.root := fun i hi => hin ⟨i, hi⟩
    obtain ⟨c, hc, href, hdirty⟩ := h.loose id hno (by omega)
    have hlt := h.lt_next hc
    by_cases hlast : extra id = 0
    · exact .intro (dioCluDeref_last hc (by omega) hdirty)
        ⟨h.updateLoose hno hlt none (fun _ => rfl) (fun hp => absurd hp (by omega)) hother, h.same_updateLoose hno none⟩
    · exact .intro (dioCluDeref_run hc (by omega)) ⟨h.updateLoose hno hlt _ (fun h0 => absurd h0 hlast)
          (fun _ => ⟨_, rfl, show c.ref - 1 = extra id by omega, hdirty⟩) hother, h.same_updateLoose hno _⟩

/-- **`dio_clu_put`** gives a get back. -/
theorem dioCluPut_spec (h : CacheOk d (bump gets id) extra) :
    Runs (dioCluPut id) d fun _ d' => CacheOk d' gets extra ∧ Same d d' := by
  have hself := bump_self gets id
  obtain ⟨i, hi⟩ : ∃ i, (i, id) ∈ d.root := by
    by_contra hno
    have := h.unpinned id fun i hi => hno ⟨i, hi⟩
    omega
  obtain ⟨c, hc, hok⟩ := h.cached i id hi
  have href := hok.ref
  have hpin := hok.pin
  have hunpin : CacheOk (d.setClu id { c with pin := c.pin - 1 }) gets (bump extra id) := by
    refine h.setClu hi ⟨hok.index, ?_, ?_, hok.read, hok.clean⟩ (fun j hj => (bump_of_ne gets hj).symm)
      fun j => bump_of_ne extra
    · show c.ref = 2 + gets id + bump extra id id
      rw [bump_self]
      omega
    · show c.pin - 1 = gets id
      rw [hpin, hself]
      push_cast
      ring
  have hsame : Same d (d.setClu id { c with pin := c.pin - 1 }) := h.same_setClu hi hc rfl
  exact Runs.step (dioCluUnpin_run hc) ((dioCluDeref_spec hunpin).mono fun _ d' hd => ⟨hd.1, hsame.trans hd.2⟩)

/-- The tree has one cluster for an index. -/
lemma CacheOk.id_unique {id' : ℕ} (h : CacheOk d gets extra) (hi : (i, id) ∈ d.root) (hi' : (i, id') ∈ d.root) :
    id' = id := by
  rw [← find_eq_some_iff h.sorted] at hi hi'
  exact Option.some.inj (hi'.symm.trans hi)

/-- The pages of a cached cluster go to the device. -/
lemma CacheOk.writeDisk (h : CacheOk d gets extra) (hi : (i, id) ∈ d.root) (hc : d.clus id = some c) :
    CacheOk { d with disk := update d.disk i c.pages } gets extra := by
  refine ⟨h.sorted, h.count, h.bound, fun j id' hj => ?_, h.unpinned, h.freed, h.loose, h.fresh⟩
  obtain ⟨c', hc', hok'⟩ := h.cached j id' hj
  refine ⟨c', hc', hok'.index, hok'.ref, hok'.pin, hok'.read, fun hd => ?_⟩
  show c'.pages = update d.disk i c.pages j
  by_cases hji : j = i
  · subst hji
    obtain rfl := h.id_unique hi hj
    rw [update_self, Option.some.inj (hc.symm.trans hc')]
  · rw [update_of_ne hji]
    exact hok'.clean hd

/-- The device under a cached cluster is not part of the bytes. -/
lemma CacheOk.same_writeDisk (h : CacheOk d gets extra) (hi : (i, id) ∈ d.root) (m : Mem) :
    Same d { d with disk := update d.disk i m } := by
  refine ⟨rfl, funext fun j => ?_, rfl, rfl⟩
  rw [Dev.bytes, Dev.bytes]
  cases hf : find d.root j with
  | none =>
    have hji : j ≠ i := fun heq => by
      rw [heq, (find_eq_some_iff h.sorted).mpr hi] at hf
      cases hf
    exact update_of_ne hji ..
  | some id' =>
    obtain ⟨c', hc', -⟩ := h.cached j id' ((find_eq_some_iff h.sorted).mp hf)
    dsimp only
    rw [hc']

/-- **`dio_clu_sync`** of a cached cluster -/
theorem dioCluSync_spec (h : CacheOk d gets extra) (hi : (i, id) ∈ d.root) :
    Runs (dioCluSync id) d fun _ d' => CacheOk d' gets extra ∧ Same d d' := by
  obtain ⟨c, hc, hok⟩ := h.cached i id hi
  have href := hok.ref
  refine .intro (dioCluSync_run hc (by omega)) ?_
  obtain rfl := hok.index
  rw [Dev.synced]
  split_ifs with hdirty
  · have hdisk := h.writeDisk hi hc
    have hclean : CluOk { c with dirty := false } c.index (gets id) (extra id)
        (Function.update d.disk c.index c.pages c.index) :=
      ⟨rfl, hok.ref, hok.pin, hok.read, fun _ => by rw [Function.update_self]⟩
    exact ⟨hdisk.setClu hi hclean (fun _ _ => rfl) fun _ _ => rfl,
      (h.same_writeDisk hi c.pages).trans (hdisk.same_setClu hi hc rfl)⟩
  · exact ⟨h, .refl d⟩

/-- **`dio_clu_write`** to a cached cluster -/
theorem dioCluWrite_spec {buf : Mem} {len off : ℕ} (h : CacheOk d gets extra) (hi : (i, id) ∈ d.root)
    (hlen : off + len ≤ d.cluSize) : Runs (dioCluWrite id buf len off) d fun _ d' => CacheOk d' gets extra ∧
      d'.root = d.root ∧ d'.nrPages = d.nrPages ∧
      d'.bytes = Function.update d.bytes i (copyIn (d.bytes i) off buf len) := by
  obtain ⟨c, hc, hok⟩ := h.cached i id hi
  refine .intro (dioCluWrite_run hc hok.read hlen) ⟨h.setClu hi ?_ (fun _ _ => rfl) fun _ _ => rfl, rfl, rfl, ?_⟩
  · exact ⟨hok.index, hok.ref, hok.pin, hok.read, fun hd => nomatch hd⟩
  · rw [h.bytes_setClu hi, Dev.bytes_of_mem h.sorted hi hc]

/-- **`dio_clu_zero`** of a cached cluster -/
theorem dioCluZero_spec (h : CacheOk d gets extra) (hi : (i, id) ∈ d.root) :
    Runs (dioCluZero id) d fun _ d' => CacheOk d' gets extra ∧ d'.root = d.root ∧ d'.nrPages = d.nrPages ∧
      d'.bytes = Function.update d.bytes i (copyIn (d.bytes i) 0 (fun _ => 0) d.cluSize) := by
  obtain ⟨c, hc, hok⟩ := h.cached i id hi
  obtain ⟨dirty, hrun, hdirty⟩ := dioCluZero_run hc hok.read
  refine .intro hrun ⟨h.setClu hi ?_ (fun _ _ => rfl) fun _ _ => rfl, rfl, rfl, ?_⟩
  · refine ⟨hok.index, hok.ref, hok.pin, hok.read, fun hd => ?_⟩
    obtain ⟨hsize, hclean⟩ := hdirty hd
    show copyIn c.pages 0 (fun _ => 0) d.cluSize = d.disk i
    rw [hsize, copyIn_none, hok.clean hclean]
  · rw [h.bytes_setClu hi, Dev.bytes_of_mem h.sorted hi hc]

/-- **`dio_clu_read`** of a cached cluster -/
theorem dioCluRead_spec {buf : Mem} {len off : ℕ} (h : CacheOk d gets extra) (hi : (i, id) ∈ d.root)
    (hlen : off + len ≤ d.cluSize) : Runs (dioCluRead id buf len off) d fun buf' d' =>
      d' = d ∧ slice buf' 0 len = slice (d.bytes i) off len := by
  obtain ⟨c, hc, hok⟩ := h.cached i id hi
  refine .intro (dioCluRead_run hc hok.read hlen) ⟨rfl, ?_⟩
  rw [Dev.bytes_of_mem h.sorted hi hc, slice_eq_iff]
  intro k hk
  rw [Nat.zero_add, copyIn_zero _ _ hk]

/-! ### Getting a cluster -/

/-- The device with a new cluster for an index in the tree. -/
def Dev.insertClu (d : Dev) (index : ℕ) (c : Clu) : Dev :=
  { d with root := put index d.next d.root, nrClus := d.nrClus + 1, next := d.next + 1 }.setClu d.next c

lemma CacheOk.next_notMem (h : CacheOk d gets extra) (i : ℕ) : (i, d.next) ∉ d.root := fun hi => by
  obtain ⟨c, hc, -⟩ := h.cached i d.next hi
  exact lt_irrefl _ (h.lt_next hc)

lemma CacheOk.insertClu {index : ℕ} (h : CacheOk d gets extra) (hnone : find d.root index = none)
    (hindex : index < 2 ^ 51) (hc : CluOk c index 1 0 (d.disk index)) :
    CacheOk (d.insertClu index c) (bump gets d.next) extra := by
  have hgets : gets d.next = 0 := h.unpinned d.next h.next_notMem
  have hextra : extra d.next = 0 := by
    by_contra hne
    obtain ⟨c', hc', -⟩ := h.loose d.next h.next_notMem (Nat.pos_of_ne_zero hne)
    exact lt_irrefl _ (h.lt_next hc')
  -- outside the new tree is outside the old one
  have hout : ∀ {id'}, (∀ i, (i, id') ∉ put index d.next d.root) → id' ≠ d.next ∧ ∀ i, (i, id') ∉ d.root := by
    intro id' hno
    refine ⟨fun heq => hno index (mem_put.mpr (.inl (by rw [heq]))), fun i hi => hno i (mem_put.mpr (.inr ⟨hi, ?_⟩))⟩
    exact fun heq => find_eq_none_iff.mp hnone _ hi heq
  refine ⟨sorted_put h.sorted, ?_, fun x hx => ?_, fun j id' hj => ?_, fun id' hno => ?_, fun id' hno h0 => ?_,
    fun id' hno hp => ?_, fun id' hge => ?_⟩
  · show d.nrClus + 1 = (put index d.next d.root).length
    rw [length_put_of_find_none hnone, h.count]
  · rcases mem_put.mp hx with rfl | ⟨hx, -⟩
    · exact hindex
    · exact h.bound x hx
  · rcases mem_put.mp hj with heq | ⟨hj, -⟩
    · obtain ⟨rfl, rfl⟩ := Prod.mk.inj heq
      exact ⟨c, Dev.setClu_self, by rwa [bump_self, hgets, hextra]⟩
    · have hid : id' ≠ d.next := fun heq => h.next_notMem j (heq ▸ hj)
      rw [Dev.insertClu, Dev.setClu_of_ne hid, bump_of_ne gets hid]
      exact h.cached j id' hj
  · obtain ⟨hid, hno⟩ := hout hno
    rw [bump_of_ne gets hid]
    exact h.unpinned id' hno
  · obtain ⟨hid, hno⟩ := hout hno
    rw [Dev.insertClu, Dev.setClu_of_ne hid]
    exact h.freed id' hno h0
  · obtain ⟨hid, hno⟩ := hout hno
    rw [Dev.insertClu, Dev.setClu_of_ne hid]
    exact h.loose id' hno hp
  · have hge : d.next + 1 ≤ id' := hge
    rw [Dev.insertClu, Dev.setClu_of_ne (by omega)]
    exact h.fresh id' (by omega)

lemma CacheOk.bytes_insertClu {index : ℕ} (h : CacheOk d gets extra) (hnone : find d.root index = none)
    (hpages : c.pages = d.disk index) : (d.insertClu index c).bytes = d.bytes := by
  funext j
  have hroot : (d.insertClu index c).root = put index d.next d.root := rfl
  rw [Dev.bytes, Dev.bytes, hroot, find_put]
  by_cases hj : j = index
  · subst hj
    rw [if_pos rfl, hnone]
    dsimp only
    rw [Dev.insertClu, Dev.setClu_self]
    exact hpages
  · rw [if_neg hj]
    cases hf : find d.root j with
    | none => rfl
    | some id' =>
      have hid : id' ≠ d.next := fun heq => h.next_notMem j (heq ▸ (find_eq_some_iff h.sorted).mp hf)
      dsimp only
      rw [Dev.insertClu, Dev.setClu_of_ne hid]
      rfl

/-- What a get leaves. -/
structure Got (d : Dev) (index id : ℕ) (d' : Dev) : Prop where
  mem : (index, id) ∈ d'.root
  root : ∀ x ∈ d.root, x ∈ d'.root
  bytes : d'.bytes = d.bytes
  nrPages : d'.nrPages = d.nrPages

/-- A get of a cluster that is cached. -/
lemma dioCluGet_cached {index : ℕ} (h : CacheOk d gets extra) (hi : (index, id) ∈ d.root) :
    Runs (dioCluGet index) d fun id d' => CacheOk d' (bump gets id) extra ∧ Got d index id d' := by
  obtain ⟨c, hc, hok⟩ := h.cached index id hi
  have href := hok.ref
  let c' : Clu := { c with ref := c.ref + 1, pin := c.pin + 1, age := c.age ||| ((1 : UInt64) <<< 63) }
  have hlookup : dioCluLookupCreate index d = .ok (id, d.setClu id c') := by
    refine run_get.trans ?_
    rw [(find_eq_some_iff h.sorted).mpr hi]
    refine (run_bind_ok (dioCluRef_run hc (by omega))).trans ?_
    refine (run_bind_ok (dioCluPin_run Dev.setClu_self)).trans ?_
    rw [Dev.setClu_setClu]
    refine (run_bind_ok (dioCluTouch_run Dev.setClu_self)).trans ?_
    rw [Dev.setClu_setClu]
    rfl
  refine Runs.step hlookup (Runs.step (cluOf_run Dev.setClu_self) ?_)
  rw [if_pos hok.read]
  refine Runs.pure ⟨h.setClu hi ?_ (fun _ => bump_of_ne gets) fun _ _ => rfl, hi, fun _ hx => hx, ?_, rfl⟩
  · refine ⟨hok.index, ?_, ?_, hok.read, hok.clean⟩
    · show c.ref + 1 = 2 + bump gets id id + extra id
      rw [bump_self]
      omega
    · show c.pin + 1 = (bump gets id id : ℕ)
      rw [bump_self, hok.pin]
      push_cast
      rfl
  · exact (h.same_setClu hi hc (show c'.pages = c.pages from rfl)).bytes

/-- A get of a cluster that is not. -/
lemma dioCluGet_new {index : ℕ} (h : CacheOk d gets extra) (hnone : find d.root index = none)
    (hindex : index < 2 ^ 51) :
    Runs (dioCluGet index) d fun id d' => CacheOk d' (bump gets id) extra ∧ Got d index id d' := by
  let c₀ : Clu := { ref := 1, pin := 0, index := index, dirty := false, read := false, readStart := false,
                    pages := fun _ => 0, age := 0 }
  let c : Clu := { c₀ with ref := 3, pin := 1, age := c₀.age ||| ((1 : UInt64) <<< 63) }
  let c' : Clu := { c with readStart := true, pages := d.disk index, read := true }
  let d₀ : Dev := { d with root := put index d.next d.root, nrClus := d.nrClus + 1, next := d.next + 1 }
  have halloc : dioCluAlloc index d = .ok (d.next, { d.setClu d.next c₀ with next := d.next + 1 }) := rfl
  have hinsert : (modify fun d' => { d' with root := put index d.next d'.root, nrClus := d'.nrClus + 1 } : D PUnit)
      { d.setClu d.next c₀ with next := d.next + 1 } = .ok ((), d₀.setClu d.next c₀) := rfl
  have hlookup : dioCluLookupCreate index d = .ok (d.next, d.insertClu index c) := by
    refine run_get.trans ?_
    rw [hnone]
    refine (run_bind_ok halloc).trans ((run_bind_ok hinsert).trans ?_)
    refine (run_bind_ok (dioCluRef_run Dev.setClu_self (show (1 : ℕ) ≠ 0 by decide))).trans ?_
    rw [Dev.setClu_setClu]
    refine (run_bind_ok (dioCluRef_run Dev.setClu_self (show (2 : ℕ) ≠ 0 by decide))).trans ?_
    rw [Dev.setClu_setClu]
    refine (run_bind_ok (dioCluPin_run Dev.setClu_self)).trans ?_
    rw [Dev.setClu_setClu]
    refine (run_bind_ok (dioCluTouch_run Dev.setClu_self)).trans ?_
    rw [Dev.setClu_setClu]
    rfl
  have hread : dioCluWaitRead d.next (d.insertClu index c) = .ok ((), d.insertClu index c') := by
    refine (dioCluWaitRead_run Dev.setClu_self (show (3 : ℕ) ≠ 0 by decide) rfl).trans ?_
    rw [Dev.insertClu, Dev.setClu_setClu]
    rfl
  refine Runs.step hlookup (Runs.step (cluOf_run Dev.setClu_self) ?_)
  refine Runs.step hread (Runs.pure ⟨h.insertClu hnone hindex ⟨rfl, rfl, rfl, rfl, fun _ => rfl⟩, ?_, ?_, ?_, rfl⟩)
  · exact mem_put.mpr (.inl rfl)
  · exact fun x hx => mem_put.mpr (.inr ⟨hx, fun heq => find_eq_none_iff.mp hnone x hx heq⟩)
  · exact h.bytes_insertClu hnone rfl

/-- **`dio_clu_get`** -/
theorem dioCluGet_spec {index : ℕ} (h : CacheOk d gets extra) (hindex : index < 2 ^ 51) :
    Runs (dioCluGet index) d fun id d' => CacheOk d' (bump gets id) extra ∧ Got d index id d' := by
  cases hf : find d.root index with
  | none => exact dioCluGet_new h hf hindex
  | some id => exact dioCluGet_cached h ((find_eq_some_iff h.sorted).mp hf)

end ok

end Nkfs
