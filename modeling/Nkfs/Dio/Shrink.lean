import Nkfs.Dio.Evict
import Nkfs.Lib.Selection

/-!
# Shrinking the cache (`dio_clus_shrink`)

`dio_clus_shrink` calls `dio_clus_lru_frees` until there are few enough clusters. Each call evicts something as
long as some cluster is unpinned, and nothing afterwards, so the loop ends exactly if the pinned clusters alone
are few enough.

A call looks at the first 512 unpinned clusters in the order of their indices and evicts the oldest among them.
With no cluster pinned, the whole of `dio_clus_shrink` therefore evicts blocks of 512 clusters regardless of age,
and then the oldest of one further block (`shrinkLoop_unpinned`). Whether these are the oldest of all clusters
is a matter of counting (`OldestFirst`); up to 512 clusters it is always so.
-/

namespace Nkfs

open Lib.Assoc Lib.Bytes Lib.Program Lib.Selection List

/-- `hang` if the loop has not ended after that many rounds. Source: `core/dio.c` `dio_clus_shrink` -/
def shrinkLoop (sort : (ℕ → UInt64) → List ℕ → List ℕ) : ℕ → D Unit
  | 0 => stop .hang
  | rounds + 1 => do
    let d ← get
    if d.nrClus > d.nrMaxClus then
      dioClusLruFrees sort
      shrinkLoop sort rounds
    else return ()

/-- Source: `core/dio.c` `dio_clu_pinned` -/
def Dev.pinned (d : Dev) (id : ℕ) : Bool := ((d.clus id).map fun c => decide (c.pin ≠ 0)).getD false

/-- The number of pinned clusters in the tree. -/
def Dev.nrPinned (d : Dev) : ℕ := (d.root.filter fun x => d.pinned x.2).length

/-- What `sort` has to do with `dio_clu_age_cmp`. -/
structure SortsByAge (sort : (ℕ → UInt64) → List ℕ → List ℕ) : Prop where
  perm : ∀ age l, (sort age l).Perm l
  sorted : ∀ age l, (sort age l).Pairwise fun x y => age x ≤ age y

section

variable {d d' : Dev} {gets extra : ℕ → ℕ} {sort : (ℕ → UInt64) → List ℕ → List ℕ} {i id : ℕ} {c c' : Clu}

/-! ### Pinned clusters -/

lemma CacheOk.pinned_iff (h : CacheOk d gets extra) (hi : (i, id) ∈ d.root) : d.pinned id = true ↔ gets id ≠ 0 := by
  obtain ⟨c, hc, hok⟩ := h.cached i id hi
  rw [Dev.pinned, hc, Option.map_some, Option.getD_some, decide_eq_true_iff, hok.pin]
  exact not_congr Int.natCast_eq_zero

lemma CacheOk.nrPinned_eq (h : CacheOk d gets extra) :
    d.nrPinned = (d.root.filter fun x => gets x.2 ≠ 0).length := by
  refine congrArg length (filter_congr fun x hx => ?_)
  rw [Bool.eq_iff_iff, h.pinned_iff (show (x.1, x.2) ∈ d.root from hx), decide_eq_true_iff]

lemma unpinnedFrom_zero : d.unpinnedFrom gets 0 = (d.root.map Prod.snd).filter fun id => gets id = 0 := by
  have hall : d.root.filter (fun x => 0 ≤ x.1) = d.root :=
    filter_eq_self.mpr fun x _ => decide_eq_true (Nat.zero_le x.1)
  rw [Dev.unpinnedFrom, hall]

/-! ### One call -/

/-- A sort. -/
def ageSort (age : ℕ → UInt64) (l : List ℕ) : List ℕ := l.mergeSort fun x y => decide (age x ≤ age y)

lemma sortsByAge_ageSort : SortsByAge ageSort where
  perm age l := mergeSort_perm l _
  sorted age l := by
    have hsorted : (ageSort age l).Pairwise fun x y => decide (age x ≤ age y) = true := by
      refine pairwise_mergeSort (fun a b c hab hbc => ?_) (fun a b => ?_) l
      · exact decide_eq_true (UInt64.le_trans (of_decide_eq_true hab) (of_decide_eq_true hbc))
      · rw [Bool.or_eq_true, decide_eq_true_iff, decide_eq_true_iff]
        exact UInt64.le_total _ _
    exact hsorted.imp fun h => of_decide_eq_true h

/-- A device with the clusters `0 .. n - 1` in the cache. -/
def Dev.filled (n nrMaxClus : ℕ) (gets : ℕ → ℕ) (age : ℕ → UInt64) : Dev where
  nrPages := 16
  nrMaxClus := nrMaxClus
  nrClus := n
  root := (List.range n).map fun i => (i, i)
  clus id :=
    if id < n then
      some { ref := 2 + gets id, pin := gets id, index := id, dirty := false, read := true, readStart := true,
             pages := fun _ => 0, age := age id }
    else none
  next := n
  disk _ _ := 0

lemma mem_root_filled {n nrMaxClus : ℕ} {age : ℕ → UInt64} :
    (i, id) ∈ (Dev.filled n nrMaxClus gets age).root ↔ i = id ∧ id < n := by
  simp only [Dev.filled, mem_map, mem_range, Prod.mk.injEq]
  constructor
  · rintro ⟨j, hj, rfl, rfl⟩
    exact ⟨rfl, hj⟩
  · rintro ⟨rfl, hlt⟩
    exact ⟨i, hlt, rfl, rfl⟩

lemma cacheOk_filled (n nrMaxClus : ℕ) (age : ℕ → UInt64) (hn : n ≤ 2 ^ 51) (hgets : ∀ id, n ≤ id → gets id = 0) :
    CacheOk (Dev.filled n nrMaxClus gets age) gets fun _ => 0 where
  sorted := pairwise_map.mpr pairwise_lt_range
  count := by simp [Dev.filled]
  bound := by
    rintro ⟨j, id⟩ hx
    obtain ⟨rfl, hlt⟩ := mem_root_filled.mp hx
    exact hlt.trans_le hn
  cached j id hx := by
    obtain ⟨rfl, hlt⟩ := mem_root_filled.mp hx
    exact ⟨_, if_pos hlt, ⟨rfl, rfl, rfl, rfl, fun _ => rfl⟩⟩
  unpinned id hno := hgets id (not_lt.mp fun hlt => hno id (mem_root_filled.mpr ⟨rfl, hlt⟩))
  freed id hno _ := if_neg fun hlt => hno id (mem_root_filled.mpr ⟨rfl, hlt⟩)
  loose id _ h := absurd h (lt_irrefl 0)
  fresh id hge := if_neg (not_lt.mpr hge)

lemma nrPinned_filled {n nrMaxClus : ℕ} {age : ℕ → UInt64} (hn : n ≤ 2 ^ 51) (hgets : ∀ id, n ≤ id → gets id = 0) :
    (Dev.filled n nrMaxClus gets age).nrPinned = ((range n).filter fun id => gets id ≠ 0).length := by
  have hroot : (Dev.filled n nrMaxClus gets age).root = (range n).map fun i => (i, i) := rfl
  rw [(cacheOk_filled n nrMaxClus age hn hgets).nrPinned_eq, hroot, filter_map, length_map]
  rfl

/-- Clusters keep their ages as long as they are in memory. -/
def AgesKept (d d' : Dev) : Prop := ∀ id c', d'.clus id = some c' → ∃ c, d.clus id = some c ∧ c'.age = c.age

instance : Std.Refl AgesKept := ⟨fun _ _ c' hc' => ⟨c', hc', rfl⟩⟩

instance : IsTrans Dev AgesKept := ⟨fun _ _ _ h h' id c' hc' => by
  obtain ⟨c₁, hc₁, heq₁⟩ := h' id c' hc'
  obtain ⟨c, hc, heq⟩ := h id c₁ hc₁
  exact ⟨c, hc, heq₁.trans heq⟩⟩

lemma agesKept_of_clus (h : d'.clus = d.clus) : AgesKept d d' := fun _ c' hc' => ⟨c', h ▸ hc', rfl⟩

lemma agesKept_setClu (hc : d.clus id = some c) (hage : c'.age = c.age) : AgesKept d (d.setClu id c') := by
  intro j b hb
  by_cases hj : j = id
  · subst hj
    rw [Dev.setClu_self, Option.some.injEq] at hb
    exact ⟨c, hc, hb ▸ hage⟩
  · rw [Dev.setClu_of_ne hj] at hb
    exact ⟨b, hb, rfl⟩

lemma agesKept_free : AgesKept d { d with clus := Function.update d.clus id none } := by
  intro j b hb
  by_cases hj : j = id
  · subst hj
    have hb : Function.update d.clus j none j = some b := hb
    rw [Function.update_self] at hb
    cases hb
  · have hb : Function.update d.clus id none j = some b := hb
    rw [Function.update_of_ne hj] at hb
    exact ⟨b, hb, rfl⟩

lemma AgesKept.ageOf_eq (h : AgesKept d d') (hc' : d'.clus id = some c') : d'.ageOf id = d.ageOf id := by
  obtain ⟨c, hc, hage⟩ := h id c' hc'
  rw [Dev.ageOf, Dev.ageOf, hc, hc', Option.map_some, Option.map_some, Option.getD_some, Option.getD_some, hage]

lemma cluOf_inv {b : Clu} (h : cluOf id d = .ok (b, d')) : d' = d ∧ d.clus id = some b := by
  rw [cluOf, run_get] at h
  cases hclu : d.clus id with
  | none =>
    rw [hclu] at h
    cases h
  | some b' =>
    rw [hclu] at h
    cases h
    exact ⟨rfl, rfl⟩

lemma cluOf_ages : Moves AgesKept (cluOf id) := fun _ _ _ h => agesKept_of_clus (congrArg Dev.clus (cluOf_inv h).1)

/-- A program that begins by looking at a cluster. -/
lemma moves_cluOf {α : Type} {f : Clu → D α}
    (h : ∀ c d a d', d.clus id = some c → f c d = .ok (a, d') → AgesKept d d') :
    Moves AgesKept (cluOf id >>= f) := by
  intro d a d' hrun
  obtain ⟨c, d₁, hc, hf⟩ := run_bind_inv hrun
  obtain ⟨rfl, hclu⟩ := cluOf_inv hc
  exact h c d₁ a d' hclu hf

lemma dioCluRef_ages : Moves AgesKept (dioCluRef id) := by
  refine moves_cluOf fun c d a d' hc hrun => ?_
  split_ifs at hrun
  · cases hrun
  · cases hrun
    exact agesKept_setClu hc rfl

lemma dioCluRelease_ages : Moves AgesKept (dioCluRelease id) := by
  refine moves_cluOf fun c d a d' hc hrun => ?_
  split_ifs at hrun
  · cases hrun
  · cases hrun
    exact agesKept_free

lemma dioCluDeref_ages : Moves AgesKept (dioCluDeref id) := by
  refine moves_cluOf fun c d a d' hc hrun => ?_
  split_ifs at hrun
  · cases hrun
  · obtain ⟨_, d₁, h₁, h₂⟩ := run_bind_inv hrun
    cases h₁
    refine IsTrans.trans _ _ _ (agesKept_setClu hc ?_) (dioCluRelease_ages _ _ _ h₂)
    rfl
  · cases hrun
    exact agesKept_setClu hc rfl

lemma dioCluSync_ages : Moves AgesKept (dioCluSync id) := by
  refine Moves.bind cluOf_ages fun c => Moves.ite ?_ Moves.pure
  refine Moves.bind dioCluRef_ages fun _ => Moves.bind (fun d _ d' h => ?_) fun _ => ?_
  · cases h
    exact agesKept_of_clus rfl
  · refine moves_cluOf fun c d a d' hc hrun => ?_
    obtain ⟨_, d₁, h₁, h₂⟩ := run_bind_inv hrun
    cases h₁
    refine IsTrans.trans _ _ _ (agesKept_setClu hc ?_) (dioCluDeref_ages _ _ _ h₂)
    rfl

lemma dioCluRemove_ages : Moves AgesKept (dioCluRemove i) := by
  intro d a d' hrun
  rw [dioCluRemove, run_get] at hrun
  cases hfind : find d.root i with
  | none =>
    rw [hfind] at hrun
    exact Moves.pure d a d' hrun
  | some id =>
    rw [hfind] at hrun
    obtain ⟨c, d₁, hc, hrest⟩ := run_bind_inv hrun
    obtain ⟨rfl, -⟩ := cluOf_inv hc
    split_ifs at hrest
    · exact Moves.pure d₁ a d' hrest
    · cases hrest
    · cases hrest
      exact agesKept_of_clus rfl

lemma refBatch_ages {ids : List ℕ} {first : ℕ} : Moves AgesKept (refBatch ids first) := by
  induction ids generalizing first with
  | nil => exact Moves.pure
  | cons id ids ih => exact Moves.bind dioCluRef_ages fun _ => Moves.bind cluOf_ages fun _ => ih

lemma pickBatch_ages {ids nodes : List ℕ} : Moves AgesKept (pickBatch ids nodes) := by
  induction ids generalizing nodes with
  | nil => exact Moves.pure
  | cons id ids ih =>
    exact Moves.bind cluOf_ages fun _ => Moves.ite ih (Moves.bind dioCluDeref_ages fun _ => ih)

lemma pickLoop_ages {fuel first : ℕ} {nodes : List ℕ} : Moves AgesKept (pickLoop fuel first nodes) := by
  induction fuel generalizing first nodes with
  | zero => exact Moves.stop
  | succ fuel ih =>
    refine Moves.ite (Moves.get fun d => Moves.bind refBatch_ages fun next => ?_) Moves.pure
    exact Moves.ite Moves.pure (Moves.bind pickBatch_ages fun _ => ih)

lemma evict_ages : Moves AgesKept (evict id) := by
  refine Moves.bind cluOf_ages fun c => Moves.bind dioCluRemove_ages fun removed => ?_
  cases removed with
  | none => exact Moves.pure
  | some removed =>
    refine Moves.ite Moves.stop (Moves.bind dioCluSync_ages fun _ => ?_)
    exact Moves.bind dioCluDeref_ages fun _ => dioCluDeref_ages

lemma evictLoop_ages {ids : List ℕ} : Moves AgesKept (evictLoop ids) := by
  induction ids with
  | nil => exact Moves.pure
  | cons id ids ih => exact Moves.get fun d => Moves.ite (Moves.bind evict_ages fun _ => ih) ih

lemma derefAll_ages {ids : List ℕ} : Moves AgesKept (derefAll ids) := by
  induction ids with
  | nil => exact Moves.pure
  | cons id ids ih => exact Moves.bind dioCluDeref_ages fun _ => ih

lemma dioClusLruFrees_ages : Moves AgesKept (dioClusLruFrees sort) := by
  refine Moves.get fun d => Moves.ite Moves.pure (Moves.bind pickLoop_ages fun nodes => Moves.get fun d₁ => ?_)
  exact Moves.bind evictLoop_ages fun _ => derefAll_ages

/-! ### No cluster pinned -/

lemma CacheOk.gets_eq_zero (h : CacheOk d gets extra) (hpin : d.nrPinned = 0) (id : ℕ) : gets id = 0 := by
  by_cases hin : ∃ i, (i, id) ∈ d.root
  · obtain ⟨i, hi⟩ := hin
    rw [h.nrPinned_eq, length_eq_zero_iff, filter_eq_nil_iff] at hpin
    simpa using hpin (i, id) hi
  · exact h.unpinned id fun i hi => hin ⟨i, hi⟩

lemma unpinnedFrom_eq_ids (hgets : ∀ id, gets id = 0) : d.unpinnedFrom gets 0 = d.root.map Prod.snd := by
  rw [unpinnedFrom_zero]
  exact filter_eq_self.mpr fun id _ => decide_eq_true (hgets id)

/-- The clusters a call looks at, in the order of their ages. -/
structure Oldest (d : Dev) (window : List (ℕ × ℕ)) (ids : List ℕ) : Prop where
  perm : ids.Perm (window.map Prod.snd)
  sorted : ids.Pairwise fun x y => d.ageOf x ≤ d.ageOf y

lemma Oldest.congr {window : List (ℕ × ℕ)} {ids : List ℕ} (h : Oldest d' window ids)
    (hage : ∀ x ∈ window, d'.ageOf x.2 = d.ageOf x.2) : Oldest d window ids := by
  have hids : ∀ id ∈ ids, d'.ageOf id = d.ageOf id := by
    intro id hid
    obtain ⟨x, hx, rfl⟩ := mem_map.mp (h.perm.subset hid)
    exact hage x hx
  refine ⟨h.perm, h.sorted.imp_of_mem fun {x y} hx hy hle => ?_⟩
  rw [← hids x hx, ← hids y hy]
  exact hle

lemma Oldest.nodup {ids : List ℕ} {n m : ℕ} (h : CacheOk d gets extra)
    (hold : Oldest d ((d.root.drop n).take m) ids) : ids.Nodup := by
  refine hold.perm.nodup_iff.mpr (h.ids_nodup.sublist ?_)
  exact ((take_sublist _ _).trans (drop_sublist _ _)).map _

lemma shrinkLoop_done {rounds : ℕ} (hmax : d.nrClus ≤ d.nrMaxClus) :
    shrinkLoop sort (rounds + 1) d = .ok ((), d) := by
  rw [shrinkLoop, run_get, if_neg (not_lt.mpr hmax)]
  rfl

/-- One call. -/
lemma dioClusLruFrees_unpinned (hsort : SortsByAge sort) (h : CacheOk d gets extra) (hgets : ∀ id, gets id = 0)
    (hmax : d.nrMaxClus < d.nrClus) :
    Runs (dioClusLruFrees sort) d fun _ d' => CacheOk d' gets extra ∧ d'.nrMaxClus = d.nrMaxClus ∧ AgesKept d d' ∧
      ∃ ids, Oldest d (d.root.take nodesLimit) ids ∧
        d'.root = d.root.filter fun x => x.2 ∉ ids.take (d.nrClus - d.nrMaxClus) := by
  obtain ⟨_, d', hrun, h', hs, d₁, hpick, h₁, hs₁, hroot⟩ := dioClusLruFrees_run hsort.perm h hmax
  rw [unpinnedFrom_eq_ids hgets] at hpick h₁ hroot
  refine ⟨_, d', hrun, h', hs.nrMaxClus, dioClusLruFrees_ages _ _ _ hrun, _, ?_, hroot⟩
  have holdest : Oldest d₁ (d.root.take nodesLimit) (sort d₁.ageOf ((d.root.map Prod.snd).take nodesLimit)) := by
    refine ⟨?_, hsort.sorted _ _⟩
    rw [map_take]
    exact hsort.perm _ _
  refine holdest.congr fun x hx => ?_
  obtain ⟨c, hc, -⟩ := h₁.cached x.1 x.2 (hs₁.root ▸ mem_of_mem_take hx)
  exact (pickLoop_ages _ _ _ hpick).ageOf_eq hc

/-- With 512 clusters too many or more, a call evicts all it looks at. -/
lemma dioClusLruFrees_page (hsort : SortsByAge sort) (h : CacheOk d gets extra) (hgets : ∀ id, gets id = 0)
    (hmax : nodesLimit ≤ d.nrClus - d.nrMaxClus) :
    Runs (dioClusLruFrees sort) d fun _ d' => CacheOk d' gets extra ∧ d'.nrMaxClus = d.nrMaxClus ∧ AgesKept d d' ∧
      d'.root = d.root.drop nodesLimit := by
  have hlimit : 0 < nodesLimit := by decide
  refine (dioClusLruFrees_unpinned hsort h hgets (by omega)).mono fun _ d' ⟨h', hmax', hages, ids, hold, hroot⟩ =>
    ⟨h', hmax', hages, ?_⟩
  have hall : ids.take (d.nrClus - d.nrMaxClus) = ids := by
    refine take_of_length_le (le_trans ?_ hmax)
    rw [hold.perm.length_eq, length_map]
    exact length_take_le _ _
  rw [hroot, hall, ← filter_notMem_take h.ids_nodup nodesLimit]
  simp only [hold.perm.mem_iff, map_take]

/-- All that `dio_clus_shrink` does: `q` times it evicts the first 512 clusters, and then the oldest ones of the
next 512. -/
lemma shrinkLoop_unpinned (hsort : SortsByAge sort) (hgets : ∀ id, gets id = 0) {q r : ℕ} (hr : r < nodesLimit)
    (h : CacheOk d gets extra) (hexcess : d.nrClus - d.nrMaxClus = q * nodesLimit + r) :
    Runs (shrinkLoop sort (q + 2)) d fun _ d' =>
      ∃ ids, Oldest d ((d.root.drop (q * nodesLimit)).take nodesLimit) ids ∧
        d'.root = (d.root.drop (q * nodesLimit)).filter fun x => x.2 ∉ ids.take r := by
  induction q generalizing d with
  | zero =>
    rw [zero_mul, zero_add] at hexcess
    rw [zero_mul, drop_zero]
    by_cases hmax : d.nrMaxClus < d.nrClus
    · obtain ⟨_, d', hrun, h', hmax', -, ids, hold, hroot⟩ := dioClusLruFrees_unpinned hsort h hgets hmax
      rw [hexcess] at hroot
      have hlen : (ids.take r).length = r := by
        rw [length_take, hold.perm.length_eq, length_map, length_take, ← h.count]
        omega
      have hcount : d'.nrClus + r = d.nrClus := by
        have hnodup : ids.Nodup := Oldest.nodup (n := 0) h hold
        have hsub : ids.take r ⊆ d.root.map Prod.snd := fun id hid =>
          (((take_sublist _ _).map _).subset (hold.perm.subset (mem_of_mem_take hid)))
        have hdel := length_filter_notMem h.ids_nodup (hnodup.sublist (take_sublist _ _)) hsub
        rw [hlen] at hdel
        rw [h'.count, h.count, hroot]
        exact hdel
      refine ⟨(), d', ?_, ids, hold, hroot⟩
      rw [shrinkLoop, run_get, if_pos hmax, run_bind_ok hrun]
      exact shrinkLoop_done (by omega)
    · refine ⟨(), d, shrinkLoop_done (not_lt.mp hmax), sort d.ageOf ((d.root.take nodesLimit).map Prod.snd),
        ⟨hsort.perm _ _, hsort.sorted _ _⟩, ?_⟩
      obtain rfl : r = 0 := by omega
      simp
  | succ q ih =>
    rw [Nat.succ_mul] at hexcess
    obtain ⟨_, d₁, hrun, h₁, hmax₁, hages, hdrop⟩ := dioClusLruFrees_page hsort h hgets (by omega)
    have hexcess₁ : d₁.nrClus - d₁.nrMaxClus = q * nodesLimit + r := by
      rw [h₁.count, hdrop, length_drop, hmax₁, ← h.count]
      omega
    obtain ⟨_, d', hrun', ids', hold', hroot'⟩ := ih h₁ hexcess₁
    have hwindow : d₁.root.drop (q * nodesLimit) = d.root.drop ((q + 1) * nodesLimit) := by
      rw [hdrop, drop_drop, Nat.succ_mul, add_comm]
    have hage : ∀ x ∈ d₁.root, d₁.ageOf x.2 = d.ageOf x.2 := by
      intro x hx
      obtain ⟨c, hc, -⟩ := h₁.cached x.1 x.2 hx
      exact hages.ageOf_eq hc
    refine ⟨(), d', ?_, ids', ?_, by rw [hroot', hwindow]⟩
    · have hlimit : 0 < nodesLimit := by decide
      rw [shrinkLoop, run_get, if_pos (show d.nrMaxClus < d.nrClus by omega), run_bind_ok hrun]
      exact hrun'
    · rw [← hwindow]
      exact hold'.congr fun x hx => hage x (mem_of_mem_drop (mem_of_mem_take hx))

/-- The clusters that go regardless of their ages. -/
def Dev.passed (d : Dev) : List (ℕ × ℕ) := d.root.take ((d.nrClus - d.nrMaxClus) / nodesLimit * nodesLimit)

/-- The clusters the last call looks at. -/
def Dev.window (d : Dev) : List (ℕ × ℕ) :=
  (d.root.drop ((d.nrClus - d.nrMaxClus) / nodesLimit * nodesLimit)).take nodesLimit

/-- The clusters no call looks at. -/
def Dev.beyond (d : Dev) : List (ℕ × ℕ) :=
  (d.root.drop ((d.nrClus - d.nrMaxClus) / nodesLimit * nodesLimit)).drop nodesLimit

/-- The loop ends, and no cluster it evicted had a higher age than one that remains. -/
def EvictsOldest (sort : (ℕ → UInt64) → List ℕ → List ℕ) (d : Dev) : Prop :=
  ∃ rounds d', shrinkLoop sort rounds d = .ok ((), d') ∧
    ∀ x ∈ d.root, x ∉ d'.root → ∀ y ∈ d'.root, d.ageOf x.2 ≤ d.ageOf y.2

/-- With `r` clusters of the window to go, at most `r` of them have a lower age than a cluster that goes anyway, and
at least `r` have no higher age than a cluster that stays anyway. -/
structure OldestFirst (d : Dev) : Prop where
  passed_beyond : ∀ x ∈ d.passed, ∀ y ∈ d.beyond, d.ageOf x.2 ≤ d.ageOf y.2
  passed_window : ∀ x ∈ d.passed, d.window.countP (fun y => d.ageOf y.2 < d.ageOf x.2) ≤
    (d.nrClus - d.nrMaxClus) % nodesLimit
  window_beyond : ∀ y ∈ d.beyond, (d.nrClus - d.nrMaxClus) % nodesLimit ≤
    d.window.countP fun x => d.ageOf x.2 ≤ d.ageOf y.2

lemma root_eq_window : d.root = d.passed ++ (d.window ++ d.beyond) := by
  unfold Dev.passed Dev.window Dev.beyond
  rw [take_append_drop, take_append_drop]

lemma drop_eq_window : d.root.drop ((d.nrClus - d.nrMaxClus) / nodesLimit * nodesLimit) = d.window ++ d.beyond := by
  unfold Dev.window Dev.beyond
  rw [take_append_drop]

/-- More rounds than the loop makes do not matter. -/
lemma shrinkLoop_mono {rounds n : ℕ} (hrun : shrinkLoop sort rounds d = .ok ((), d')) :
    shrinkLoop sort (rounds + n) d = .ok ((), d') := by
  induction rounds generalizing d with
  | zero => cases hrun
  | succ rounds ih =>
    rw [Nat.add_right_comm]
    rw [shrinkLoop, run_get] at hrun ⊢
    split_ifs at hrun ⊢ with hmax
    · obtain ⟨_, d₁, h₁, h₂⟩ := run_bind_inv hrun
      rw [run_bind_ok h₁]
      exact ih h₂
    · exact hrun

lemma shrinkLoop_unique {n m : ℕ} {d₁ d₂ : Dev} (h₁ : shrinkLoop sort n d = .ok ((), d₁))
    (h₂ : shrinkLoop sort m d = .ok ((), d₂)) : d₁ = d₂ := by
  have h₁ := shrinkLoop_mono (n := m) h₁
  have h₂ := shrinkLoop_mono (n := n) h₂
  rw [add_comm, h₁, Except.ok.injEq, Prod.mk.injEq] at h₂
  exact h₂.2

section selection

variable {window : List (ℕ × ℕ)} {ids : List ℕ} {r : ℕ}

lemma Oldest.countP_eq (h : Oldest d window ids) (p : ℕ → Bool) : ids.countP p = window.countP fun x => p x.2 := by
  rw [h.perm.countP_eq, countP_map]
  rfl

lemma Oldest.sorted_toNat (h : Oldest d window ids) :
    ids.Pairwise fun x y => (d.ageOf x).toNat ≤ (d.ageOf y).toNat :=
  h.sorted.imp fun hle => UInt64.le_iff_toNat_le.mp hle

lemma Oldest.forall_drop_iff (h : Oldest d window ids) (hr : r ≤ window.length) (a : UInt64) :
    (∀ id ∈ ids.drop r, a ≤ d.ageOf id) ↔ window.countP (fun y => d.ageOf y.2 < a) ≤ r := by
  have hlen : r ≤ ids.length := by rwa [h.perm.length_eq, length_map]
  have hiff := forall_drop_le_iff h.sorted_toNat hlen a.toNat
  simp only [← UInt64.le_iff_toNat_le, ← UInt64.lt_iff_toNat_lt] at hiff
  rw [hiff, h.countP_eq]

lemma Oldest.forall_take_iff (h : Oldest d window ids) (hr : r ≤ window.length) (b : UInt64) :
    (∀ id ∈ ids.take r, d.ageOf id ≤ b) ↔ r ≤ window.countP fun x => d.ageOf x.2 ≤ b := by
  have hlen : r ≤ ids.length := by rwa [h.perm.length_eq, length_map]
  have hiff := forall_take_le_iff h.sorted_toNat hlen b.toNat
  simp only [← UInt64.le_iff_toNat_le] at hiff
  rw [hiff, h.countP_eq]

lemma Oldest.mem_ids (h : Oldest d window ids) {id : ℕ} (hid : id ∈ ids) : ∃ i, (i, id) ∈ window := by
  obtain ⟨x, hx, rfl⟩ := mem_map.mp (h.perm.subset hid)
  exact ⟨x.1, hx⟩

/-- What remains. -/
lemma mem_kept_iff (h : CacheOk d gets extra) (hold : Oldest d d.window ids) {x : ℕ × ℕ} :
    x ∈ (d.window ++ d.beyond).filter (fun x => x.2 ∉ ids.take r) ↔
      x ∈ d.beyond ∨ x ∈ d.window ∧ x.2 ∈ ids.drop r := by
  have hnodup := h.ids_nodup
  rw [root_eq_window, map_append, map_append, nodup_append', nodup_append'] at hnodup
  obtain ⟨-, ⟨hwindow, -, hdisj⟩, -⟩ := hnodup
  have hids : (ids.take r ++ ids.drop r).Nodup := by
    rw [take_append_drop]
    exact hold.perm.nodup_iff.mpr hwindow
  rw [nodup_append'] at hids
  rw [mem_filter, mem_append, decide_eq_true_iff]
  constructor
  · rintro ⟨hx | hx, hnot⟩
    · have hid : x.2 ∈ ids.take r ++ ids.drop r := by
        rw [take_append_drop]
        exact hold.perm.symm.subset (mem_map_of_mem hx)
      exact .inr ⟨hx, (mem_append.mp hid).resolve_left hnot⟩
    · exact .inl hx
  · rintro (hx | ⟨hx, hid⟩)
    · refine ⟨.inr hx, fun hid => ?_⟩
      exact hdisj (hold.perm.subset (mem_of_mem_take hid)) (mem_map_of_mem hx)
    · exact ⟨.inl hx, fun hid' => hids.2.2 hid' hid⟩

/-- What goes. -/
lemma mem_evicted_iff (h : CacheOk d gets extra) (hold : Oldest d d.window ids) {x : ℕ × ℕ} :
    (x ∈ d.root ∧ x ∉ (d.window ++ d.beyond).filter fun x => x.2 ∉ ids.take r) ↔
      x ∈ d.passed ∨ x ∈ d.window ∧ x.2 ∈ ids.take r := by
  have hnodup := h.ids_nodup.of_map
  rw [root_eq_window, nodup_append'] at hnodup
  rw [root_eq_window, mem_append, mem_filter, not_and, decide_eq_true_iff, not_not]
  constructor
  · rintro ⟨hx | hx, hid⟩
    · exact .inl hx
    · rcases mem_append.mp hx with hw | hb
      · exact .inr ⟨hw, hid hx⟩
      · have hkept := (mem_kept_iff (r := r) h hold).mpr (.inl hb)
        exact absurd (hid hx) (of_decide_eq_true (mem_filter.mp hkept).2)
  · rintro (hx | ⟨hx, hid⟩)
    · exact ⟨.inl hx, fun hrest => absurd hrest (hnodup.2.2 hx)⟩
    · exact ⟨.inr (mem_append_left _ hx), fun _ => hid⟩

lemma CacheOk.le_length_window (h : CacheOk d gets extra) :
    (d.nrClus - d.nrMaxClus) % nodesLimit ≤ d.window.length := by
  have hlt := Nat.mod_lt (d.nrClus - d.nrMaxClus) (show 0 < nodesLimit by decide)
  have hdiv := Nat.div_add_mod' (d.nrClus - d.nrMaxClus) nodesLimit
  unfold Dev.window
  rw [length_take, length_drop, ← h.count]
  omega

/-- Counting decides whether the evicted clusters are the oldest. -/
lemma evicted_le_kept_iff (h : CacheOk d gets extra) (hold : Oldest d d.window ids)
    (hr : r = (d.nrClus - d.nrMaxClus) % nodesLimit) :
    (∀ x, (x ∈ d.passed ∨ x ∈ d.window ∧ x.2 ∈ ids.take r) → ∀ y, (y ∈ d.beyond ∨ y ∈ d.window ∧ y.2 ∈ ids.drop r) →
      d.ageOf x.2 ≤ d.ageOf y.2) ↔ OldestFirst d := by
  have hlen := h.le_length_window
  constructor
  · intro hall
    refine ⟨fun x hx y hy => hall x (.inl hx) y (.inl hy), fun x hx => ?_, fun y hy => ?_⟩
    · refine (hold.forall_drop_iff hlen _).mp fun id hid => ?_
      obtain ⟨i, hi⟩ := hold.mem_ids (mem_of_mem_drop hid)
      exact hall x (.inl hx) (i, id) (.inr ⟨hi, hr ▸ hid⟩)
    · refine (hold.forall_take_iff hlen _).mp fun id hid => ?_
      obtain ⟨i, hi⟩ := hold.mem_ids (mem_of_mem_take hid)
      exact hall (i, id) (.inr ⟨hi, hr ▸ hid⟩) y (.inl hy)
  · subst hr
    rintro hold' x (hx | ⟨-, hx⟩) y (hy | ⟨-, hy⟩)
    · exact hold'.passed_beyond x hx y hy
    · exact (hold.forall_drop_iff hlen _).mpr (hold'.passed_window x hx) _ hy
    · exact (hold.forall_take_iff hlen _).mpr (hold'.window_beyond y hy) _ hx
    · have hsorted := hold.sorted
      rw [← take_append_drop ((d.nrClus - d.nrMaxClus) % nodesLimit) ids, pairwise_append] at hsorted
      exact hsorted.2.2 _ hx _ hy

end selection

/-- The end of `dio_clus_shrink` in terms of the window. -/
lemma shrinkLoop_window (hsort : SortsByAge sort) (h : CacheOk d gets extra) (hpin : d.nrPinned = 0) :
    ∃ rounds d' ids, shrinkLoop sort rounds d = .ok ((), d') ∧ Oldest d d.window ids ∧
      d'.root = (d.window ++ d.beyond).filter fun x => x.2 ∉ ids.take ((d.nrClus - d.nrMaxClus) % nodesLimit) := by
  have hr : (d.nrClus - d.nrMaxClus) % nodesLimit < nodesLimit := Nat.mod_lt _ (by decide)
  obtain ⟨_, d', hrun, ids, hold, hroot⟩ := shrinkLoop_unpinned hsort (h.gets_eq_zero hpin) hr h
    (Nat.div_add_mod' _ _).symm
  rw [drop_eq_window] at hroot
  exact ⟨_, d', ids, hrun, hold, hroot⟩

lemma EvictsOldest.oldestFirst (hev : EvictsOldest sort d) (hsort : SortsByAge sort) (h : CacheOk d gets extra)
    (hpin : d.nrPinned = 0) : OldestFirst d := by
  obtain ⟨_, d', ids, hrun, hold, hroot⟩ := shrinkLoop_window hsort h hpin
  obtain ⟨rounds, d₁, hrun₁, hall⟩ := hev
  rw [shrinkLoop_unique hrun₁ hrun, hroot] at hall
  rw [← evicted_le_kept_iff h hold rfl]
  intro x hx y hy
  obtain ⟨hin, hout⟩ := (mem_evicted_iff h hold).mpr hx
  exact hall x hin hout y ((mem_kept_iff h hold).mpr hy)

/-- **Age order.** With no cluster pinned, `dio_clus_shrink` evicts by age exactly if counting says so. -/
theorem evicts_oldest_iff (sort : (ℕ → UInt64) → List ℕ → List ℕ) (hsort : SortsByAge sort) (d : Dev)
    (gets extra : ℕ → ℕ) (h : CacheOk d gets extra) (hpin : d.nrPinned = 0) :
    EvictsOldest sort d ↔ OldestFirst d := by
  constructor
  · intro hev
    exact hev.oldestFirst hsort h hpin
  · intro hfirst
    obtain ⟨rounds, d', ids, hrun, hold, hroot⟩ := shrinkLoop_window hsort h hpin
    rw [← evicted_le_kept_iff h hold rfl] at hfirst
    refine ⟨rounds, d', hrun, fun x hin hout y hy => ?_⟩
    rw [hroot] at hout hy
    exact hfirst x ((mem_evicted_iff h hold).mp ⟨hin, hout⟩) y ((mem_kept_iff h hold).mp hy)

/-- With at most 512 clusters the calls see them all. -/
lemma oldestFirst_of_le (h : CacheOk d gets extra) (hmax : 0 < d.nrMaxClus) (hle : d.nrClus ≤ nodesLimit) :
    OldestFirst d := by
  have hdiv : (d.nrClus - d.nrMaxClus) / nodesLimit = 0 := by
    apply Nat.div_eq_of_lt
    have hlimit : 0 < nodesLimit := by decide
    omega
  have hpassed : d.passed = [] := by simp [Dev.passed, hdiv]
  have hbeyond : d.beyond = [] := by simp [Dev.beyond, hdiv, ← h.count, hle]
  constructor <;> simp [hpassed, hbeyond]

lemma cacheOk_filled_zero (n nrMaxClus : ℕ) (age : ℕ → UInt64) (hn : n ≤ 2 ^ 51) :
    CacheOk (Dev.filled n nrMaxClus (fun _ => 0) age) (fun _ => 0) fun _ => 0 :=
  cacheOk_filled n nrMaxClus age hn fun _ _ => rfl

lemma nrPinned_filled_zero (n nrMaxClus : ℕ) (age : ℕ → UInt64) (hn : n ≤ 2 ^ 51) :
    (Dev.filled n nrMaxClus (fun _ => 0) age).nrPinned = 0 := by
  rw [nrPinned_filled hn fun _ _ => rfl]
  simp

lemma ageOf_filled {n nrMaxClus : ℕ} {age : ℕ → UInt64} (hid : id < n) :
    (Dev.filled n nrMaxClus gets age).ageOf id = age id := by
  simp [Dev.ageOf, Dev.filled, hid]

/-- Three clusters with the ages 5, 4, 3, and room for one. -/
theorem evicts_oldest_three : ∃ d gets extra, CacheOk d gets extra ∧ d.nrPinned = 0 ∧ d.nrMaxClus < d.nrClus ∧
    EvictsOldest ageSort d := by
  have hok := cacheOk_filled_zero 3 1 (fun id => 5 - id.toUInt64) (by decide)
  have hpin := nrPinned_filled_zero 3 1 (fun id => 5 - id.toUInt64) (by decide)
  refine ⟨_, _, _, hok, hpin, by decide, ?_⟩
  exact (evicts_oldest_iff ageSort sortsByAge_ageSort _ _ _ hok hpin).mpr
    (oldestFirst_of_le hok (by decide) (by decide))

/-- One cluster more than a call looks at. -/
lemma filled_windows (gets : ℕ → ℕ) (age : ℕ → UInt64) :
    (Dev.filled (nodesLimit + 1) nodesLimit gets age).window = (range nodesLimit).map (fun i => (i, i)) ∧
      (Dev.filled (nodesLimit + 1) nodesLimit gets age).beyond = [(nodesLimit, nodesLimit)] := by
  have hroot : (Dev.filled (nodesLimit + 1) nodesLimit gets age).root =
      ((range nodesLimit).map fun i => (i, i)) ++ [(nodesLimit, nodesLimit)] := by
    simp [Dev.filled, range_succ]
  have hdiv : (nodesLimit + 1 - nodesLimit) / nodesLimit = 0 := by decide
  have hexcess : ((Dev.filled (nodesLimit + 1) nodesLimit gets age).nrClus -
      (Dev.filled (nodesLimit + 1) nodesLimit gets age).nrMaxClus) / nodesLimit = 0 := hdiv
  unfold Dev.window Dev.beyond
  rw [hexcess, hroot]
  simp

/-- 513 clusters and room for 512. The last one has the lowest age and stays. -/
theorem not_evicts_oldest : ¬ ∀ (sort : (ℕ → UInt64) → List ℕ → List ℕ), SortsByAge sort → ∀ (d : Dev)
    (gets extra : ℕ → ℕ), CacheOk d gets extra → d.nrPinned = 0 → EvictsOldest sort d := by
  intro h
  have hok := cacheOk_filled_zero (nodesLimit + 1) nodesLimit (fun id => if id < nodesLimit then 1 else 0) (by decide)
  have hpin := nrPinned_filled_zero (nodesLimit + 1) nodesLimit (fun id => if id < nodesLimit then 1 else 0)
    (by decide)
  have hfirst := (h ageSort sortsByAge_ageSort _ _ _ hok hpin).oldestFirst sortsByAge_ageSort hok hpin
  obtain ⟨hwindow, hbeyond⟩ := filled_windows (fun _ => 0) fun id => if id < nodesLimit then 1 else 0
  have hlast := hfirst.window_beyond (nodesLimit, nodesLimit) (by simp [hbeyond])
  rw [hwindow, ageOf_filled (Nat.lt_succ_self _), if_neg (lt_irrefl _)] at hlast
  refine absurd hlast (not_le.mpr ?_)
  have hzero : ((List.range nodesLimit).map fun i => (i, i)).countP (fun x =>
      (Dev.filled (nodesLimit + 1) nodesLimit (fun _ => 0) fun id => if id < nodesLimit then 1 else 0).ageOf x.2 ≤
        0) = 0 := by
    rw [List.countP_eq_zero]
    intro x hx
    obtain ⟨i, hi, rfl⟩ := List.mem_map.mp hx
    rw [List.mem_range] at hi
    rw [ageOf_filled (Nat.lt_succ_of_lt hi), if_pos hi]
    decide
  rw [hzero]
  decide

end

end Nkfs
