import Nkfs.Dio.Evict
import Nkfs.Lib.Interleaving

/-!
# The cluster cache is transparent (`core/dio.c`)

Every sequence of calls on the cluster cache returns what the same calls on the plain bytes of the
device return (`cache_transparent`), whatever was evicted in between, and `dio_clus_release` leaves
these bytes on the device. `Matches` relates cache and bytes; `cacheStep_spec` is the step.
-/

namespace Nkfs

open Lib.Assoc Lib.Bytes Lib.Interleaving Lib.Program List

section

variable {s : CacheRun} {v : Volume} {h n : ℕ} {sort : (ℕ → UInt64) → List ℕ → List ℕ}

/-- The gets of a cluster without a put yet. -/
def CacheRun.gets (s : CacheRun) (id : ℕ) : ℕ := s.handles.count (some id)

/-- The clusters of open handles are cached under their indices. -/
def HandlesOk (d : Dev) : List (Option ℕ) → List (Option ℕ) → Prop :=
  List.Forall₂ (Option.Rel fun id i => (i, id) ∈ d.root)

/-- Cache and bytes agree. -/
structure Matches (n : ℕ) (s : CacheRun) (v : Volume) : Prop where
  cache : CacheOk s.dev s.gets (fun _ => 0)
  nrPages : s.dev.nrPages = n
  bytes : s.dev.bytes = v.bytes
  handles : HandlesOk s.dev s.handles v.handles
  reads : s.reads = v.reads

/-! ### Handles -/

lemma HandlesOk.mono {d d' : Dev} {l l' : List (Option ℕ)} (hl : HandlesOk d l l')
    (hroot : ∀ i id, some id ∈ l → (i, id) ∈ d.root → (i, id) ∈ d'.root) : HandlesOk d' l l' := by
  induction hl with
  | nil => exact .nil
  | @cons o o' l l' ho _ ih =>
    refine .cons ?_ (ih fun i id hid => hroot i id (mem_cons_of_mem _ hid))
    cases ho with
    | some hi => exact .some (hroot _ _ mem_cons_self hi)
    | none => exact .none

lemma HandlesOk.get {d : Dev} {l l' : List (Option ℕ)} (hl : HandlesOk d l l') (h : ℕ) :
    Option.Rel (Option.Rel fun id i => (i, id) ∈ d.root) l[h]? l'[h]? := by
  induction hl generalizing h with
  | nil => exact .none
  | cons ho _ ih =>
    cases h with
    | zero => exact .some ho
    | succ h => exact ih h

lemma HandlesOk.close {d : Dev} {l l' : List (Option ℕ)} (hl : HandlesOk d l l') (h : ℕ) :
    HandlesOk d (l.set h none) (l'.set h none) := by
  induction hl generalizing h with
  | nil => exact .nil
  | cons ho hl ih =>
    cases h with
    | zero => exact .cons .none hl
    | succ h => exact .cons ho (ih h)

lemma HandlesOk.append {d : Dev} {l l' : List (Option ℕ)} {i id : ℕ} (hl : HandlesOk d l l')
    (hi : (i, id) ∈ d.root) : HandlesOk d (l ++ [some id]) (l' ++ [some i]) := by
  induction hl with
  | nil => exact .cons (.some hi) .nil
  | cons ho _ ih => exact .cons ho ih

/-- What a handle is in the cache and in the bytes. -/
lemma Matches.handle (hm : Matches n s v) (h : ℕ) :
    (∃ i id, s.handles[h]? = some (some id) ∧ v.handles[h]? = some (some i) ∧ (i, id) ∈ s.dev.root) ∨
      (∀ id, s.handles[h]? ≠ some (some id)) ∧ ∀ i, v.handles[h]? ≠ some (some i) := by
  have hrel := hm.handles.get h
  generalize s.handles[h]? = o, v.handles[h]? = o' at hrel
  cases hrel with
  | none => exact .inr ⟨fun _ => nofun, fun _ => nofun⟩
  | some hrel =>
    cases hrel with
    | some hi => exact .inl ⟨_, _, rfl, rfl, hi⟩
    | none => exact .inr ⟨fun _ => nofun, fun _ => nofun⟩

/-! ### The gets of a cluster -/

lemma CacheRun.gets_append (s : CacheRun) (d : Dev) (id j : ℕ) :
    CacheRun.gets { s with dev := d, handles := s.handles ++ [some id] } j = bump s.gets id j := by
  rw [CacheRun.gets, bump, CacheRun.gets, count_append, count_singleton]
  simp only [beq_iff_eq, Option.some.injEq]
  split_ifs with h₁ h₂ h₂
  · rfl
  · exact absurd h₁.symm h₂
  · exact absurd h₂.symm h₁
  · rfl

/-- The gets before a put. -/
lemma CacheRun.gets_close {id : ℕ} (hid : s.handles[h]? = some (some id)) (d : Dev) (j : ℕ) :
    bump (CacheRun.gets { s with dev := d, handles := s.handles.set h none }) id j = s.gets j := by
  obtain ⟨hlt, hget⟩ := List.getElem?_eq_some_iff.mp hid
  rw [bump, CacheRun.gets, CacheRun.gets, count_set hlt, hget]
  have hpos : 0 < s.handles.count (some id) := count_pos_iff.mpr (mem_of_getElem? hid)
  simp only [beq_iff_eq, Option.some.injEq, reduceCtorEq, if_false, add_zero]
  split_ifs with h₁ h₂ h₂
  · subst h₁
    omega
  · exact absurd h₁.symm h₂
  · exact absurd h₂.symm h₁
  · rfl

/-! ### Steps -/

lemma CacheRun.call_ok {α : Type} {x : D α} {Q : α → Dev → Prop} (hx : Runs x s.dev Q)
    (k : α → CacheRun → CacheRun) : ∃ a d, s.call x k = .ok (k a { s with dev := d }) ∧ Q a d := by
  obtain ⟨a, d, hrun, hQ⟩ := hx
  refine ⟨a, d, ?_, hQ⟩
  rw [CacheRun.call, hrun]

lemma CacheRun.through_some {α : Type} {id : ℕ} (hid : s.handles[h]? = some (some id)) (x : ℕ → D α)
    (k : α → CacheRun → CacheRun) : s.through h x k = s.call (x id) k := by
  rw [CacheRun.through, hid]

lemma CacheRun.through_closed {α : Type} (hid : ∀ id, s.handles[h]? ≠ some (some id)) (x : ℕ → D α)
    (k : α → CacheRun → CacheRun) : s.through h x k = .ok s := by
  rw [CacheRun.through]
  split
  · exact absurd ‹_› (hid _)
  · rfl

/-- A call that changes neither tree nor bytes. -/
lemma Matches.same {d : Dev} (hm : Matches n s v) (hd : CacheOk d s.gets (fun _ => 0)) (hs : Same s.dev d) :
    Matches n { s with dev := d } v :=
  ⟨hd, hs.nrPages.trans hm.nrPages, hs.bytes.trans hm.bytes, hm.handles.mono fun _ _ _ hi => hs.root ▸ hi, hm.reads⟩

/-- Clusters left the tree, but none of an open handle. -/
lemma Matches.shrunk {d : Dev} (hm : Matches n s v) (hd : CacheOk d s.gets (fun _ => 0)) (hs : Shrunk s.dev d) :
    Matches n { s with dev := d } v := by
  refine ⟨hd, hs.nrPages.trans hm.nrPages, hs.bytes.trans hm.bytes, hm.handles.mono fun i id hid hi => ?_, hm.reads⟩
  by_contra hnot
  have hno : ∀ j, (j, id) ∉ d.root := fun j hj => hnot (hm.cache.index_unique hi (hs.root _ hj) ▸ hj)
  exact absurd (hd.unpinned id hno) (count_pos_iff.mpr hid).ne'

/-- The bytes of one cluster changed. -/
lemma Matches.written {d : Dev} {bytes : ℕ → Mem} (hm : Matches n s v) (hd : CacheOk d s.gets (fun _ => 0))
    (hroot : d.root = s.dev.root) (hpages : d.nrPages = s.dev.nrPages) (hbytes : d.bytes = bytes) :
    Matches n { s with dev := d } { v with bytes := bytes } :=
  ⟨hd, hpages.trans hm.nrPages, hbytes, hm.handles.mono fun _ _ _ hi => hroot ▸ hi, hm.reads⟩

/-- A call on the bytes through a closed handle. -/
lemma volume_closed {o : Option (Option ℕ)} (f : ℕ → Volume) : (∀ i, o ≠ some (some i)) → (match o with
      | some (some i) => f i
      | _ => v) = v := by
  intro ho
  split
  · exact absurd rfl (ho _)
  · rfl

/-- A put of a closed handle. -/
lemma set_closed {l : List (Option ℕ)} (hl : ∀ i, l[h]? ≠ some (some i)) : l.set h none = l := by
  refine ext_getElem? fun k => ?_
  rw [List.getElem?_set]
  split_ifs with hk hlt
  · subst hk
    have hget := List.getElem?_eq_getElem hlt
    cases hval : l[h] with
    | none => rw [hget, hval]
    | some i => exact absurd (hget.trans (by rw [hval])) (hl i)
  · subst hk
    exact (List.getElem?_eq_none (not_lt.mp hlt)).symm
  · rfl

/-- A call through a handle: on an open one it runs, on a closed one nothing happens. -/
lemma Matches.through {α : Type} {x : ℕ → D α} {k : α → CacheRun → CacheRun} {v' : Volume}
    (hm : Matches n s v) (h : ℕ)
    (hopen : ∀ i id, s.handles[h]? = some (some id) → v.handles[h]? = some (some i) → (i, id) ∈ s.dev.root →
      ∃ Q : α → Dev → Prop, Runs (x id) s.dev Q ∧ ∀ a d, Q a d → Matches n (k a { s with dev := d }) v')
    (hclosed : (∀ i, v.handles[h]? ≠ some (some i)) → v' = v) :
    ∃ s', s.through h x k = .ok s' ∧ Matches n s' v' := by
  obtain ⟨i, id, hid, hi, hroot⟩ | ⟨hid, hi⟩ := hm.handle h
  · obtain ⟨Q, hrun, hQ⟩ := hopen i id hid hi hroot
    obtain ⟨a, d, hcall, had⟩ := CacheRun.call_ok hrun k
    exact ⟨_, (CacheRun.through_some hid x k).trans hcall, hQ a d had⟩
  · exact ⟨s, CacheRun.through_closed hid x k, hclosed hi ▸ hm⟩

/-- **The step.** A call on the cache does what the call on the bytes does. -/
theorem cacheStep_spec (hsort : ∀ age l, (sort age l).Perm l) (c : CluCall) (hm : Matches n s v)
    (hc : c.Valid (n * pageSize)) :
    ∃ s', cacheStep sort c s = .ok s' ∧ Matches n s' (volumeStep (n * pageSize) c v) := by
  have hsize : s.dev.cluSize = n * pageSize := by rw [Dev.cluSize, hm.nrPages]
  cases c with
  | get index =>
    obtain ⟨id, d, hcall, hd, hgot⟩ := CacheRun.call_ok (dioCluGet_spec hm.cache hc)
      fun id s => { s with handles := s.handles ++ [some id] }
    refine ⟨_, hcall, ?_, hgot.nrPages.trans hm.nrPages, hgot.bytes.trans hm.bytes, ?_, hm.reads⟩
    · exact hd.congr (s.gets_append d id) fun _ => rfl
    · exact (hm.handles.mono fun i id _ hi => hgot.root _ hi).append hgot.mem
  | read h off len =>
    refine hm.through h (fun i id _ hv hi => ⟨_, dioCluRead_spec hm.cache hi (hsize ▸ hc), ?_⟩) fun hv => ?_
    · rintro buf d ⟨rfl, hbuf⟩
      refine ⟨hm.cache, hm.nrPages, ?_, ?_, ?_⟩
      all_goals rw [volumeStep, hv]
      · exact hm.bytes
      · exact hm.handles
      · rw [hm.reads, hbuf, hm.bytes]
    · exact volume_closed _ hv
  | write h off data =>
    refine hm.through h (fun i id _ hv hi => ⟨_, dioCluWrite_spec hm.cache hi (hsize ▸ hc), ?_⟩) fun hv => ?_
    · rintro _ d ⟨hd, hroot, hpages, hbytes⟩
      rw [volumeStep, hv]
      exact hm.written hd hroot hpages (by rw [hbytes, hm.bytes])
    · exact volume_closed _ hv
  | zero h =>
    refine hm.through h (fun i id _ hv hi => ⟨_, dioCluZero_spec hm.cache hi, ?_⟩) fun hv => ?_
    · rintro _ d ⟨hd, hroot, hpages, hbytes⟩
      rw [volumeStep, hv]
      exact hm.written hd hroot hpages (by rw [hbytes, hm.bytes, hsize])
    · exact volume_closed _ hv
  | sync h =>
    refine hm.through h (fun i id _ _ hi => ⟨_, dioCluSync_spec hm.cache hi, ?_⟩) fun _ => rfl
    intro _ d hd
    exact hm.same hd.1 hd.2
  | put h =>
    refine hm.through h (fun i id hid _ hi => ?_) fun hv => ?_
    · have hclose : CacheOk s.dev (bump (CacheRun.gets { s with handles := s.handles.set h none }) id) (fun _ => 0) :=
        hm.cache.congr (CacheRun.gets_close hid s.dev) fun _ => rfl
      refine ⟨_, dioCluPut_spec hclose, ?_⟩
      rintro _ d ⟨hd, hs⟩
      exact ⟨hd, hs.nrPages.trans hm.nrPages, hs.bytes.trans hm.bytes,
        (hm.handles.mono fun _ _ _ hi => hs.root ▸ hi).close h, hm.reads⟩
    · rw [volumeStep, set_closed hv]
  | age =>
    obtain ⟨_, d, hcall, hd, hs⟩ := CacheRun.call_ok (dioClusAge_spec hm.cache) fun _ s => s
    exact ⟨_, hcall, hm.same hd hs⟩
  | lruFrees =>
    obtain ⟨_, d, hcall, hd, hs⟩ := CacheRun.call_ok (dioClusLruFrees_spec hsort hm.cache) fun _ s => s
    exact ⟨_, hcall, hm.shrunk hd hs⟩

/-! ### Runs -/

/-- The calls in turn on the bytes. -/
def volumeRun (cluSize : ℕ) : List CluCall → Volume → Volume
  | [], v => v
  | c :: calls, v => volumeRun cluSize calls (volumeStep cluSize c v)

lemma cacheRun_spec (hsort : ∀ age l, (sort age l).Perm l) {calls : List CluCall} (hm : Matches n s v)
    (hc : ∀ c ∈ calls, c.Valid (n * pageSize)) :
    ∃ s', runSched (cacheStep sort) calls s = .ok s' ∧ Matches n s' (volumeRun (n * pageSize) calls v) := by
  induction calls generalizing s v with
  | nil => exact ⟨s, rfl, hm⟩
  | cons c calls ih =>
    obtain ⟨s₁, hstep, hm₁⟩ := cacheStep_spec hsort c hm (hc c mem_cons_self)
    obtain ⟨s₂, hrun, hm₂⟩ := ih hm₁ fun c' hc' => hc c' (mem_cons_of_mem _ hc')
    exact ⟨s₂, (runSched_cons hstep).trans hrun, hm₂⟩

/-- What a user of the cache can rely on, by the bytes `v` of the device. -/
structure Transparent (s : CacheRun) (v : Volume) : Prop where
  /-- Reads returned the bytes last written, or those of the device. -/
  reads : s.reads = v.reads
  /-- One cluster for each index. -/
  unique : (s.dev.root.map Prod.fst).Nodup
  nrClus : s.dev.nrClus = s.dev.root.length
  counts : ∀ i id, (i, id) ∈ s.dev.root →
    ∃ c, s.dev.clus id = some c ∧ c.index = i ∧ c.ref = 2 + s.gets id ∧ c.pin = s.gets id
  /-- The cluster of a get without a put is cached under its index. -/
  handles : HandlesOk s.dev s.handles v.handles
  /-- Without open gets the device can be released; it then holds the bytes, and every cluster is freed. -/
  release : (∀ o ∈ s.handles, o = none) →
    Runs dioClusRelease s.dev fun _ d => d.disk = v.bytes ∧ d.root = [] ∧ ∀ id, d.clus id = none

lemma Matches.transparent (hm : Matches n s v) : Transparent s v where
  reads := hm.reads
  unique := by
    rw [List.Nodup, pairwise_map]
    exact hm.cache.sorted.imp fun hlt => Nat.ne_of_lt hlt
  nrClus := hm.cache.count
  counts i id hi := by
    obtain ⟨c, hc, hok⟩ := hm.cache.cached i id hi
    exact ⟨c, hc, hok.index, hok.ref, hok.pin⟩
  handles := hm.handles
  release hnone := by
    have hgets : ∀ id, 0 = s.gets id := fun id =>
      (count_eq_zero.mpr fun hid => absurd (hnone (some id) hid) (Option.some_ne_none id)).symm
    refine (dioClusRelease_spec (hm.cache.congr hgets fun _ => rfl)).mono fun _ d ⟨hempty, hfreed, hdisk⟩ => ?_
    exact ⟨hdisk.trans hm.bytes, hempty, hfreed⟩

/-- **The cluster cache is transparent.** Every sequence of calls runs without a fault, and its reads, its
counts and the released device are those that the bytes ask for, whatever was evicted in between. -/
theorem cache_transparent (sort : (ℕ → UInt64) → List ℕ → List ℕ) (hsort : ∀ age l, (sort age l).Perm l) (nrPages nrMaxClus : ℕ) (disk : ℕ → Mem)
    (calls : List CluCall) (hvalid : ∀ c ∈ calls, c.Valid (nrPages * pageSize)) :
    ∃ s, runSched (cacheStep sort) calls ⟨Dev.init nrPages nrMaxClus disk, [], []⟩ = .ok s ∧
      Transparent s (volumeRun (nrPages * pageSize) calls ⟨disk, [], []⟩) := by
  have hm : Matches nrPages ⟨Dev.init nrPages nrMaxClus disk, [], []⟩ ⟨disk, [], []⟩ :=
    ⟨cacheOk_init nrPages nrMaxClus disk, rfl, rfl, .nil, rfl⟩
  obtain ⟨s, hrun, hm'⟩ := cacheRun_spec hsort hm hvalid
  exact ⟨s, hrun, hm'.transparent⟩

/-- A write that is evicted, and a read of it; the limit is no cluster at all. -/
theorem cache_transparent_evicted :
    ∃ s, runSched (cacheStep fun age l => l.mergeSort fun a b => age a ≤ age b)
        [.get 3, .write 0 1 [7, 8], .put 0, .lruFrees, .get 3, .read 1 0 4]
        ⟨Dev.init 16 0 fun _ _ => 5, [], []⟩ = .ok s ∧ s.reads = [[5, 7, 8, 5]] := by
  obtain ⟨s, hrun, hs⟩ := cache_transparent (fun age l => l.mergeSort fun a b => age a ≤ age b)
    (fun _ l => List.mergeSort_perm l _) 16 0 (fun _ _ => 5)
    [.get 3, .write 0 1 [7, 8], .put 0, .lruFrees, .get 3, .read 1 0 4]
    (by simp [CluCall.Valid, pageSize])
  exact ⟨s, hrun, hs.reads.trans (by decide)⟩

end

end Nkfs
