import Nkfs.Errno
import Nkfs.Lib.Interleaving
import Nkfs.Lib.SearchTree

/-!
# The node cache of a B-tree under concurrent readers (`core/btree.c`)

Any number of threads look up, insert and drop nodes of one tree, as calls of `nkfs_btree_find_key` do.
A step is one atomic operation on a counter, one section under `nodes_lock`, or an allocation or a free.

The last `atomic_dec_and_test` and the removal from the cache are two steps. In between the node is in the
cache with count 0, and a thread that finds it fires the `NKFS_BUG_ON` of `nkfs_btree_node_ref`. `NodeOk`
says where a node can be: not in memory, shared, private to a thread before it is inserted, or on its way
out, in the cache and after it. It is kept as long as nobody finds a node on its way out
(`CacheOk.step`), and a thread that does so faults (`cache_safe_iff`).
-/

namespace Nkfs.NodeCache

open Lib.Interleaving Lib.SearchTree Function List

/-! ### The program -/

/-- `struct nkfs_btree_node`, as far as the cache reads it. -/
structure NodeObj where
  block : ℕ
  ref : ℤ

/-- Where a thread is.

* `created n`: `n` was allocated and filled, before `nkfs_btree_nodes_insert`
* `lost n`: another node was found there, before `__nkfs_btree_node_free`
* `linked n`: `n` was inserted, before the `NKFS_BTREE_NODE_DEREF` that follows
* `checked n`: in `nkfs_btree_node_deref`, after its `NKFS_BUG_ON`
* `zero n`: after the `atomic_dec_and_test` that gave 0, before `nkfs_btree_nodes_remove`
* `removed n`: before `__nkfs_btree_node_free` -/
inductive Phase where
  | idle
  | created (n : ℕ)
  | lost (n : ℕ)
  | linked (n : ℕ)
  | checked (n : ℕ)
  | zero (n : ℕ)
  | removed (n : ℕ)
  deriving DecidableEq

/-- A thread and the references it has. -/
structure Thread where
  phase : Phase
  holds : List ℕ

/-- One tree and its `k` readers. The tree has a reference on `root`. `frees n` counts how often the node
`n` was freed. -/
structure Cache (k : ℕ) where
  objs : ℕ → Option NodeObj
  nodes : RbTree ℕ
  nodesActive : ℤ
  next : ℕ
  frees : ℕ → ℕ
  root : ℕ
  threads : Fin k → Thread

variable {k : ℕ}

/-- The tree after `nkfs_btree_create`: its root is read. -/
def Cache.init (k rootBlock : ℕ) : Cache k where
  objs n := if n = 0 then some ⟨rootBlock, 1⟩ else none
  nodes := .node false .nil 0 .nil
  nodesActive := 1
  next := 1
  frees _ := 0
  root := 0
  threads _ := ⟨.idle, []⟩

def Cache.setObj (c : Cache k) (n : ℕ) (o : Option NodeObj) : Cache k :=
  { c with objs := Function.update c.objs n o }

def Cache.setThread (c : Cache k) (t : Fin k) (phase : Phase) (holds : List ℕ) : Cache k :=
  { c with threads := Function.update c.threads t ⟨phase, holds⟩ }

/-- A node in memory. -/
def Cache.read (c : Cache k) (n : ℕ) : Except RefFault NodeObj :=
  match c.objs n with
  | none => .error .freed
  | some o => .ok o

/-- The comparison of `__nkfs_btree_nodes_lookup` at a node of the tree. -/
def Cache.cmp (c : Cache k) (block n : ℕ) : Except RefFault Ordering :=
  (c.read n).map fun o => compare block o.block

/-- Source: `core/btree.c` `__nkfs_btree_nodes_lookup` -/
def Cache.search (c : Cache k) (block : ℕ) : Except RefFault (Option ℕ) := c.nodes.search (c.cmp block)

/-- Source: `core/btree.c` `nkfs_btree_node_ref` -/
def Cache.nodeRef (c : Cache k) (n : ℕ) : Except RefFault (Cache k) := do
  let o ← c.read n
  if o.ref ≤ 0 then .error .bug
  else .ok (c.setObj n (some { o with ref := o.ref + 1 }))

/-- Source: `core/btree.c` `__nkfs_btree_node_free` -/
def Cache.nodeFree (c : Cache k) (n : ℕ) : Except RefFault (Cache k) := do
  let _ ← c.read n
  .ok { c.setObj n none with frees := Function.update c.frees n (c.frees n + 1) }

/-- The section of `nkfs_btree_nodes_lookup`. -/
def Cache.nodesLookup (c : Cache k) (t : Fin k) (block : ℕ) : Except RefFault (Cache k) := do
  match ← c.search block with
  | none => .ok c
  | some m => do
    let c ← c.nodeRef m
    .ok (c.setThread t .idle (m :: (c.threads t).holds))

/-- The section of `nkfs_btree_nodes_insert`. -/
def Cache.nodesInsert (rb : Balancer ℕ) (c : Cache k) (t : Fin k) (n : ℕ) : Except RefFault (Cache k) := do
  let o ← c.read n
  match ← c.search o.block with
  | some m => do
    let c ← c.nodeRef m
    .ok (c.setThread t (.lost n) (m :: (c.threads t).holds))
  | none => do
    let tree ← c.nodes.link (c.cmp o.block) n
    let c := { c with nodes := rb.insertColor n tree, nodesActive := c.nodesActive + 1 }
    let c ← c.nodeRef n
    .ok (c.setThread t (.linked n) (n :: (c.threads t).holds))

/-- The section of `nkfs_btree_nodes_remove`. -/
def Cache.nodesRemove (rb : Balancer ℕ) (c : Cache k) (t : Fin k) (n : ℕ) : Except RefFault (Cache k) := do
  let o ← c.read n
  if o.block = 0 then .ok (c.setThread t (.removed n) (c.threads t).holds)
  else
    match ← c.search o.block with
    | none => .ok (c.setThread t (.removed n) (c.threads t).holds)
    | some m =>
      if m ≠ n then .error .bug
      else
        let c := { c with nodes := rb.erase m c.nodes, nodesActive := c.nodesActive - 1 }
        .ok (c.setThread t (.removed n) (c.threads t).holds)

/-- The steps of a thread. A thread drops only references it has. `discard` is the
`__nkfs_btree_node_free` of `nkfs_btree_node_read`, if the block cannot be read or another node was
inserted first. -/
inductive Act (k : ℕ) where
  | lookup (t : Fin k) (block : ℕ)
  | alloc (t : Fin k) (block : ℕ)
  | insert (t : Fin k)
  | discard (t : Fin k)
  | check (t : Fin k) (n : ℕ)
  | dec (t : Fin k)
  | remove (t : Fin k)
  | free (t : Fin k)

/-- `nkfs_btree_node_deref`, up to its `NKFS_BUG_ON`. -/
def Cache.derefCheck (c : Cache k) (t : Fin k) (n : ℕ) : Except RefFault (Cache k) := do
  let o ← c.read n
  if o.ref ≤ 0 then .error .bug
  else .ok (c.setThread t (.checked n) (c.threads t).holds)

/-- The `atomic_dec_and_test` of `nkfs_btree_node_deref`. -/
def Cache.derefDec (c : Cache k) (t : Fin k) (n : ℕ) : Except RefFault (Cache k) := do
  let o ← c.read n
  let phase := if o.ref - 1 = 0 then .zero n else .idle
  .ok ((c.setObj n (some { o with ref := o.ref - 1 })).setThread t phase ((c.threads t).holds.erase n))

/-- A free, after which the thread is done with the node. -/
def Cache.freeBy (c : Cache k) (t : Fin k) (n : ℕ) : Except RefFault (Cache k) := do
  let c ← c.nodeFree n
  .ok (c.setThread t .idle ((c.threads t).holds.erase n))

/-- What a step does; `none` if the thread is not at that step. A block that `nkfs_btree_node_read` reads is
not 0, by its `NKFS_BUG_ON`. -/
def stepOf (rb : Balancer ℕ) (c : Cache k) : Act k → Option (Except RefFault (Cache k))
  | .lookup t block => if (c.threads t).phase = .idle then some (c.nodesLookup t block) else none
  | .alloc t block =>
    if (c.threads t).phase = .idle ∧ block ≠ 0 then
      some (.ok (({ c.setObj c.next (some ⟨block, 1⟩) with next := c.next + 1 } : Cache k).setThread t
        (.created c.next) (c.next :: (c.threads t).holds)))
    else none
  | .insert t =>
    match (c.threads t).phase with
    | .created n => some (c.nodesInsert rb t n)
    | _ => none
  | .discard t =>
    match (c.threads t).phase with
    | .created n | .lost n => some (c.freeBy t n)
    | _ => none
  | .check t n =>
    if ((c.threads t).phase = .idle ∨ (c.threads t).phase = .linked n) ∧ n ∈ (c.threads t).holds then
      some (c.derefCheck t n)
    else none
  | .dec t =>
    match (c.threads t).phase with
    | .checked n => some (c.derefDec t n)
    | _ => none
  | .remove t =>
    match (c.threads t).phase with
    | .zero n => some (c.nodesRemove rb t n)
    | _ => none
  | .free t =>
    match (c.threads t).phase with
    | .removed n => some (c.freeBy t n)
    | _ => none

/-- A step that is taken. -/
def Next (rb : Balancer ℕ) (a : Act k) (c c' : Cache k) : Prop := stepOf rb c a = some (.ok c')

/-! ### Where a node can be -/

/-- The node a thread works on. -/
def Phase.node : Phase → Option ℕ
  | .idle => none
  | .created n | .lost n | .linked n | .checked n | .zero n | .removed n => some n

/-- The number of references on a node: that of the tree and those of the threads. -/
def Cache.holdsAt (c : Cache k) (n : ℕ) : ℕ :=
  (if n = c.root then 1 else 0) + ∑ t, (c.threads t).holds.count n

/-- No thread works on the node, apart from those in `S`. -/
def Cache.Unused (c : Cache k) (n : ℕ) (S : Set (Fin k)) : Prop :=
  ∀ t ∉ S, (c.threads t).phase.node ≠ some n

/-- What is known about a node in memory. -/
structure Live (c : Cache k) (n : ℕ) (o : NodeObj) : Prop where
  obj : c.objs n = some o
  lt : n < c.next
  block : o.block ≠ 0
  ref : o.ref = c.holdsAt n
  frees : c.frees n = 0

/-- Where a node can be: not in memory, shared through the cache, private to a thread that has not
inserted it or lost the race, without references in the cache, or without references after it. -/
inductive NodeOk (c : Cache k) (n : ℕ) : Prop
  | absent (hobj : c.objs n = none) (hholds : c.holdsAt n = 0) (hmem : n ∉ c.nodes.toList)
      (hunused : c.Unused n ∅) (hfrees : c.frees n = if n < c.next then 1 else 0)
  | shared (o : NodeObj) (hlive : Live c n o) (hpos : 0 < c.holdsAt n) (hmem : n ∈ c.nodes.toList)
      (hunused : ∀ t, (c.threads t).phase.node = some n →
        ((c.threads t).phase = .linked n ∨ (c.threads t).phase = .checked n) ∧ n ∈ (c.threads t).holds)
  | own (o : NodeObj) (t : Fin k) (hlive : Live c n o) (hone : c.holdsAt n = 1) (hmem : n ∉ c.nodes.toList)
      (hphase : (c.threads t).phase = .created n ∨ (c.threads t).phase = .lost n)
      (hholds : n ∈ (c.threads t).holds) (hunused : c.Unused n {t})
  | leaving (o : NodeObj) (t : Fin k) (hlive : Live c n o) (hzero : c.holdsAt n = 0)
      (hmem : n ∈ c.nodes.toList) (hphase : (c.threads t).phase = .zero n) (hunused : c.Unused n {t})
  | left (o : NodeObj) (t : Fin k) (hlive : Live c n o) (hzero : c.holdsAt n = 0)
      (hmem : n ∉ c.nodes.toList) (hphase : (c.threads t).phase = .removed n) (hunused : c.Unused n {t})

/-- Place of a node in the tree. -/
def Cache.key (c : Cache k) (n : ℕ) : ℕ :=
  match c.objs n with
  | none => 0
  | some o => o.block

/-- The invariant. -/
structure CacheOk (c : Cache k) : Prop where
  sorted : c.nodes.Sorted c.key
  node : ∀ n, NodeOk c n

section

variable {c c' : Cache k} {t : Fin k} {n m : ℕ} {o : NodeObj} {rb : Balancer ℕ}

/-! ### Small steps on the state -/

@[simp] lemma setThread_self (phase : Phase) (holds : List ℕ) :
    (c.setThread t phase holds).threads t = ⟨phase, holds⟩ := update_self ..

lemma setThread_other {u : Fin k} (hu : u ≠ t) (phase : Phase) (holds : List ℕ) :
    (c.setThread t phase holds).threads u = c.threads u := update_of_ne hu ..

@[simp] lemma setObj_self (x : Option NodeObj) : (c.setObj n x).objs n = x := update_self ..

lemma setObj_other (hm : m ≠ n) (x : Option NodeObj) : (c.setObj n x).objs m = c.objs m :=
  update_of_ne hm ..

lemma read_ok (ho : c.objs n = some o) : c.read n = .ok o := by
  rw [Cache.read, ho]

/-! ### Counting references -/

/-- The references of one thread changed. -/
lemma holdsAt_update (hroot : c'.root = c.root) (hother : ∀ u ≠ t, c'.threads u = c.threads u) (n : ℕ) :
    c'.holdsAt n + (c.threads t).holds.count n = c.holdsAt n + (c'.threads t).holds.count n := by
  have hsum : ∀ f : Fin k → Thread, ∑ u, (f u).holds.count n =
      (f t).holds.count n + ∑ u ∈ Finset.univ.erase t, (f u).holds.count n := fun f =>
    (Finset.add_sum_erase Finset.univ (fun u => (f u).holds.count n) (Finset.mem_univ t)).symm
  have hrest : ∑ u ∈ Finset.univ.erase t, (c'.threads u).holds.count n =
      ∑ u ∈ Finset.univ.erase t, (c.threads u).holds.count n :=
    Finset.sum_congr rfl fun u hu => by rw [hother u (Finset.ne_of_mem_erase hu)]
  rw [Cache.holdsAt, Cache.holdsAt, hsum, hsum c.threads, hrest, hroot]
  omega

/-- A reference of a thread is one on the node. -/
lemma count_le_holdsAt (c : Cache k) (t : Fin k) (n : ℕ) : (c.threads t).holds.count n ≤ c.holdsAt n :=
  (Finset.single_le_sum (fun u _ => Nat.zero_le ((c.threads u).holds.count n)) (Finset.mem_univ t)).trans
    (Nat.le_add_left ..)

/-- References of two threads are two. -/
lemma two_le_holdsAt {u : Fin k} (hut : u ≠ t) (ht : n ∈ (c.threads t).holds) (hu : n ∈ (c.threads u).holds) :
    2 ≤ c.holdsAt n := by
  have hsum : (c.threads t).holds.count n + (c.threads u).holds.count n ≤ ∑ v, (c.threads v).holds.count n :=
    Finset.add_le_sum (fun v _ => Nat.zero_le ((c.threads v).holds.count n)) (Finset.mem_univ t)
      (Finset.mem_univ u) hut.symm
  have hct := count_pos_iff.mpr ht
  have hcu := count_pos_iff.mpr hu
  rw [Cache.holdsAt]
  omega

/-! ### Nodes that a step does not touch -/

/-- What a step of thread `t` leaves of a node it does not work on. -/
structure Apart (t : Fin k) (c c' : Cache k) (x : ℕ) : Prop where
  objs : c'.objs x = c.objs x
  lt : x < c'.next ↔ x < c.next
  frees : c'.frees x = c.frees x
  mem : x ∈ c'.nodes.toList ↔ x ∈ c.nodes.toList
  count : (c'.threads t).holds.count x = (c.threads t).holds.count x
  before : (c.threads t).phase.node ≠ some x
  after : (c'.threads t).phase.node ≠ some x

lemma NodeOk.apart {x : ℕ} (h : NodeOk c x) (ha : Apart t c c' x) (hroot : c'.root = c.root)
    (hother : ∀ u ≠ t, c'.threads u = c.threads u) : NodeOk c' x := by
  have hholds : c'.holdsAt x = c.holdsAt x := by
    have hsum := holdsAt_update hroot hother x
    rw [ha.count] at hsum
    omega
  have hlive : ∀ {o}, Live c x o → Live c' x o := fun hl =>
    ⟨ha.objs.trans hl.obj, ha.lt.mpr hl.lt, hl.block, by rw [hholds]; exact hl.ref, ha.frees.trans hl.frees⟩
  have hunused : ∀ {S}, c.Unused x S → c'.Unused x S := fun hu u hS => by
    rcases eq_or_ne u t with rfl | hne
    · exact ha.after
    · rw [hother u hne]
      exact hu u hS
  have hsame : ∀ {u}, (c.threads u).phase.node = some x → c'.threads u = c.threads u := fun hu =>
    hother _ fun heq => ha.before (heq ▸ hu)
  cases h with
  | absent hobj hzero hmem hun hfrees =>
    refine .absent (ha.objs.trans hobj) (hholds.trans hzero) (mt ha.mem.mp hmem) (hunused hun) ?_
    rw [ha.frees, hfrees, if_congr ha.lt rfl rfl]
  | shared o hl hpos hmem hun =>
    refine .shared o (hlive hl) (hholds ▸ hpos) (ha.mem.mpr hmem) fun u hu => ?_
    rcases eq_or_ne u t with rfl | hne
    · exact absurd hu ha.after
    · rw [hother u hne] at hu ⊢
      exact hun u hu
  | own o u hl hone hmem hphase hh hun =>
    have heq : c'.threads u = c.threads u := hsame (by rcases hphase with h | h <;> rw [h] <;> rfl)
    exact .own o u (hlive hl) (hholds.trans hone) (mt ha.mem.mp hmem) (by rwa [heq]) (by rwa [heq]) (hunused hun)
  | leaving o u hl hzero hmem hphase hun =>
    have heq : c'.threads u = c.threads u := hsame (by rw [hphase]; rfl)
    exact .leaving o u (hlive hl) (hholds.trans hzero) (ha.mem.mpr hmem) (by rwa [heq]) (hunused hun)
  | left o u hl hzero hmem hphase hun =>
    have heq : c'.threads u = c.threads u := hsame (by rw [hphase]; rfl)
    exact .left o u (hlive hl) (hholds.trans hzero) (mt ha.mem.mp hmem) (by rwa [heq]) (hunused hun)

/-! ### The node a thread works on -/

/-- A thread that works on a shared node has a reference, and is about to drop it. -/
def Cache.Sharing (c : Cache k) (n : ℕ) : Prop := ∀ t, (c.threads t).phase.node = some n →
  ((c.threads t).phase = .linked n ∨ (c.threads t).phase = .checked n) ∧ n ∈ (c.threads t).holds

/-- Where the node is that a thread in this phase works on. -/
def Cache.Place (c : Cache k) (t : Fin k) (n : ℕ) : Phase → Prop
  | .idle => False
  | .linked _ | .checked _ => n ∈ (c.threads t).holds ∧ 0 < c.holdsAt n ∧ n ∈ c.nodes.toList ∧ c.Sharing n
  | .created _ | .lost _ => c.Unused n {t} ∧ c.holdsAt n = 1 ∧ n ∉ c.nodes.toList ∧ n ∈ (c.threads t).holds
  | .zero _ => c.Unused n {t} ∧ c.holdsAt n = 0 ∧ n ∈ c.nodes.toList
  | .removed _ => c.Unused n {t} ∧ c.holdsAt n = 0 ∧ n ∉ c.nodes.toList

/-- The thread that works on a node knows where it is. -/
lemma NodeOk.of_phase (h : NodeOk c n) {p : Phase} (hphase : (c.threads t).phase = p) (hp : p.node = some n) :
    ∃ o, Live c n o ∧ c.Place t n p := by
  have hnode : (c.threads t).phase.node = some n := by rw [hphase, hp]
  have hsame : ∀ {u}, c.Unused n {u} → t = u := fun hun => by
    by_contra hne
    exact hun t hne hnode
  subst hphase
  cases h with
  | absent hobj hzero hmem hun hfrees => exact absurd hnode (hun t (Set.notMem_empty t))
  | shared o hl hpos hmem hun =>
    obtain ⟨hphase | hphase, hholds⟩ := hun t hnode
    · rw [hphase]
      exact ⟨o, hl, hholds, hpos, hmem, hun⟩
    · rw [hphase]
      exact ⟨o, hl, hholds, hpos, hmem, hun⟩
  | own o u hl hone hmem hphase hh hun =>
    obtain rfl := hsame hun
    rcases hphase with hphase | hphase
    · rw [hphase]
      exact ⟨o, hl, hun, hone, hmem, hh⟩
    · rw [hphase]
      exact ⟨o, hl, hun, hone, hmem, hh⟩
  | leaving o u hl hzero hmem hphase hun =>
    obtain rfl := hsame hun
    rw [hphase]
    exact ⟨o, hl, hun, hzero, hmem⟩
  | left o u hl hzero hmem hphase hun =>
    obtain rfl := hsame hun
    rw [hphase]
    exact ⟨o, hl, hun, hzero, hmem⟩

/-- A reference of an idle thread is on a shared node. -/
lemma NodeOk.of_holds (h : NodeOk c n) (hidle : (c.threads t).phase = .idle)
    (hholds : n ∈ (c.threads t).holds) :
    ∃ o, Live c n o ∧ 0 < c.holdsAt n ∧ n ∈ c.nodes.toList ∧ c.Sharing n := by
  have hpos := (count_pos_iff.mpr hholds).trans_le (count_le_holdsAt c t n)
  cases h with
  | absent hobj hzero hmem hun hfrees => omega
  | shared o hl hpos hmem hun => exact ⟨o, hl, hpos, hmem, hun⟩
  | own o u hl hone hmem hphase hh hun =>
    have hne : u ≠ t := by
      rintro rfl
      rcases hphase with h | h <;> cases h.symm.trans hidle
    have htwo := two_le_holdsAt hne hholds hh
    omega
  | leaving o u hl hzero hmem hphase hun => omega
  | left o u hl hzero hmem hphase hun => omega

/-! ### Searching -/

lemma key_eq (ho : c.objs n = some o) : c.key n = o.block := by
  rw [Cache.key, ho]

lemma key_congr (ho : (c'.objs n).map NodeObj.block = (c.objs n).map NodeObj.block) : c'.key n = c.key n := by
  rw [Cache.key, Cache.key]
  cases h : c.objs n with
  | none =>
    rw [h] at ho
    rw [Option.map_eq_none_iff.mp ho]
  | some o =>
    rw [h] at ho
    obtain ⟨o', ho', hb⟩ := Option.map_eq_some_iff.mp ho
    rw [ho']
    exact hb

/-- A node of the cache is in memory. -/
lemma CacheOk.live (hok : CacheOk c) (hm : m ∈ c.nodes.toList) : ∃ o, Live c m o := by
  cases hok.node m with
  | absent hobj hzero hmem hun hfrees => exact absurd hm hmem
  | shared o hl => exact ⟨o, hl⟩
  | own o u hl => exact ⟨o, hl⟩
  | leaving o u hl => exact ⟨o, hl⟩
  | left o u hl => exact ⟨o, hl⟩

lemma CacheOk.compares (hok : CacheOk c) (block : ℕ) : Compares (c.cmp block) c.key block c.nodes := by
  intro m hm
  obtain ⟨o, hl⟩ := hok.live hm
  rw [Cache.cmp, read_ok hl.obj, key_eq hl.obj]
  rfl

lemma CacheOk.search_mem (hok : CacheOk c) (hm : m ∈ c.nodes.toList) (ho : c.objs m = some o) :
    c.search o.block = .ok (some m) :=
  RbTree.search_of_mem hok.sorted (hok.compares o.block) hm (key_eq ho)

lemma CacheOk.search_none (hok : CacheOk c) {block : ℕ} (hno : ∀ m ∈ c.nodes.toList, c.key m ≠ block) :
    c.search block = .ok none := RbTree.search_of_notMem (hok.compares block) hno

/-! ### Taking a reference -/

/-- The cached node for the block, if there is one, has a reference. -/
def CountPos (c : Cache k) (block : ℕ) : Prop :=
  ∀ m ∈ c.nodes.toList, ∀ o, c.objs m = some o → o.block = block → 0 < o.ref

lemma not_countPos {block : ℕ} : ¬ CountPos c block ↔
    ∃ m ∈ c.nodes.toList, ∃ o, c.objs m = some o ∧ o.block = block ∧ o.ref ≤ 0 := by
  rw [CountPos]
  push Not
  rfl

/-- The state after thread `t` took a reference on `m`. -/
def Cache.taken (c : Cache k) (t : Fin k) (m : ℕ) (o : NodeObj) (p : Phase) : Cache k :=
  (c.setObj m (some { o with ref := o.ref + 1 })).setThread t p (m :: (c.threads t).holds)

lemma nodeRef_run (ho : c.objs m = some o) (hpos : 0 < o.ref) :
    c.nodeRef m = .ok (c.setObj m (some { o with ref := o.ref + 1 })) := by
  rw [Cache.nodeRef, read_ok ho]
  exact if_neg (not_le.mpr hpos)

lemma nodeRef_bug (ho : c.objs m = some o) (hzero : o.ref ≤ 0) : c.nodeRef m = .error .bug := by
  rw [Cache.nodeRef, read_ok ho]
  exact if_pos hzero

/-- A shared node gets one more reference. -/
lemma NodeOk.taken (h : NodeOk c m) (hl : Live c m o) (hmem : m ∈ c.nodes.toList) (hpos : 0 < o.ref)
    {p : Phase} (hp : p.node ≠ some m) (hbefore : (c.threads t).phase.node ≠ some m) :
    NodeOk (c.taken t m o p) m := by
  have hroot : (c.taken t m o p).root = c.root := rfl
  have hsum := holdsAt_update hroot (fun u hu => setThread_other (t := t) hu _ _) m
  have hself : ((c.taken t m o p).threads t) = ⟨p, m :: (c.threads t).holds⟩ := setThread_self ..
  rw [hself, count_cons_self] at hsum
  have href := hl.ref
  have hshare : c.Sharing m := by
    cases h with
    | absent hobj hzero hno => exact absurd hmem hno
    | shared o' hl' hpos' hmem' hun => exact hun
    | own o' u hl' hone hno => exact absurd hmem hno
    | leaving o' u hl' hzero => omega
    | left o' u hl' hzero hno => exact absurd hmem hno
  refine .shared { o with ref := o.ref + 1 } ⟨setObj_self _, hl.lt, hl.block, ?_, hl.frees⟩ (by omega) hmem ?_
  · show o.ref + 1 = _
    omega
  · intro u hu
    rcases eq_or_ne u t with rfl | hne
    · rw [hself] at hu
      exact absurd hu hp
    · have heq : (c.taken t m o p).threads u = c.threads u := setThread_other hne _ _
      rw [heq] at hu ⊢
      exact hshare u hu

lemma Unused.of_other (hun : c.Unused n {t}) (hother : ∀ u ≠ t, c'.threads u = c.threads u) :
    c'.Unused n {t} := by
  intro u hu
  rw [hother u hu]
  exact hun u hu

/-- A step keeps the invariant if it does so at the nodes it touches. -/
lemma CacheOk.of_touched (hok : CacheOk c) (hroot : c'.root = c.root)
    (hother : ∀ u ≠ t, c'.threads u = c.threads u) (touched : ℕ → Prop)
    (hapart : ∀ x, ¬ touched x → Apart t c c' x) (hnode : ∀ x, touched x → NodeOk c' x)
    (hsorted : c'.nodes.Sorted c'.key) : CacheOk c' where
  sorted := hsorted
  node x := by
    by_cases hx : touched x
    · exact hnode x hx
    · exact (hok.node x).apart (hapart x hx) hroot hother

/-! ### The steps -/

lemma node_ne {p : Phase} {x : ℕ} (hp : p.node = some n) (hx : x ≠ n) : p.node ≠ some x := by
  rw [hp]
  exact fun heq => hx (Option.some.inj heq).symm

lemma setObj_key (ho : c.objs n = some o) {q : NodeObj} (hb : q.block = o.block) (x : ℕ) :
    (c.setObj n (some q)).key x = c.key x := by
  refine key_congr ?_
  rcases eq_or_ne x n with rfl | hne
  · rw [setObj_self, ho, Option.map_some, Option.map_some, hb]
  · rw [setObj_other hne]

lemma taken_sorted (hok : CacheOk c) (ho : c.objs m = some o) (p : Phase) :
    (c.taken t m o p).nodes.Sorted (c.taken t m o p).key :=
  hok.sorted.congr fun x _ => setObj_key (q := { o with ref := o.ref + 1 }) ho rfl x

/-- `nkfs_btree_nodes_lookup` finds a referenced node or none. -/
lemma CacheOk.lookup (hok : CacheOk c) (hidle : (c.threads t).phase = .idle) {block : ℕ}
    (hC : CountPos c block) : ∃ c', c.nodesLookup t block = .ok c' ∧ CacheOk c' := by
  by_cases hhit : ∃ m ∈ c.nodes.toList, c.key m = block
  · obtain ⟨m, hm, hkey⟩ := hhit
    obtain ⟨o, hl⟩ := hok.live hm
    obtain rfl : o.block = block := (key_eq hl.obj).symm.trans hkey
    have hpos := hC m hm o hl.obj rfl
    have hbefore : ∀ x, (c.threads t).phase.node ≠ some x := fun x hx => by
      rw [hidle] at hx
      cases hx
    refine ⟨c.taken t m o .idle, ?_, ?_⟩
    · rw [Cache.nodesLookup, hok.search_mem hm hl.obj]
      show (c.nodeRef m >>= _) = _
      rw [nodeRef_run hl.obj hpos]
      rfl
    · refine hok.of_touched rfl (fun u hu => setThread_other hu _ _) (· = m) (fun x hx => ?_) ?_
        (taken_sorted hok hl.obj _)
      · refine ⟨setObj_other hx _, Iff.rfl, rfl, Iff.rfl, ?_, hbefore x, ?_⟩
        · rw [Cache.taken, setThread_self, count_cons_of_ne (Ne.symm hx)]
        · rw [Cache.taken, setThread_self]
          exact nofun
      · rintro x rfl
        exact (hok.node x).taken hl hm hpos nofun (hbefore x)
  · refine ⟨c, ?_, hok⟩
    rw [Cache.nodesLookup, hok.search_none fun m hm hkey => hhit ⟨m, hm, hkey⟩]
    rfl

/-- A cached node without references fires the `NKFS_BUG_ON`. -/
lemma CacheOk.lookup_bug (hok : CacheOk c) {block : ℕ} (hC : ¬ CountPos c block) :
    c.nodesLookup t block = .error .bug := by
  obtain ⟨m, hm, o, ho, rfl, hzero⟩ := not_countPos.mp hC
  rw [Cache.nodesLookup, hok.search_mem hm ho]
  show (c.nodeRef m >>= _) = _
  rw [nodeRef_bug ho hzero]
  rfl

/-- The state after `t` read the block into a new node. -/
def Cache.allocated (c : Cache k) (t : Fin k) (block : ℕ) : Cache k :=
  ({ c.setObj c.next (some ⟨block, 1⟩) with next := c.next + 1 } : Cache k).setThread t (.created c.next)
    (c.next :: (c.threads t).holds)

/-- Nothing is known of a node that was never allocated. -/
lemma CacheOk.next_absent (hok : CacheOk c) : c.objs c.next = none ∧ c.holdsAt c.next = 0 ∧
    c.next ∉ c.nodes.toList ∧ c.Unused c.next ∅ ∧ c.frees c.next = 0 := by
  cases hok.node c.next with
  | absent hobj hzero hmem hun hfrees => exact ⟨hobj, hzero, hmem, hun, hfrees.trans (if_neg (lt_irrefl _))⟩
  | shared o hl => exact absurd hl.lt (lt_irrefl _)
  | own o u hl => exact absurd hl.lt (lt_irrefl _)
  | leaving o u hl => exact absurd hl.lt (lt_irrefl _)
  | left o u hl => exact absurd hl.lt (lt_irrefl _)

lemma CacheOk.alloc (hok : CacheOk c) (hidle : (c.threads t).phase = .idle) {block : ℕ} (hb : block ≠ 0) :
    CacheOk (c.allocated t block) := by
  obtain ⟨hobj, hzero, hmem, hun, hfrees⟩ := hok.next_absent
  have hroot : (c.allocated t block).root = c.root := rfl
  have hother : ∀ u ≠ t, (c.allocated t block).threads u = c.threads u := fun u hu => setThread_other hu _ _
  have hself : (c.allocated t block).threads t = ⟨.created c.next, c.next :: (c.threads t).holds⟩ :=
    setThread_self ..
  have hsum := holdsAt_update hroot hother c.next
  rw [hself, count_cons_self, hzero] at hsum
  have hone : (c.allocated t block).holdsAt c.next = 1 := by omega
  refine hok.of_touched hroot hother (· = c.next) (fun x hx => ?_) ?_ ?_
  · refine ⟨setObj_other hx _, ?_, rfl, Iff.rfl, ?_, ?_, ?_⟩
    · show x < c.next + 1 ↔ x < c.next
      omega
    · rw [hself, count_cons_of_ne (Ne.symm hx)]
    · rw [hidle]
      exact nofun
    · rw [hself]
      exact node_ne rfl hx
  · rintro x rfl
    refine .own ⟨block, 1⟩ t ⟨setObj_self _, Nat.lt_succ_self _, hb, ?_, hfrees⟩ hone hmem ?_ ?_ ?_
    · rw [hone]
      rfl
    · rw [hself]
      exact .inl rfl
    · rw [hself]
      exact mem_cons_self ..
    · exact Unused.of_other (fun u _ => hun u (Set.notMem_empty u)) hother
  · refine hok.sorted.congr fun x hx => key_congr ?_
    have hne : x ≠ c.next := fun heq => hmem (heq ▸ hx)
    rw [show (c.allocated t block).objs x = c.objs x from setObj_other hne _]

/-- `nkfs_btree_nodes_insert` with another node for the block in the cache. -/
lemma CacheOk.insert_found (hok : CacheOk c) (hphase : (c.threads t).phase = .created n) {q : NodeObj}
    (hl : Live c n o) (hm : m ∈ c.nodes.toList) (hq : c.objs m = some q) (hb : q.block = o.block)
    (hpos : 0 < q.ref) :
    c.nodesInsert rb t n = .ok (c.taken t m q (.lost n)) ∧ CacheOk (c.taken t m q (.lost n)) := by
  obtain ⟨-, -, hun, hone, hmem, hholds⟩ := (hok.node n).of_phase hphase rfl
  have hne : n ≠ m := fun heq => hmem (heq ▸ hm)
  have hroot : (c.taken t m q (.lost n)).root = c.root := rfl
  have hother : ∀ u ≠ t, (c.taken t m q (.lost n)).threads u = c.threads u := fun u hu => setThread_other hu _ _
  have hself : (c.taken t m q (.lost n)).threads t = ⟨.lost n, m :: (c.threads t).holds⟩ := setThread_self ..
  have hnode : (c.threads t).phase.node = some n := by rw [hphase]; rfl
  constructor
  · rw [Cache.nodesInsert, read_ok hl.obj]
    show (c.search o.block >>= _) = _
    rw [← hb, hok.search_mem hm hq]
    show (c.nodeRef m >>= _) = _
    rw [nodeRef_run hq hpos]
    rfl
  · refine hok.of_touched hroot hother (fun x => x = n ∨ x = m) (fun x hx => ?_) ?_ (taken_sorted hok hq _)
    · rw [not_or] at hx
      refine ⟨setObj_other hx.2 _, Iff.rfl, rfl, Iff.rfl, ?_, node_ne hnode hx.1, ?_⟩
      · rw [hself, count_cons_of_ne (Ne.symm hx.2)]
      · rw [hself]
        exact node_ne rfl hx.1
    · rintro x (rfl | rfl)
      · have hsum := holdsAt_update hroot hother x
        rw [hself, count_cons_of_ne hne.symm] at hsum
        have hsame : (c.taken t m q (.lost x)).holdsAt x = c.holdsAt x := by omega
        refine .own o t ⟨(setObj_other hne _).trans hl.obj, hl.lt, hl.block, ?_, hl.frees⟩ (hsame.trans hone) hmem
          ?_ ?_ (Unused.of_other hun hother)
        · rw [hsame]
          exact hl.ref
        · rw [hself]
          exact .inr rfl
        · rw [hself]
          exact mem_cons_of_mem _ hholds
      · obtain ⟨q', hlq⟩ := hok.live hm
        obtain rfl : q' = q := Option.some.inj (hlq.obj.symm.trans hq)
        exact (hok.node x).taken hlq hm hpos (node_ne rfl hne.symm) (node_ne hnode hne.symm)

/-- `nkfs_btree_nodes_insert` with no node for the block in the cache. -/
lemma CacheOk.insert_new (hok : CacheOk c) (hphase : (c.threads t).phase = .created n) (hl : Live c n o)
    (hno : ∀ m ∈ c.nodes.toList, c.key m ≠ o.block) : ∃ c', c.nodesInsert rb t n = .ok c' ∧ CacheOk c' := by
  obtain ⟨-, -, hun, hone, hmem, hholds⟩ := (hok.node n).of_phase hphase rfl
  have hnode : (c.threads t).phase.node = some n := by rw [hphase]; rfl
  have hkey := key_eq hl.obj
  have hcmp : Compares (c.cmp o.block) c.key (c.key n) c.nodes := hkey ▸ hok.compares o.block
  obtain ⟨tree, hlink, hperm, hsorted⟩ := RbTree.link_spec hok.sorted hcmp fun m hm heq => hno m hm (heq.trans hkey)
  have hlist : ∀ x, x ∈ (rb.insertColor n tree).toList ↔ x = n ∨ x ∈ c.nodes.toList := fun x => by
    rw [rb.toList_insertColor, hperm.mem_iff, mem_cons]
  let c₁ : Cache k := { c with nodes := rb.insertColor n tree, nodesActive := c.nodesActive + 1 }
  have ho₁ : c₁.objs n = some o := hl.obj
  have href : o.ref = 1 := by
    rw [hl.ref, hone]
    rfl
  have hroot : (c₁.taken t n o (.linked n)).root = c.root := rfl
  have hother : ∀ u ≠ t, (c₁.taken t n o (.linked n)).threads u = c.threads u := fun u hu =>
    setThread_other hu _ _
  have hself : (c₁.taken t n o (.linked n)).threads t = ⟨.linked n, n :: (c.threads t).holds⟩ :=
    setThread_self ..
  refine ⟨c₁.taken t n o (.linked n), ?_, ?_⟩
  · rw [Cache.nodesInsert, read_ok hl.obj]
    show (c.search o.block >>= _) = _
    rw [hok.search_none hno]
    show (c.nodes.link (c.cmp o.block) n >>= _) = _
    rw [hlink]
    show (c₁.nodeRef n >>= _) = _
    rw [nodeRef_run ho₁ (by omega)]
    rfl
  · refine hok.of_touched hroot hother (· = n) (fun x hx => ?_) ?_ ?_
    · refine ⟨setObj_other hx _, Iff.rfl, rfl, (hlist x).trans (or_iff_right hx), ?_, node_ne hnode hx, ?_⟩
      · rw [hself, count_cons_of_ne (Ne.symm hx)]
      · rw [hself]
        exact node_ne rfl hx
    · rintro x rfl
      have hsum := holdsAt_update hroot hother x
      rw [hself, count_cons_self] at hsum
      refine .shared { o with ref := o.ref + 1 } ⟨setObj_self _, hl.lt, hl.block, ?_, hl.frees⟩ (by omega)
        ((hlist x).mpr (.inl rfl)) fun u hu => ?_
      · show o.ref + 1 = _
        omega
      · rcases eq_or_ne u t with rfl | hne
        · rw [hself]
          exact ⟨.inl rfl, mem_cons_self ..⟩
        · exact absurd hu (Unused.of_other hun hother u hne)
    · exact (rb.sorted_insertColor hsorted).congr fun x _ =>
        setObj_key (c := c₁) (q := { o with ref := o.ref + 1 }) ho₁ rfl x

/-- `nkfs_btree_nodes_insert`, unless it finds a node without references. -/
lemma CacheOk.insert (hok : CacheOk c) (hphase : (c.threads t).phase = .created n) (hl : Live c n o)
    (hC : CountPos c o.block) : ∃ c', c.nodesInsert rb t n = .ok c' ∧ CacheOk c' := by
  by_cases hhit : ∃ m ∈ c.nodes.toList, c.key m = o.block
  · obtain ⟨m, hm, hkey⟩ := hhit
    obtain ⟨q, hlq⟩ := hok.live hm
    have hb : q.block = o.block := (key_eq hlq.obj).symm.trans hkey
    exact ⟨_, hok.insert_found hphase hl hm hlq.obj hb (hC m hm q hlq.obj hb)⟩
  · exact hok.insert_new hphase hl fun m hm hkey => hhit ⟨m, hm, hkey⟩

lemma CacheOk.insert_bug (hok : CacheOk c) (hl : Live c n o) (hC : ¬ CountPos c o.block) :
    c.nodesInsert rb t n = .error .bug := by
  obtain ⟨m, hm, q, hq, hb, hzero⟩ := not_countPos.mp hC
  rw [Cache.nodesInsert, read_ok hl.obj]
  show (c.search o.block >>= _) = _
  rw [← hb, hok.search_mem hm hq]
  show (c.nodeRef m >>= _) = _
  rw [nodeRef_bug hq hzero]
  rfl

/-- The state after `t` freed `n`. -/
def Cache.freed (c : Cache k) (t : Fin k) (n : ℕ) : Cache k :=
  ({ c.setObj n none with frees := Function.update c.frees n (c.frees n + 1) } : Cache k).setThread t .idle
    ((c.threads t).holds.erase n)

/-- A free of a node that is not in the cache and that nobody else has. -/
lemma CacheOk.freeBy (hok : CacheOk c) (hnode : (c.threads t).phase.node = some n) (hl : Live c n o)
    (hun : c.Unused n {t}) (hmem : n ∉ c.nodes.toList) (hle : c.holdsAt n ≤ 1)
    (hcount : c.holdsAt n = (c.threads t).holds.count n) :
    c.freeBy t n = .ok (c.freed t n) ∧ CacheOk (c.freed t n) := by
  have hroot : (c.freed t n).root = c.root := rfl
  have hother : ∀ u ≠ t, (c.freed t n).threads u = c.threads u := fun u hu => setThread_other hu _ _
  have hself : (c.freed t n).threads t = ⟨.idle, (c.threads t).holds.erase n⟩ := setThread_self ..
  constructor
  · rw [Cache.freeBy, Cache.nodeFree, read_ok hl.obj]
    rfl
  · refine hok.of_touched hroot hother (· = n) (fun x hx => ?_) ?_ ?_
    · refine ⟨setObj_other hx _, Iff.rfl, update_of_ne hx .., Iff.rfl, ?_, node_ne hnode hx, ?_⟩
      · rw [hself, count_erase_of_ne hx]
      · rw [hself]
        exact nofun
    · rintro x rfl
      have hsum := holdsAt_update hroot hother x
      rw [hself, count_erase_self] at hsum
      refine .absent (setObj_self _) (by omega) hmem (fun u _ => ?_) ?_
      · rcases eq_or_ne u t with rfl | hne
        · rw [hself]
          exact nofun
        · exact Unused.of_other hun hother u hne
      · rw [if_pos (show x < (c.freed t x).next from hl.lt)]
        refine (update_self ..).trans ?_
        rw [hl.frees]
    · refine hok.sorted.congr fun x hx => key_congr ?_
      have hne : x ≠ n := fun heq => hmem (heq ▸ hx)
      rw [show (c.freed t n).objs x = c.objs x from setObj_other hne _]

/-- `nkfs_btree_node_deref` of a shared node, up to the test of the count. -/
lemma CacheOk.check (hok : CacheOk c) (hl : Live c n o) (hpos : 0 < c.holdsAt n) (hmem : n ∈ c.nodes.toList)
    (hshare : c.Sharing n) (hholds : n ∈ (c.threads t).holds)
    (hphase : ∀ x ≠ n, (c.threads t).phase.node ≠ some x) :
    ∃ c', c.derefCheck t n = .ok c' ∧ CacheOk c' := by
  have href := hl.ref
  let c' := c.setThread t (.checked n) (c.threads t).holds
  have hroot : c'.root = c.root := rfl
  have hother : ∀ u ≠ t, c'.threads u = c.threads u := fun u hu => setThread_other hu _ _
  have hself : c'.threads t = ⟨.checked n, (c.threads t).holds⟩ := setThread_self ..
  refine ⟨c', ?_, ?_⟩
  · rw [Cache.derefCheck, read_ok hl.obj]
    exact if_neg (by omega)
  · refine hok.of_touched hroot hother (· = n) (fun x hx => ?_) ?_ hok.sorted
    · refine ⟨rfl, Iff.rfl, rfl, Iff.rfl, ?_, hphase x hx, ?_⟩
      · rw [hself]
      · rw [hself]
        exact node_ne rfl hx
    · rintro x rfl
      have hsum := holdsAt_update hroot hother x
      rw [hself] at hsum
      have hsame : c'.holdsAt x = c.holdsAt x := Nat.add_right_cancel hsum
      refine .shared o ⟨hl.obj, hl.lt, hl.block, ?_, hl.frees⟩ (by omega) hmem fun u hu => ?_
      · rw [hsame]
        exact href
      · rcases eq_or_ne u t with rfl | hne
        · rw [hself]
          exact ⟨.inr rfl, hholds⟩
        · rw [hother u hne] at hu ⊢
          exact hshare u hu

/-- The `atomic_dec_and_test`. The last reference takes the node to `leaving`: another thread that works on
it would have a reference too. -/
lemma CacheOk.dec (hok : CacheOk c) (hphase : (c.threads t).phase = .checked n) :
    ∃ c', c.derefDec t n = .ok c' ∧ CacheOk c' := by
  obtain ⟨o, hl, hholds, hpos, hmem, hshare⟩ := (hok.node n).of_phase hphase rfl
  have hnode : (c.threads t).phase.node = some n := by rw [hphase]; rfl
  have href := hl.ref
  let p : Phase := if o.ref - 1 = 0 then .zero n else .idle
  let c' := (c.setObj n (some { o with ref := o.ref - 1 })).setThread t p ((c.threads t).holds.erase n)
  have hroot : c'.root = c.root := rfl
  have hother : ∀ u ≠ t, c'.threads u = c.threads u := fun u hu => setThread_other hu _ _
  have hself : c'.threads t = ⟨p, (c.threads t).holds.erase n⟩ := setThread_self ..
  have hsum := holdsAt_update hroot hother n
  have hcount := count_pos_iff.mpr hholds
  rw [hself, count_erase_self] at hsum
  have hl' : Live c' n { o with ref := o.ref - 1 } := by
    refine ⟨setObj_self _, hl.lt, hl.block, ?_, hl.frees⟩
    show o.ref - 1 = _
    omega
  refine ⟨c', ?_, ?_⟩
  · rw [Cache.derefDec, read_ok hl.obj]
    rfl
  · refine hok.of_touched hroot hother (· = n) (fun x hx => ?_) ?_ ?_
    · refine ⟨setObj_other hx _, Iff.rfl, rfl, Iff.rfl, ?_, node_ne hnode hx, ?_⟩
      · rw [hself, count_erase_of_ne hx]
      · rw [hself]
        by_cases hlast : o.ref - 1 = 0
        · exact node_ne (by rw [show p = .zero n from if_pos hlast]; rfl) hx
        · rw [show p = .idle from if_neg hlast]
          exact nofun
    · rintro x rfl
      by_cases hlast : o.ref - 1 = 0
      · have hp : p = .zero x := if_pos hlast
        refine .leaving _ t hl' (by omega) hmem (by rw [hself, hp]) fun u hu hux => ?_
        rw [hother u hu] at hux
        have htwo := two_le_holdsAt hu hholds (hshare u hux).2
        omega
      · have hp : p = .idle := if_neg hlast
        refine .shared _ hl' (by omega) hmem fun u hu => ?_
        rcases eq_or_ne u t with rfl | hne
        · rw [hself, hp] at hu
          cases hu
        · rw [hother u hne] at hu ⊢
          exact hshare u hu
    · exact hok.sorted.congr fun x _ => setObj_key (q := { o with ref := o.ref - 1 }) hl.obj rfl x

/-- `nkfs_btree_nodes_remove` finds the node itself. -/
lemma CacheOk.remove (hok : CacheOk c) (hphase : (c.threads t).phase = .zero n) :
    ∃ c', c.nodesRemove rb t n = .ok c' ∧ CacheOk c' := by
  obtain ⟨o, hl, hun, hzero, hmem⟩ := (hok.node n).of_phase hphase rfl
  have hnode : (c.threads t).phase.node = some n := by rw [hphase]; rfl
  let c₁ : Cache k := { c with nodes := rb.erase n c.nodes, nodesActive := c.nodesActive - 1 }
  let c' := c₁.setThread t (.removed n) (c.threads t).holds
  have hroot : c'.root = c.root := rfl
  have hother : ∀ u ≠ t, c'.threads u = c.threads u := fun u hu => setThread_other hu _ _
  have hself : c'.threads t = ⟨.removed n, (c.threads t).holds⟩ := setThread_self ..
  have hlist : c'.nodes.toList = c.nodes.toList.erase n := rb.toList_erase ..
  refine ⟨c', ?_, ?_⟩
  · rw [Cache.nodesRemove, read_ok hl.obj]
    show (if o.block = 0 then _ else (c.search o.block >>= _)) = _
    rw [if_neg hl.block, hok.search_mem hmem hl.obj]
    exact if_neg fun hne => hne rfl
  · refine hok.of_touched hroot hother (· = n) (fun x hx => ?_) ?_ (rb.sorted_erase hok.sorted)
    · refine ⟨rfl, Iff.rfl, rfl, ?_, ?_, node_ne hnode hx, ?_⟩
      · rw [hlist, mem_erase_of_ne hx]
      · rw [hself]
      · rw [hself]
        exact node_ne rfl hx
    · rintro x rfl
      have hsum := holdsAt_update hroot hother x
      rw [hself] at hsum
      have hsame : c'.holdsAt x = c.holdsAt x := Nat.add_right_cancel hsum
      refine .left o t ⟨hl.obj, hl.lt, hl.block, ?_, hl.frees⟩ (hsame.trans hzero) ?_ ?_
        (Unused.of_other hun hother)
      · rw [hsame]
        exact hl.ref
      · rw [hlist]
        exact fun hx => ((hok.sorted.nodup).mem_erase_iff.mp hx).1 rfl
      · rw [hself]

/-! ### Runs -/

/-- No lookup and no insert is made for a block whose cached node has lost its last reference. -/
def Meets (c : Cache k) : Act k → Prop
  | .lookup _ block => CountPos c block
  | .insert t => ∀ n o, (c.threads t).phase = .created n → c.objs n = some o → CountPos c o.block
  | _ => True

/-- A step from a good state goes wrong only at a node that has lost its last reference, and then it does. -/
lemma CacheOk.step (hok : CacheOk c) {a : Act k} {r : Except RefFault (Cache k)}
    (hr : stepOf rb c a = some r) :
    (Meets c a → ∃ c', r = .ok c' ∧ CacheOk c') ∧ (¬ Meets c a → r = .error .bug) := by
  cases a with
  | lookup t block =>
    obtain ⟨hidle, ⟨⟩⟩ := Option.ite_none_right_eq_some.mp hr
    exact ⟨hok.lookup hidle, hok.lookup_bug⟩
  | alloc t block =>
    obtain ⟨⟨hidle, hb⟩, ⟨⟩⟩ := Option.ite_none_right_eq_some.mp hr
    exact ⟨fun _ => ⟨_, rfl, hok.alloc hidle hb⟩, fun h => absurd trivial h⟩
  | insert t =>
    rw [stepOf] at hr
    split at hr
    · rename_i n hphase
      obtain rfl := Option.some.inj hr
      obtain ⟨o, hl, -⟩ := (hok.node n).of_phase hphase rfl
      refine ⟨fun h => hok.insert hphase hl (h n o hphase hl.obj), fun h => hok.insert_bug hl fun hC => h ?_⟩
      intro n' o' hn' ho'
      obtain rfl : n = n' := Phase.created.inj (hphase.symm.trans hn')
      obtain rfl : o = o' := Option.some.inj (hl.obj.symm.trans ho')
      exact hC
    · cases hr
  | discard t =>
    have hfree : ∀ {n o}, (c.threads t).phase.node = some n → Live c n o → c.Place t n (.created n) →
        ∃ c', c.freeBy t n = .ok c' ∧ CacheOk c' := fun {n o} hnode hl ⟨hun, hone, hmem, hholds⟩ => by
      have hcount := count_pos_iff.mpr hholds
      have hle := count_le_holdsAt c t n
      exact ⟨_, hok.freeBy hnode hl hun hmem (by omega) (by omega)⟩
    refine ⟨fun _ => ?_, fun h => absurd trivial h⟩
    rw [stepOf] at hr
    split at hr
    · rename_i n hphase
      obtain rfl := Option.some.inj hr
      obtain ⟨o, hl, hplace⟩ := (hok.node n).of_phase hphase rfl
      exact hfree (by rw [hphase]; rfl) hl hplace
    · rename_i n hphase
      obtain rfl := Option.some.inj hr
      obtain ⟨o, hl, hplace⟩ := (hok.node n).of_phase hphase rfl
      exact hfree (by rw [hphase]; rfl) hl hplace
    · cases hr
  | check t n =>
    obtain ⟨⟨hphase, hholds⟩, ⟨⟩⟩ := Option.ite_none_right_eq_some.mp hr
    refine ⟨fun _ => ?_, fun h => absurd trivial h⟩
    rcases hphase with hidle | hlinked
    · obtain ⟨o, hl, hpos, hmem, hshare⟩ := (hok.node n).of_holds hidle hholds
      exact hok.check hl hpos hmem hshare hholds fun x _ => by rw [hidle]; exact nofun
    · obtain ⟨o, hl, -, hpos, hmem, hshare⟩ := (hok.node n).of_phase hlinked rfl
      exact hok.check hl hpos hmem hshare hholds fun x hx => by rw [hlinked]; exact node_ne rfl hx
  | dec t =>
    refine ⟨fun _ => ?_, fun h => absurd trivial h⟩
    rw [stepOf] at hr
    split at hr
    · rename_i n hphase
      obtain rfl := Option.some.inj hr
      exact hok.dec hphase
    · cases hr
  | remove t =>
    refine ⟨fun _ => ?_, fun h => absurd trivial h⟩
    rw [stepOf] at hr
    split at hr
    · rename_i n hphase
      obtain rfl := Option.some.inj hr
      exact hok.remove hphase
    · cases hr
  | free t =>
    refine ⟨fun _ => ?_, fun h => absurd trivial h⟩
    rw [stepOf] at hr
    split at hr
    · rename_i n hphase
      obtain rfl := Option.some.inj hr
      obtain ⟨o, hl, hun, hzero, hmem⟩ := (hok.node n).of_phase hphase rfl
      have hnode : (c.threads t).phase.node = some n := by rw [hphase]; rfl
      have hle := count_le_holdsAt c t n
      exact ⟨_, hok.freeBy hnode hl hun hmem (by omega) (by omega)⟩
    · cases hr

lemma CacheOk.init {rootBlock : ℕ} (hroot : rootBlock ≠ 0) : CacheOk (Cache.init k rootBlock) where
  sorted := pairwise_singleton ..
  node n := by
    have hidle : ∀ (x : ℕ) (t : Fin k), ((Cache.init k rootBlock).threads t).phase.node ≠ some x := fun x t => nofun
    have hholds : (Cache.init k rootBlock).holdsAt n = if n = 0 then 1 else 0 := by
      refine Nat.add_eq_left.mpr (Finset.sum_eq_zero fun t _ => ?_)
      rfl
    rcases eq_or_ne n 0 with rfl | hn
    · rw [if_pos rfl] at hholds
      refine .shared ⟨rootBlock, 1⟩ ⟨rfl, Nat.one_pos, hroot, ?_, rfl⟩ (by omega) (mem_singleton.mpr rfl)
        fun t ht => absurd ht (hidle 0 t)
      rw [hholds]
      rfl
    · rw [if_neg hn] at hholds
      refine .absent (if_neg hn) hholds (fun hmem => hn (mem_singleton.mp hmem)) (fun t _ => hidle n t) ?_
      exact (if_neg (fun hlt : n < 1 => hn (Nat.lt_one_iff.mp hlt))).symm

/-- At most one node per block is in the cache. -/
def OnePerBlock (c : Cache k) : Prop := ∀ m ∈ c.nodes.toList, ∀ n ∈ c.nodes.toList, ∀ o q, c.objs m = some o →
  c.objs n = some q → o.block = q.block → m = n

/-- A node that was allocated is freed once if nobody has a reference on it or works on it, and not freed
otherwise. -/
def FreedOnce (c : Cache k) : Prop :=
  ∀ n < c.next, c.frees n ≤ 1 ∧ (c.frees n = 1 ↔ c.holdsAt n = 0 ∧ c.Unused n ∅)

/-- The step runs through: no `NKFS_BUG_ON` fires and no freed node is used. -/
def StepSafe (rb : Balancer ℕ) (c : Cache k) (a : Act k) : Prop :=
  ∀ r, stepOf rb c a = some r → ∃ c', r = .ok c'

lemma CacheOk.onePerBlock (hok : CacheOk c) : OnePerBlock c := by
  intro m hm n hn o q ho hq hb
  have hsearch := hok.search_mem hm ho
  rw [hb, hok.search_mem hn hq] at hsearch
  exact (Option.some.inj (Except.ok.inj hsearch)).symm

lemma CacheOk.freedOnce (hok : CacheOk c) : FreedOnce c := by
  intro n hn
  cases hok.node n with
  | absent hobj hzero hmem hun hfrees =>
    rw [if_pos hn] at hfrees
    exact ⟨hfrees.le, iff_of_true hfrees ⟨hzero, hun⟩⟩
  | shared o hl hpos =>
    rw [hl.frees]
    exact ⟨Nat.zero_le 1, iff_of_false Nat.zero_ne_one fun h => hpos.ne' h.1⟩
  | own o t hl hone =>
    rw [hl.frees]
    exact ⟨Nat.zero_le 1, iff_of_false Nat.zero_ne_one fun h => by omega⟩
  | leaving o t hl hzero hmem hphase =>
    rw [hl.frees]
    refine ⟨Nat.zero_le 1, iff_of_false Nat.zero_ne_one fun h => h.2 t (Set.notMem_empty t) ?_⟩
    rw [hphase]
    rfl
  | left o t hl hzero hmem hphase =>
    rw [hl.frees]
    refine ⟨Nat.zero_le 1, iff_of_false Nat.zero_ne_one fun h => h.2 t (Set.notMem_empty t) ?_⟩
    rw [hphase]
    rfl

lemma CacheOk.reached {rootBlock : ℕ} (hroot : rootBlock ≠ 0)
    (hreach : Reaches (Next rb) Meets (Cache.init k rootBlock) c) : CacheOk c := by
  refine hreach.invariant (fun a c c' hok hC hnext => ?_) (CacheOk.init hroot)
  obtain ⟨c'', heq, hok'⟩ := (hok.step hnext).1 hC
  rwa [Except.ok.inj heq]

/-- **Readers and the cache.** In every state that steps meeting the condition reach, there is one node per
block in the cache, every node is freed once, and a step runs through exactly if it does not look for a block
whose cached node has lost its last reference. -/
theorem cache_safe_iff (k : ℕ) (rb : Balancer ℕ) (rootBlock : ℕ) (hroot : rootBlock ≠ 0) (c : Cache k)
    (hreach : Reaches (Next rb) Meets (Cache.init k rootBlock) c) :
    OnePerBlock c ∧ FreedOnce c ∧ ∀ a, (stepOf rb c a).isSome → (StepSafe rb c a ↔ Meets c a) := by
  have hok := CacheOk.reached hroot hreach
  refine ⟨hok.onePerBlock, hok.freedOnce, fun a ha => ?_⟩
  obtain ⟨r, hr⟩ := Option.isSome_iff_exists.mp ha
  constructor
  · intro hsafe
    by_contra hC
    obtain ⟨c', hc'⟩ := hsafe r hr
    cases hc'.symm.trans ((hok.step hr).2 hC)
  · intro hC r' hr'
    obtain ⟨c', hc', -⟩ := (hok.step hr').1 hC
    exact ⟨c', hc'⟩

end

/-- Two readers of a tree with root block 1, after the first has inserted block 5. -/
theorem cache_safe_iff_inserted : ∃ c : Cache 2, Reaches (Next .plain) Meets (Cache.init 2 1) c ∧
    (c.threads 0).phase = .linked 1 ∧ OnePerBlock c ∧ FreedOnce c ∧
      ∀ a, (stepOf .plain c a).isSome → (StepSafe .plain c a ↔ Meets c a) := by
  have h₁ : Reaches (Next .plain) Meets (Cache.init 2 1) ((Cache.init 2 1).allocated 0 5) :=
    Reaches.refl.step (a := Act.alloc 0 5) trivial rfl
  have hmeets : Meets ((Cache.init 2 1).allocated 0 5) (.insert 0) := by
    intro n o _ _ m hm q hq _
    obtain rfl := List.mem_singleton.mp hm
    obtain rfl : ⟨1, 1⟩ = q := Option.some.inj hq
    decide
  have h₂ := h₁.step hmeets rfl
  exact ⟨_, h₂, rfl, cache_safe_iff 2 .plain 1 (by decide) _ h₂⟩

/-- The first reader drops its last reference on block 5; before it removes the node, the second looks the
block up. -/
theorem not_cache_safe : ¬ ∀ (k : ℕ) (rb : Balancer ℕ) (rootBlock : ℕ), rootBlock ≠ 0 → ∀ c : Cache k,
    Reaches (Next rb) (fun _ _ => True) (Cache.init k rootBlock) c →
      OnePerBlock c ∧ FreedOnce c ∧ ∀ a, StepSafe rb c a := by
  intro h
  have h₁ : Reaches (Next .plain) (fun _ _ => True) (Cache.init 2 1) ((Cache.init 2 1).allocated 0 5) :=
    Reaches.refl.step (a := Act.alloc 0 5) trivial rfl
  have h₂ := h₁.step (a := Act.insert 0) trivial rfl
  have h₃ := (h₂.step (a := Act.check 0 1) trivial rfl).step (a := Act.dec 0) trivial rfl
  have h₄ := (h₃.step (a := Act.check 0 1) trivial rfl).step (a := Act.dec 0) trivial rfl
  obtain ⟨c', hc'⟩ := (h 2 .plain 1 (by decide) _ h₄).2.2 (.lookup 1 5) (.error .bug) rfl
  cases hc'

end Nkfs.NodeCache
