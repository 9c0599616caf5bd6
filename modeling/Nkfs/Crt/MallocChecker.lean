import Nkfs.Errno
import Nkfs.Lib.Bytes

/-!
# Delayed free (`crt/kernel/malloc_checker.c`)

A freed allocation is filled, summed and kept for a second on a hash bucket; a thread looks at the buckets, checks that
nobody wrote to the memory in the meantime and gives back what has been kept long enough. The module is built with
`__MALLOC_CHECKER_FILL_CC__` and `__MALLOC_CHECKER_DELAY_FREE__`.

The thread takes an entry off its bucket while `time_to_live` is *not yet* over, and it empties the list of what it has
taken at every bucket. A pass does what it should exactly when each delayed entry is on the last bucket and the pass
comes to it at the very time it was kept for (`passed_iff`). While all passes are such, no allocation is lost
(`Accounted.run`).
-/

namespace Nkfs.Malloc

open Lib.Bytes Function List

/-! ### The code -/

/-- `MALLOC_CHECKER_NR_LISTS` -/
def nrLists : ℕ := 9973

/-- The first bytes of an allocation's block, before the caller's memory. -/
def sign1 : ℕ := 0xBEDABEDA

/-- The last bytes of an allocation's block, behind the caller's memory. -/
def sign2 : ℕ := 0xCBDACBDA

/-- What the checker keeps of an allocation. `id` numbers the allocations by the value of `nr_allocs`.
Source: `crt/kernel/malloc_checker.c` `struct malloc_entry` -/
structure Entry where
  id : ℕ
  ptr : ℕ
  size : ℕ
  crc32 : UInt32
  timeToLive : ℤ
  deriving DecidableEq

/-- The lists of the checker, the memory that the allocations lie in, and the entries given back so far, each with
the time at which the thread took it off its bucket.
Source: `crt/kernel/malloc_checker.c` `struct malloc_checker` -/
structure Checker where
  mem : Mem
  entriesList : ℕ → List Entry
  delayEntriesList : ℕ → List Entry
  nrAllocs : ℕ
  nrFrees : ℕ
  released : List (Entry × ℤ)

/-- The loop of `hash_pointer`. -/
def hashLoop : ℕ → UInt64 → UInt64 → UInt64
  | 0, _, hash => hash
  | left + 1, val, hash => hashLoop left (val >>> 8) ((hash <<< 5) + hash + (val &&& 0xFF))

/-- Source: `crt/kernel/helpers.h` `hash_pointer` -/
def hashPointer (ptr : UInt64) : UInt64 := hashLoop 8 (ptr >>> 3) 5381

/-- The bucket of an allocation, on either table. -/
def bucket (ptr : ℕ) : ℕ := (hashPointer (.ofNat ptr)).toNat % nrLists

/-- Both signatures of the block stand. -/
def Signed (mem : Mem) (e : Entry) : Prop :=
  loadLe mem (e.ptr - 8) 8 = sign1 ∧ loadLe mem (e.ptr + e.size) 8 = sign2

instance (mem : Mem) (e : Entry) : Decidable (Signed mem e) := inferInstanceAs (Decidable (_ ∧ _))

/-- `memset(entry->ptr, 0xCC, entry->size)` -/
def fillCC (mem : Mem) (e : Entry) : Mem := copyIn mem e.ptr (fun _ => 0xCC) e.size

/-- Sign of the difference. -/
def ktimeCompare (t₁ t₂ : ℤ) : ℤ := if t₁ < t₂ then -1 else if t₁ > t₂ then 1 else 0

section code

-- `crc32_le(~0, ·, ·)` of the kernel
variable (crc : List UInt8 → UInt32)

/-- The checks of `delay_check`: signatures, and nobody has written to the memory. -/
def Intact (mem : Mem) (e : Entry) : Prop := Signed mem e ∧ e.crc32 = crc (slice mem e.ptr e.size)

instance (mem : Mem) (e : Entry) : Decidable (Intact crc mem e) := inferInstanceAs (Decidable (_ ∧ _))

/-- Source: `crt/kernel/malloc_checker.c` `delay_check` -/
def delayCheck (mem : Mem) (e : Entry) : Except RefFault Unit :=
  if Intact crc mem e then .ok () else .error .bug

/-- The loop of the thread over one bucket: what stays on it, and the list of what is taken off. `now e` is what
`ktime_get()` gives at the entry. -/
def collectLoop (mem : Mem) (now : Entry → ℤ) : List Entry → List Entry → Except RefFault (List Entry × List Entry)
  | [], freeList => .ok ([], freeList)
  | e :: es, freeList =>
    match delayCheck crc mem e with
    | .error f => .error f
    | .ok () =>
      if ktimeCompare e.timeToLive (now e) ≥ 0 then collectLoop mem now es (e :: freeList)
      else (collectLoop mem now es freeList).map fun r => (e :: r.1, r.2)

/-- The loop of the thread over the buckets from `i` on, with `left` to go. `free_list` is initialised in each round. -/
def delayLoop (mem : Mem) (now : Entry → ℤ) : ℕ → ℕ → (ℕ → List Entry) → List Entry →
    Except RefFault ((ℕ → List Entry) × List Entry)
  | _, 0, lists, freeList => .ok (lists, freeList)
  | i, left + 1, lists, _ =>
    match collectLoop crc mem now (lists i) [] with
    | .error f => .error f
    | .ok r => delayLoop mem now (i + 1) left (Function.update lists i r.1) r.2

/-- Source: `crt/kernel/malloc_checker.c` `release_entry` -/
def releaseEntry (now : Entry → ℤ) (c : Checker) (e : Entry) : Except RefFault Checker :=
  if Signed c.mem e then .ok { c with mem := fillCC c.mem e, released := c.released ++ [(e, now e)] }
  else .error .bug

/-- The loop of the thread over `free_list`. -/
def releaseLoop (now : Entry → ℤ) : List Entry → Checker → Except RefFault Checker
  | [], c => .ok c
  | e :: es, c =>
    match releaseEntry now c e with
    | .error f => .error f
    | .ok c' => releaseLoop now es c'

/-- One round of the thread. Source: `crt/kernel/malloc_checker.c` `malloc_checker_delay_thread` -/
def delayPass (now : Entry → ℤ) (c : Checker) : Except RefFault Checker :=
  match delayLoop crc c.mem now 0 nrLists c.delayEntriesList [] with
  | .error f => .error f
  | .ok r => releaseLoop now r.2 { c with delayEntriesList := r.1 }

/-- Both blocks are allocated if `base` is an address, that of the block.
Source: `crt/kernel/malloc_checker.c` `malloc_checker_kmalloc` -/
def kmalloc (size : ℕ) (base : Option ℕ) (c : Checker) : Checker :=
  match base with
  | none => c
  | some base =>
    let ptr := base + 8
    let i := bucket ptr
    { c with
      mem := storeLe (storeLe c.mem base 8 sign1) (ptr + size) 8 sign2
      entriesList := Function.update c.entriesList i (⟨c.nrAllocs, ptr, size, 0, 0⟩ :: c.entriesList i)
      nrAllocs := c.nrAllocs + 1 }

/-- Source: `crt/kernel/malloc_checker.c` `check_and_release_entry` -/
def checkAndReleaseEntry (now : Entry → ℤ) (c : Checker) (e : Entry) : Except RefFault Checker :=
  if Signed c.mem e then
    let mem := fillCC c.mem e
    let i := bucket e.ptr
    let e := { e with crc32 := crc (slice mem e.ptr e.size), timeToLive := now e + 1000000000 }
    .ok { c with mem := mem, delayEntriesList := Function.update c.delayEntriesList i (e :: c.delayEntriesList i) }
  else .error .bug

/-- The first loop of `malloc_checker_kfree`: what stays on the bucket, and the entries of the pointer. -/
def takeLoop (ptr : ℕ) : List Entry → List Entry → List Entry × List Entry
  | [], taken => ([], taken)
  | e :: es, taken =>
    if e.ptr = ptr then takeLoop ptr es (e :: taken)
    else ((e :: (takeLoop ptr es taken).1), (takeLoop ptr es taken).2)

/-- The second loop of `malloc_checker_kfree`. -/
def kfreeLoop (now : Entry → ℤ) : List Entry → Checker → Except RefFault Checker
  | [], c => .ok c
  | e :: es, c =>
    match checkAndReleaseEntry crc now c e with
    | .error f => .error f
    | .ok c' => kfreeLoop now es { c' with nrFrees := c'.nrFrees + 1 }

/-- Source: `crt/kernel/malloc_checker.c` `malloc_checker_kfree` -/
def kfree (ptr : ℕ) (now : Entry → ℤ) (c : Checker) : Except RefFault Checker :=
  let i := bucket ptr
  let r := takeLoop ptr (c.entriesList i) []
  kfreeLoop crc now r.2 { c with entriesList := Function.update c.entriesList i r.1 }

/-- Source: `crt/kernel/malloc_checker.c` `malloc_checker_init` -/
def Checker.init (mem : Mem) : Checker := ⟨mem, fun _ => [], fun _ => [], 0, 0, []⟩

/-- What happens to the checker; `write` is what the rest of the kernel does to memory. -/
inductive Op where
  | kmalloc (size : ℕ) (base : Option ℕ)
  | kfree (ptr : ℕ) (now : Entry → ℤ)
  | pass (now : Entry → ℤ)
  | write (mem : Mem)

def Op.run (c : Checker) : Op → Except RefFault Checker
  | .kmalloc size base => .ok (Malloc.kmalloc size base c)
  | .kfree ptr now => Malloc.kfree crc ptr now c
  | .pass now => delayPass crc now c
  | .write mem => .ok { c with mem := mem }

def runAll : List Op → Checker → Except RefFault Checker
  | [], c => .ok c
  | op :: ops, c =>
    match op.run crc c with
    | .error f => .error f
    | .ok c' => runAll ops c'

end code

/-! ### What it should do -/

/-- All allocations that have not been freed. -/
def Checker.held (c : Checker) : List Entry := (List.range nrLists).flatMap c.entriesList

/-- All entries on the delay buckets. -/
def Checker.delayed (c : Checker) : List Entry := (List.range nrLists).flatMap c.delayEntriesList

/-- A pass from `c` to `c'` has given back, once each, the entries that were kept long enough when it came to them, and
has left the others where they were. -/
def Passed (now : Entry → ℤ) (c c' : Checker) : Prop :=
  (∀ i < nrLists, c'.delayEntriesList i = (c.delayEntriesList i).filter fun e => now e < e.timeToLive) ∧
    c'.released.Perm (c.released ++ (c.delayed.filter fun e => e.timeToLive ≤ now e).map fun e => (e, now e))

/-- Every delayed entry is on the last bucket, and the pass comes to it just in time. -/
def Checker.Due (now : Entry → ℤ) (c : Checker) : Prop :=
  ∀ i < nrLists, ∀ e ∈ c.delayEntriesList i, i + 1 = nrLists ∧ e.timeToLive = now e

/-- The entries' blocks, signatures included, do not overlap. -/
def Entry.Apart (e e' : Entry) : Prop := e.ptr + e.size + 8 ≤ e'.ptr - 8 ∨ e'.ptr + e'.size + 8 ≤ e.ptr - 8

/-- Nobody has written to delayed memory, and the allocator has not handed it out twice. -/
structure Checker.Untouched (crc : List UInt8 → UInt32) (c : Checker) : Prop where
  intact : ∀ e ∈ c.delayed, Intact crc c.mem e
  apart : c.delayed.Pairwise Entry.Apart

/-- The number of an allocation among entries. -/
def countId (id : ℕ) (es : List Entry) : ℕ := es.countP fun e => e.id = id

/-- Every allocation so far is in one place: not freed, on one delay bucket or given back, and what was given back had
been kept long enough. -/
structure Accounted (c : Checker) : Prop where
  once : ∀ id < c.nrAllocs, countId id c.held + countId id c.delayed + countId id (c.released.map Prod.fst) = 1
  known : ∀ id, c.nrAllocs ≤ id → countId id c.held + countId id c.delayed + countId id (c.released.map Prod.fst) = 0
  timely : ∀ r ∈ c.released, r.1.timeToLive ≤ r.2

/-- All passes of the run come just in time. -/
def PassesDue (crc : List UInt8 → UInt32) : List Op → Checker → Prop
  | [], _ => True
  | op :: ops, c => (∀ now, op = .pass now → c.Due now) ∧ ∀ c', op.run crc c = .ok c' → PassesDue crc ops c'

section

variable {crc : List UInt8 → UInt32} {mem : Mem} {now : Entry → ℤ} {c c' : Checker} {e e' : Entry}
  {es freeList : List Entry} {lists lists' : ℕ → List Entry} {ptr : ℕ}

/-! ### One bucket -/

lemma ktimeCompare_nonneg {t₁ t₂ : ℤ} : ktimeCompare t₁ t₂ ≥ 0 ↔ t₂ ≤ t₁ := by
  unfold ktimeCompare
  split_ifs <;> omega

/-- What the thread leaves on a bucket. -/
abbrev kept (now : Entry → ℤ) (es : List Entry) : List Entry := es.filter fun e => e.timeToLive < now e

/-- What the thread takes off a bucket. -/
abbrev taken (now : Entry → ℤ) (es : List Entry) : List Entry := es.filter fun e => now e ≤ e.timeToLive

/-- **The loop over a bucket** stops where an entry fails its check, and otherwise splits the bucket. -/
theorem collectLoop_eq (crc : List UInt8 → UInt32) (mem : Mem) (now : Entry → ℤ) (es freeList : List Entry) :
    collectLoop crc mem now es freeList =
      if ∀ e ∈ es, Intact crc mem e then .ok (kept now es, (taken now es).reverse ++ freeList) else .error .bug := by
  induction es generalizing freeList with
  | nil =>
    unfold collectLoop
    rw [if_pos (by simp)]
    rfl
  | cons e es ih =>
    unfold collectLoop delayCheck
    by_cases hcheck : Intact crc mem e
    · rw [if_pos hcheck]
      dsimp only
      rw [ih, ih]
      by_cases hrest : ∀ e ∈ es, Intact crc mem e
      · have hall : ∀ e' ∈ e :: es, Intact crc mem e' := by
          intro e' he'
          rcases List.mem_cons.mp he' with rfl | he'
          · exact hcheck
          · exact hrest e' he'
        rw [if_pos hrest, if_pos hrest, if_pos hall]
        by_cases htime : now e ≤ e.timeToLive
        · rw [if_pos (ktimeCompare_nonneg.mpr htime)]
          simp [kept, taken, htime, not_lt.mpr htime]
        · rw [if_neg (mt ktimeCompare_nonneg.mp htime)]
          simp [kept, taken, htime, not_le.mp htime, Except.map]
      · have hall : ¬ ∀ e' ∈ e :: es, Intact crc mem e' :=
          fun hall => hrest fun e' he' => hall e' (List.mem_cons_of_mem _ he')
        rw [if_neg hrest, if_neg hrest, if_neg hall]
        split_ifs <;> rfl
    · have hall : ¬ ∀ e' ∈ e :: es, Intact crc mem e' := fun hall => hcheck (hall e (List.mem_cons_self ..))
      rw [if_neg hcheck, if_neg hall]

/-! ### All buckets -/

/-- The buckets after the loop has been at those from `i` to `i + left`. -/
def sweptLists (now : Entry → ℤ) (i left : ℕ) (lists : ℕ → List Entry) (j : ℕ) : List Entry :=
  if i ≤ j ∧ j < i + left then kept now (lists j) else lists j

/-- `free_list` after the loop: what was taken off the last of the buckets. -/
def sweptFree (now : Entry → ℤ) (i left : ℕ) (lists : ℕ → List Entry) (freeList : List Entry) : List Entry :=
  if left = 0 then freeList else (taken now (lists (i + left - 1))).reverse

/-- One more bucket in front. -/
lemma sweptLists_succ (now : Entry → ℤ) (i left : ℕ) (lists : ℕ → List Entry) :
    sweptLists now (i + 1) left (update lists i (kept now (lists i))) = sweptLists now i (left + 1) lists := by
  funext j
  unfold sweptLists
  by_cases hj : j = i
  · subst hj
    rw [if_neg (by omega), if_pos (by omega), update_self]
  · rw [update_of_ne hj]
    exact if_congr (by omega) rfl rfl

lemma sweptFree_succ (now : Entry → ℤ) (i left : ℕ) (lists : ℕ → List Entry) (freeList : List Entry) :
    sweptFree now (i + 1) left (update lists i (kept now (lists i))) (taken now (lists i)).reverse =
      sweptFree now i (left + 1) lists freeList := by
  unfold sweptFree
  rw [if_neg (Nat.succ_ne_zero left)]
  by_cases hleft : left = 0
  · subst hleft
    rw [if_pos rfl]
    rfl
  · rw [if_neg hleft, update_of_ne (by omega)]
    congr 4
    omega

/-- **The loop over the buckets** returns exactly if all entries pass their check. -/
theorem delayLoop_ok_iff {r : (ℕ → List Entry) × List Entry} (i left : ℕ) (lists : ℕ → List Entry)
    (freeList : List Entry) : delayLoop crc mem now i left lists freeList = .ok r ↔
      (∀ j, i ≤ j → j < i + left → ∀ e ∈ lists j, Intact crc mem e) ∧
        r = (sweptLists now i left lists, sweptFree now i left lists freeList) := by
  induction left generalizing i lists freeList with
  | zero =>
    have hlists : sweptLists now i 0 lists = lists := by
      funext j
      exact if_neg (by omega)
    unfold delayLoop
    rw [hlists, Except.ok.injEq, eq_comm]
    exact ⟨fun hr => ⟨fun j hj hlt => by omega, hr⟩, fun hr => hr.2⟩
  | succ left ih =>
    unfold delayLoop
    rw [collectLoop_eq]
    by_cases hcheck : ∀ e ∈ lists i, Intact crc mem e
    · rw [if_pos hcheck]
      dsimp only
      rw [List.append_nil, ih, sweptLists_succ, sweptFree_succ now i left lists freeList]
      refine and_congr_left fun _ => ⟨fun hrest j hj hlt => ?_, fun hall j hj hlt => ?_⟩
      · rcases hj.eq_or_lt with rfl | hj
        · exact hcheck
        · have hrest := hrest j hj (by omega)
          rwa [Function.update_of_ne (by omega)] at hrest
      · rw [Function.update_of_ne (by omega)]
        exact hall j (by omega) (by omega)
    · rw [if_neg hcheck]
      exact ⟨nofun, fun hall => absurd (hall.1 i le_rfl (by omega)) hcheck⟩

/-! ### What is given back -/

/-- Filling one block leaves the signatures of another. -/
lemma Signed.fillCC (hs : Signed mem e) (hapart : e'.Apart e) : Signed (fillCC mem e') e := by
  have hload : ∀ off, (off + 8 ≤ e'.ptr ∨ e'.ptr + e'.size ≤ off) →
      loadLe (Malloc.fillCC mem e') off 8 = loadLe mem off 8 := by
    intro off hoff
    refine loadLe_congr fun i hi => copyIn_apart ?_
    omega
  unfold Entry.Apart at hapart
  unfold Signed at hs ⊢
  rw [hload _ (by omega), hload _ (by omega)]
  exact hs

/-- What the release loop leaves when it returns. -/
lemma releaseLoop_result (h : releaseLoop now es c = .ok c') : c'.released = c.released ++ es.map (fun e => (e, now e)) ∧
    c'.delayEntriesList = c.delayEntriesList ∧ c'.entriesList = c.entriesList ∧ c'.nrAllocs = c.nrAllocs := by
  induction es generalizing c with
  | nil =>
    obtain rfl := Except.ok.inj h
    simp
  | cons e es ih =>
    unfold releaseLoop releaseEntry at h
    split_ifs at h with hs
    obtain ⟨hrel, hdelay, hentries, hallocs⟩ := ih h
    refine ⟨?_, hdelay, hentries, hallocs⟩
    rw [hrel, append_assoc, map_cons, singleton_append]

/-- It returns if the blocks are signed and apart. -/
lemma releaseLoop_returns (hs : ∀ e ∈ es, Signed c.mem e) (hapart : es.Pairwise Entry.Apart) :
    ∃ c', releaseLoop now es c = .ok c' := by
  induction es generalizing c with
  | nil => exact ⟨c, rfl⟩
  | cons e es ih =>
    obtain ⟨hfirst, hrest⟩ := pairwise_cons.mp hapart
    unfold releaseLoop releaseEntry
    rw [if_pos (hs e (mem_cons_self ..))]
    refine ih (fun e' he' => ?_) hrest
    exact (hs e' (mem_cons_of_mem _ he')).fillCC (hfirst e' he')

/-! ### A pass -/

/-- What a pass leaves when it returns. -/
lemma delayPass_result (h : delayPass crc now c = .ok c') :
    (∀ i < nrLists, c'.delayEntriesList i = kept now (c.delayEntriesList i)) ∧
    c'.released = c.released ++ (taken now (c.delayEntriesList (nrLists - 1))).reverse.map (fun e => (e, now e)) ∧
    c'.entriesList = c.entriesList ∧ c'.nrAllocs = c.nrAllocs := by
  unfold delayPass at h
  split at h
  · cases h
  · next r hloop =>
      obtain ⟨-, rfl⟩ := (delayLoop_ok_iff 0 nrLists c.delayEntriesList []).mp hloop
      obtain ⟨hrel, hdelay, hentries, hallocs⟩ := releaseLoop_result h
      refine ⟨fun i hi => ?_, ?_, hentries, hallocs⟩
      · rw [hdelay]
        exact if_pos ⟨Nat.zero_le i, by rwa [Nat.zero_add]⟩
      · rw [hrel, sweptFree, if_neg (by decide), zero_add]

lemma Checker.mem_delayed : e ∈ c.delayed ↔ ∃ i < nrLists, e ∈ c.delayEntriesList i := by
  simp [Checker.delayed]

lemma Entry.Apart.symm (h : e.Apart e') : e'.Apart e := Or.symm h

/-- A pass over memory that nobody has touched returns. -/
lemma delayPass_returns (now : Entry → ℤ) (hu : c.Untouched crc) : ∃ c', delayPass crc now c = .ok c' := by
  have hlast : nrLists - 1 < nrLists := by decide
  have hloop : delayLoop crc c.mem now 0 nrLists c.delayEntriesList [] = .ok _ :=
    (delayLoop_ok_iff 0 nrLists c.delayEntriesList []).mpr
      ⟨fun j _ hj e he => hu.intact e (Checker.mem_delayed.mpr ⟨j, by omega, he⟩), rfl⟩
  unfold delayPass
  rw [hloop]
  refine releaseLoop_returns ?_ ?_
  · intro e he
    rw [sweptFree, if_neg (by decide), mem_reverse, zero_add] at he
    exact (hu.intact e (Checker.mem_delayed.mpr ⟨_, hlast, mem_of_mem_filter he⟩)).1
  · have hbucket := (pairwise_flatMap.mp hu.apart).1 (nrLists - 1) (mem_range.mpr hlast)
    rw [sweptFree, if_neg (by decide), pairwise_reverse, zero_add]
    exact (hbucket.filter _).imp Entry.Apart.symm

/-- The last bucket stands at the end of the list of delayed entries. -/
lemma Checker.delayed_eq : c.delayed =
    (range (nrLists - 1)).flatMap c.delayEntriesList ++ c.delayEntriesList (nrLists - 1) := by
  have hsucc : nrLists = nrLists - 1 + 1 := by decide
  rw [Checker.delayed, hsucc, range_succ, flatMap_append, flatMap_singleton]
  rfl

/-- A pass that did what it should found every entry just in time. -/
lemma Passed.timeToLive_eq (h : delayPass crc now c = .ok c') (hp : Passed now c c') {i : ℕ} (hi : i < nrLists)
    (he : e ∈ c.delayEntriesList i) : e.timeToLive = now e := by
  have hsame := (hp.1 i hi).symm.trans ((delayPass_result h).1 i hi)
  have hiff : now e < e.timeToLive ↔ e.timeToLive < now e := by
    have hmem := congrArg (e ∈ ·) hsame
    simpa [mem_filter, he] using hmem
  omega

/-- **Passes.** A pass gives back what it should and leaves the rest if and only if every delayed entry is on the last
bucket and the pass comes to it at the time it was kept for. -/
theorem passed_iff (h : delayPass crc now c = .ok c') : Passed now c c' ↔ c.Due now := by
  obtain ⟨hlists, hrel, -, -⟩ := delayPass_result h
  constructor
  · intro hp i hi e he
    have htime : ∀ e' ∈ c.delayed, e'.timeToLive = now e' := by
      intro e' he'
      obtain ⟨j, hj, he'⟩ := Checker.mem_delayed.mp he'
      exact hp.timeToLive_eq h hj he'
    refine ⟨?_, htime e (Checker.mem_delayed.mpr ⟨i, hi, he⟩)⟩
    -- all delayed entries were to be given back, those of the last bucket were
    have hall : (c.delayed.filter fun e => e.timeToLive ≤ now e) = c.delayed :=
      List.filter_eq_self.mpr fun e' he' => decide_eq_true (htime e' he').le
    have hlen := hp.2.length_eq
    have hle : (taken now (c.delayEntriesList (nrLists - 1))).length ≤ (c.delayEntriesList (nrLists - 1)).length :=
      List.length_filter_le ..
    rw [hrel, hall, Checker.delayed_eq] at hlen
    simp only [List.length_append, List.length_map, List.length_reverse] at hlen
    have hnil : (List.range (nrLists - 1)).flatMap c.delayEntriesList = [] := List.length_eq_zero_iff.mp (by omega)
    by_contra hne
    have hmem : e ∈ (List.range (nrLists - 1)).flatMap c.delayEntriesList :=
      List.mem_flatMap.mpr ⟨i, List.mem_range.mpr (by omega), he⟩
    rw [hnil] at hmem
    exact List.not_mem_nil hmem
  · intro hdue
    refine ⟨fun i hi => ?_, ?_⟩
    · rw [hlists i hi]
      refine List.filter_congr fun e he => ?_
      rw [(hdue i hi e he).2]
    · have hnil : (List.range (nrLists - 1)).flatMap c.delayEntriesList = [] := by
        refine List.flatMap_eq_nil_iff.mpr fun i hi => List.eq_nil_iff_forall_not_mem.mpr fun e he => ?_
        have hlt := List.mem_range.mp hi
        have heq := (hdue i (by omega) e he).1
        omega
      have hboth : (c.delayed.filter fun e => e.timeToLive ≤ now e) = taken now (c.delayEntriesList (nrLists - 1)) := by
        rw [Checker.delayed_eq, hnil, List.nil_append]
        refine List.filter_congr fun e he => ?_
        rw [(hdue _ (by decide) e he).2]
      rw [hrel, hboth, List.map_reverse]
      exact (List.reverse_perm _).append_left _

/-! ### Where the allocations are -/

lemma countId_append (id : ℕ) (es es' : List Entry) : countId id (es ++ es') = countId id es + countId id es' :=
  countP_append

lemma countId_cons (id : ℕ) (e : Entry) (es : List Entry) :
    countId id (e :: es) = countId id es + if e.id = id then 1 else 0 := by
  unfold countId
  rw [countP_cons]
  simp only [decide_eq_true_eq]

lemma countId_perm (id : ℕ) {es es' : List Entry} (h : es.Perm es') : countId id es = countId id es' := h.countP_eq _

lemma bucket_lt (ptr : ℕ) : bucket ptr < nrLists := Nat.mod_lt _ (by decide)

/-- A change of one bucket. -/
lemma countId_flatMap_update (id : ℕ) (lists : ℕ → List Entry) (es : List Entry) {i n : ℕ} (hi : i < n) :
    countId id ((range n).flatMap (update lists i es)) + countId id (lists i) =
      countId id ((range n).flatMap lists) + countId id es := by
  induction n with
  | zero => omega
  | succ n ih =>
    rw [range_succ, flatMap_append, flatMap_append, flatMap_singleton, flatMap_singleton,
      countId_append, countId_append]
    by_cases hin : i = n
    · subst hin
      have hsame : (range i).flatMap (update lists i es) = (range i).flatMap lists := by
        refine flatMap_congr fun j hj => update_of_ne ?_ _ _
        exact (mem_range.mp hj).ne
      rw [hsame, update_self]
      omega
    · have hrest := ih (by omega)
      rw [update_of_ne (Ne.symm hin)]
      omega

/-- The first loop of `malloc_checker_kfree` splits the bucket. -/
lemma takeLoop_count (id ptr : ℕ) (es taken : List Entry) :
    countId id (takeLoop ptr es taken).1 + countId id (takeLoop ptr es taken).2 = countId id es + countId id taken := by
  induction es generalizing taken with
  | nil =>
    unfold takeLoop
    simp [countId]
  | cons e es ih =>
    unfold takeLoop
    by_cases hptr : e.ptr = ptr
    · rw [if_pos hptr, ih, countId_cons, countId_cons]
      omega
    · have hrest := ih taken
      rw [if_neg hptr]
      dsimp only
      rw [countId_cons, countId_cons]
      omega

/-- A freed entry is on one more bucket. -/
lemma checkAndReleaseEntry_result (h : checkAndReleaseEntry crc now c e = .ok c') :
    (∀ id, countId id c'.delayed = countId id c.delayed + if e.id = id then 1 else 0) ∧
      c'.entriesList = c.entriesList ∧ c'.released = c.released ∧ c'.nrAllocs = c.nrAllocs := by
  unfold checkAndReleaseEntry at h
  split_ifs at h
  obtain rfl := Except.ok.inj h
  refine ⟨fun id => ?_, rfl, rfl, rfl⟩
  have hupd := countId_flatMap_update id c.delayEntriesList
    ({ e with
        crc32 := crc (slice (fillCC c.mem e) e.ptr e.size)
        timeToLive := now e + 1000000000 } :: c.delayEntriesList (bucket e.ptr)) (bucket_lt e.ptr)
  rw [countId_cons] at hupd
  unfold Checker.delayed
  dsimp only at hupd ⊢
  omega

/-- What the second loop leaves when it returns. -/
lemma kfreeLoop_result (h : kfreeLoop crc now es c = .ok c') :
    (∀ id, countId id c'.delayed = countId id c.delayed + countId id es) ∧ c'.entriesList = c.entriesList ∧
      c'.released = c.released ∧ c'.nrAllocs = c.nrAllocs := by
  induction es generalizing c with
  | nil =>
    obtain rfl := Except.ok.inj h
    exact ⟨fun _ => (add_zero _).symm, rfl, rfl, rfl⟩
  | cons e es ih =>
    unfold kfreeLoop at h
    split at h
    · cases h
    · next c₁ hfirst =>
        obtain ⟨hcount₁, hentries₁, hrel₁, hallocs₁⟩ := checkAndReleaseEntry_result hfirst
        obtain ⟨hcount, hentries, hrel, hallocs⟩ := ih h
        refine ⟨fun id => ?_, hentries.trans hentries₁, hrel.trans hrel₁, hallocs.trans hallocs₁⟩
        have hrest : countId id c'.delayed = countId id c₁.delayed + countId id es := hcount id
        rw [hrest, hcount₁, countId_cons]
        omega

/-! ### Runs -/

lemma Accounted.init (mem : Mem) : Accounted (Checker.init mem) where
  once id hid := absurd hid (Nat.not_lt_zero id)
  known id _ := by simp [Checker.init, Checker.held, Checker.delayed, countId]
  timely r hr := nomatch hr

/-- A step that moves entries about. -/
lemma Accounted.moved (ha : Accounted c) (hallocs : c'.nrAllocs = c.nrAllocs)
    (hcount : ∀ id, countId id c'.held + countId id c'.delayed + countId id (c'.released.map Prod.fst) =
      countId id c.held + countId id c.delayed + countId id (c.released.map Prod.fst))
    (htimely : ∀ r ∈ c'.released, r.1.timeToLive ≤ r.2) : Accounted c' where
  once id hid := by
    rw [hcount]
    exact ha.once id (hallocs ▸ hid)
  known id hid := by
    rw [hcount]
    exact ha.known id (hallocs ▸ hid)
  timely := htimely

lemma Accounted.kmalloc (ha : Accounted c) (size : ℕ) (base : Option ℕ) : Accounted (kmalloc size base c) := by
  cases base with
  | none => exact ha
  | some base =>
    have hupd : ∀ id, countId id (Malloc.kmalloc size (some base) c).held =
        countId id c.held + if c.nrAllocs = id then 1 else 0 := by
      intro id
      have hupd := countId_flatMap_update id c.entriesList
        (⟨c.nrAllocs, base + 8, size, 0, 0⟩ :: c.entriesList (bucket (base + 8))) (bucket_lt (base + 8))
      rw [countId_cons] at hupd
      unfold Checker.held Malloc.kmalloc
      dsimp only at hupd ⊢
      omega
    constructor
    · intro id hid
      rw [hupd]
      show _ + countId id c.delayed + countId id (c.released.map Prod.fst) = 1
      rcases (Nat.lt_succ_iff.mp hid).eq_or_lt with rfl | hlt
      · have hzero := ha.known c.nrAllocs le_rfl
        rw [if_pos rfl]
        omega
      · have hone := ha.once id hlt
        rw [if_neg (by omega)]
        omega
    · intro id hid
      have hle : c.nrAllocs + 1 ≤ id := hid
      have hzero := ha.known id (by omega)
      rw [hupd, if_neg (by omega)]
      show _ + countId id c.delayed + countId id (c.released.map Prod.fst) = 0
      omega
    · exact ha.timely

lemma Accounted.kfree (ha : Accounted c) (h : kfree crc ptr now c = .ok c') : Accounted c' := by
  obtain ⟨hcount, hentries, hrel, hallocs⟩ := kfreeLoop_result h
  refine ha.moved hallocs (fun id => ?_) (by rw [hrel]; exact ha.timely)
  have htake := takeLoop_count id ptr (c.entriesList (bucket ptr)) []
  have hupd := countId_flatMap_update id c.entriesList (takeLoop ptr (c.entriesList (bucket ptr)) []).1 (bucket_lt ptr)
  have hheld : c'.held = (range nrLists).flatMap
      (update c.entriesList (bucket ptr) (takeLoop ptr (c.entriesList (bucket ptr)) []).1) := by
    rw [Checker.held, hentries]
  have hnil : countId id [] = 0 := rfl
  have hdelayed : countId id c'.delayed = countId id c.delayed + _ := hcount id
  have hrel : c'.released = c.released := hrel
  have hbefore : countId id c.held = countId id ((range nrLists).flatMap c.entriesList) := rfl
  rw [hheld, hrel, hdelayed, hbefore]
  omega

/-- **A pass that does what it should** keeps the account. -/
theorem Accounted.passed (ha : Accounted c) (hp : Passed now c c') (hentries : c'.entriesList = c.entriesList)
    (hallocs : c'.nrAllocs = c.nrAllocs) : Accounted c' := by
  have hdelayed : c'.delayed = c.delayed.filter fun e => now e < e.timeToLive := by
    unfold Checker.delayed
    rw [List.filter_flatMap]
    exact List.flatMap_congr fun i hi => hp.1 i (List.mem_range.mp hi)
  have hheld : c'.held = c.held := by
    unfold Checker.held
    rw [hentries]
  refine ha.moved hallocs (fun id => ?_) fun r hr => ?_
  · have hrel := countId_perm id (hp.2.map Prod.fst)
    have hsplit := List.countP_eq_countP_filter_add c.delayed (fun e => decide (e.id = id))
      fun e => decide (now e < e.timeToLive)
    have hnot : (c.delayed.filter fun e => !decide (now e < e.timeToLive)) =
        c.delayed.filter fun e => e.timeToLive ≤ now e := by
      refine List.filter_congr fun e _ => ?_
      rw [← decide_not]
      exact decide_eq_decide.mpr not_lt
    rw [hnot] at hsplit
    rw [List.map_append, List.map_map, countId_append] at hrel
    have hfst : (Prod.fst ∘ fun e : Entry => (e, now e)) = fun e => e := rfl
    rw [hfst, List.map_id'] at hrel
    rw [hheld, hdelayed, hrel]
    simp only [countId] at hsplit ⊢
    omega
  · rcases List.mem_append.mp (hp.2.mem_iff.mp hr) with hr | hr
    · exact ha.timely r hr
    · obtain ⟨e, he, rfl⟩ := List.mem_map.mp hr
      exact of_decide_eq_true (List.mem_filter.mp he).2

/-- One step of a run whose passes are due. -/
lemma Accounted.step {op : Op} (ha : Accounted c) (hdue : ∀ now, op = .pass now → c.Due now)
    (h : op.run crc c = .ok c') : Accounted c' := by
  cases op with
  | kmalloc size base =>
    obtain rfl := Except.ok.inj h
    exact ha.kmalloc size base
  | kfree ptr now => exact ha.kfree h
  | pass now =>
    obtain ⟨-, -, hentries, hallocs⟩ := delayPass_result h
    exact ha.passed ((passed_iff h).mpr (hdue now rfl)) hentries hallocs
  | write mem =>
    obtain rfl := Except.ok.inj h
    exact ⟨ha.once, ha.known, ha.timely⟩

/-- **Runs whose passes are all due** lose nothing. -/
theorem Accounted.run {ops : List Op} (ha : Accounted c) (hdue : PassesDue crc ops c)
    (h : runAll crc ops c = .ok c') : Accounted c' := by
  induction ops generalizing c with
  | nil =>
    obtain rfl := Except.ok.inj h
    exact ha
  | cons op ops ih =>
    unfold runAll at h
    split at h
    · cases h
    · next c₁ hstep => exact ih (ha.step hdue.1 hstep) (hdue.2 c₁ hstep) h

/-- **Delayed free.** A pass over untouched memory gives back what was kept long enough and leaves the rest if and only
if every delayed entry is on the last bucket and the pass comes to it just in time. In every run whose passes are all
such, each allocation is in one place, and none is given back early. -/
theorem delayed_free_iff (crc : List UInt8 → UInt32) :
    (∀ (c : Checker) (now : Entry → ℤ), c.Untouched crc →
      ((∃ c', delayPass crc now c = .ok c' ∧ Passed now c c') ↔ c.Due now)) ∧
    ∀ (mem : Mem) (ops : List Op) (c : Checker), PassesDue crc ops (.init mem) →
      runAll crc ops (.init mem) = .ok c → Accounted c := by
  refine ⟨fun c now hu => ?_, fun mem ops c hdue hrun => (Accounted.init mem).run hdue hrun⟩
  obtain ⟨c', hpass⟩ := delayPass_returns now hu
  constructor
  · rintro ⟨c'', hpass', hp⟩
    exact (passed_iff hpass').mp hp
  · exact fun hdue => ⟨c', hpass, (passed_iff hpass).mpr hdue⟩

end

/-- An allocation of no bytes, kept until `t`. -/
def keptEntry (t : ℤ) : Entry := ⟨0, 8, 0, 0, t⟩

/-- A checker that has it on the last bucket. -/
def keptOne (t : ℤ) : Checker where
  mem := storeLe (storeLe (fun _ => 0) 0 8 sign1) 8 8 sign2
  entriesList _ := []
  delayEntriesList i := if i + 1 = nrLists then [keptEntry t] else []
  nrAllocs := 1
  nrFrees := 1
  released := []

lemma keptOne_delayed (t : ℤ) : (keptOne t).delayed = [keptEntry t] := by
  have hnil : (range (nrLists - 1)).flatMap (keptOne t).delayEntriesList = [] := by
    refine flatMap_eq_nil_iff.mpr fun i hi => if_neg ?_
    have hlt := mem_range.mp hi
    omega
  rw [Checker.delayed_eq, hnil]
  rfl

lemma keptOne_untouched (t : ℤ) : (keptOne t).Untouched fun _ => 0 where
  intact e he := by
    rw [keptOne_delayed, mem_singleton] at he
    subst he
    refine ⟨⟨?_, ?_⟩, rfl⟩
    · show loadLe (storeLe (storeLe _ 0 8 sign1) 8 8 sign2) 0 8 = sign1
      rw [loadLe_storeLe_of_disjoint (by decide), loadLe_storeLe]
      rfl
    · show loadLe (storeLe _ 8 8 sign2) 8 8 = sign2
      rw [loadLe_storeLe]
      rfl
  apart := by
    rw [keptOne_delayed]
    exact pairwise_singleton _ _

lemma keptOne_due_iff (t now : ℤ) : (keptOne t).Due (fun _ => now) ↔ t = now := by
  constructor
  · intro hdue
    exact (hdue (nrLists - 1) (by decide) (keptEntry t) (mem_singleton_self _)).2
  · rintro rfl i - e he
    unfold keptOne at he
    dsimp only at he
    split_ifs at he with hi
    · rw [mem_singleton.mp he]
      exact ⟨hi, rfl⟩
    · cases he

/-- At its very time the entry of the last bucket is given back; a run that has freed and kept one allocation. -/
theorem delayed_free_last : ((keptOne 5).Untouched (fun _ => 0) ∧
    ∃ c', delayPass (fun _ => 0) (fun _ => 5) (keptOne 5) = .ok c' ∧ Passed (fun _ => 5) (keptOne 5) c') ∧
    ∃ c, runAll (fun _ => 0) [.kmalloc 0 (some 0), .kfree 8 fun _ => 0] (.init fun _ => 0) = .ok c ∧ Accounted c := by
  obtain ⟨hpass, hruns⟩ := delayed_free_iff fun _ => 0
  refine ⟨⟨keptOne_untouched 5, ?_⟩, ?_⟩
  · exact (hpass (keptOne 5) (fun _ => 5) (keptOne_untouched 5)).mpr ((keptOne_due_iff 5 5).mpr rfl)
  · have hdue : PassesDue (fun _ => 0) [.kmalloc 0 (some 0), .kfree 8 fun _ => 0] (.init fun _ => 0) :=
      ⟨nofun, fun _ _ => ⟨nofun, fun _ _ => trivial⟩⟩
    exact ⟨_, rfl, hruns (fun _ => 0) _ _ hdue rfl⟩

/-- A moment later it is left where it is, as long as it is there. -/
theorem not_delayed_free : ¬ ∀ crc : List UInt8 → UInt32,
    (∀ (c : Checker) (now : Entry → ℤ), c.Untouched crc → ∃ c', delayPass crc now c = .ok c' ∧ Passed now c c') ∧
    ∀ (mem : Mem) (ops : List Op) (c : Checker), runAll crc ops (.init mem) = .ok c → Accounted c := by
  intro hall
  obtain ⟨c', hpass, hp⟩ := (hall fun _ => 0).1 (keptOne 5) (fun _ => 6) (keptOne_untouched 5)
  have hdue := (keptOne_due_iff 5 6).mp ((passed_iff hpass).mp hp)
  omega

end Nkfs.Malloc
