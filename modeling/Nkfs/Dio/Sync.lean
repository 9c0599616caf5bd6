import Mathlib.Data.List.Basic
import Mathlib.Logic.Function.Basic
import Nkfs.Errno
import Nkfs.Lib.Interleaving

/-!
# Syncing a cluster (`core/dio.c`)

Any number of threads use one cluster that is read and pinned. A thread changes its pages directly
(`dio_clu_map`) and then calls `dio_clu_set_dirty`, or it calls `dio_clu_write`; and it calls
`dio_clu_sync`. Flag operations, page modifications, taking and releasing a lock, submitting a bio and
its completion are one step each. A bio carries for each byte some value that the page held while the
bio was in flight; a bio that fails has written any part of them.

The semaphore `sync_rw_lock` is held for reading while `DIO_CLU_DIRTY` is set, and for writing from
before the bio to after the flag was cleared. So a modification whose dirty flag was cleared was made
before the submission of the bio that cleared it, and a sync that returns 0 finds it on the device or
overwritten (`sync_durable`).
-/

namespace Nkfs

open Lib.Interleaving List

/-! ### Pages and their history -/

/-- A modification of the pages: who made it and the bytes it set. -/
structure PageMod (ι : Type) where
  thread : ι
  bytes : ℕ → Option UInt8

/-- The pages after a modification. -/
def PageMod.apply {ι : Type} (m : PageMod ι) (pages : ℕ → UInt8) : ℕ → UInt8 :=
  fun b => (m.bytes b).getD (pages b)

/-- How far a thread is.

* `idle`: in no call
* `marking`, `marked`: in `dio_clu_set_dirty`, holding `sync_rw_lock` for reading, before and after the
  flag is set
* `reading`: in `dio_clu_write`, holding `sync_rw_lock` for reading, before `down_write(&rw_lock)`
* `writing`, `modifying`, `modified`: then also holding `rw_lock`, before the flag is set, before the
  pages are modified, after it
* `written`: after `up_write(&rw_lock)`
* `syncing`: in `dio_clu_sync`, before `down_write(&sync_rw_lock)`
* `locked`, `alloc`, `flying`, `ended`, `out`: then holding it for writing, before the second test of
  the flag, before `dio_io_alloc`, with a bio submitted after `sub` modifications, with its result, and
  with the return code
* `synced`: `dio_clu_sync` returned; `none` is 0 -/
inductive SyncPhase where
  | idle
  | marking
  | marked
  | reading
  | writing
  | modifying
  | modified
  | written
  | syncing
  | locked
  | alloc
  | flying (sub : ℕ)
  | ended (err : Option Errno) (sub : ℕ)
  | out (err : Option Errno)
  | synced (err : Option Errno)
  deriving DecidableEq, Repr

/-- Holding `sync_rw_lock` for reading. -/
def SyncPhase.syncR : SyncPhase → Bool
  | .marking | .marked | .reading | .writing | .modifying | .modified | .written => true
  | _ => false

/-- Holding `sync_rw_lock` for writing. -/
def SyncPhase.syncW : SyncPhase → Bool
  | .locked | .alloc | .flying _ | .ended _ _ | .out _ => true
  | _ => false

/-- Holding `rw_lock` for writing. -/
def SyncPhase.rwW : SyncPhase → Bool
  | .writing | .modifying | .modified => true
  | _ => false

/-- The cluster, the bytes on the device and the threads, with the modifications so far. -/
structure SyncState (ι : Type) where
  /-- `DIO_CLU_DIRTY` -/
  dirty : Bool
  /-- The pages at the beginning. -/
  pages : ℕ → UInt8
  log : List (PageMod ι)
  dev : ℕ → UInt8
  phase : ι → SyncPhase
  /-- The number of modifications when the last `dio_clu_write` or `dio_clu_set_dirty` of a thread
  returned. -/
  ret : ι → ℕ

section

variable {ι : Type}

/-- The pages after the first `t` modifications. -/
def SyncState.pagesAt (st : SyncState ι) (t : ℕ) : ℕ → UInt8 :=
  (st.log.take t).foldl (fun pages m => m.apply pages) st.pages

/-- Byte `b` holds `v` at some time from `sub` modifications on. -/
def SyncState.Held (st : SyncState ι) (sub : ℕ) (b : ℕ) (v : UInt8) : Prop :=
  ∃ t, sub ≤ t ∧ t ≤ st.log.length ∧ v = st.pagesAt t b

/-- Threads that start, on a cluster with any contents. -/
def SyncState.init (dirty : Bool) (pages dev : ℕ → UInt8) : SyncState ι where
  dirty := dirty
  pages := pages
  log := []
  dev := dev
  phase := fun _ => .idle
  ret := fun _ => 0

variable [DecidableEq ι]

/-- Thread `i` goes on. -/
def SyncState.to (st : SyncState ι) (i : ι) (p : SyncPhase) : SyncState ι :=
  { st with phase := Function.update st.phase i p }

/-- Thread `i` returns from `dio_clu_write` or `dio_clu_set_dirty`. -/
def SyncState.toRet (st : SyncState ι) (i : ι) : SyncState ι :=
  { st.to i .idle with ret := Function.update st.ret i st.log.length }

/-- A step of thread `i`.
Source: `core/dio.c` `dio_clu_set_dirty`, `dio_clu_write`, `dio_clu_sync`, `__dio_io_end_bio` -/
inductive SyncStep (i : ι) (st : SyncState ι) : SyncState ι → Prop
  -- through `dio_clu_map`
  | modify (h : st.phase i = .idle) (bytes : ℕ → Option UInt8) :
      SyncStep i st { st with log := st.log ++ [⟨i, bytes⟩] }
  -- `dio_clu_set_dirty`
  | markLock (h : st.phase i = .idle) (hfree : ∀ j, (st.phase j).syncW = false) :
      SyncStep i st (st.to i .marking)
  | mark (h : st.phase i = .marking) : SyncStep i st { st.to i .marked with dirty := true }
  | markUnlock (h : st.phase i = .marked) : SyncStep i st (st.toRet i)
  -- `dio_clu_write`
  | writeLock (h : st.phase i = .idle) (hfree : ∀ j, (st.phase j).syncW = false) :
      SyncStep i st (st.to i .reading)
  | rwLock (h : st.phase i = .reading) (hfree : ∀ j, (st.phase j).rwW = false) :
      SyncStep i st (st.to i .writing)
  | writeDirty (h : st.phase i = .writing) : SyncStep i st { st.to i .modifying with dirty := true }
  | pagesIo (h : st.phase i = .modifying) (bytes : ℕ → Option UInt8) :
      SyncStep i st { st.to i .modified with log := st.log ++ [⟨i, bytes⟩] }
  | rwUnlock (h : st.phase i = .modified) : SyncStep i st (st.to i .written)
  | writeUnlock (h : st.phase i = .written) : SyncStep i st (st.toRet i)
  -- `dio_clu_sync`
  | clean (h : st.phase i = .idle) (hdirty : st.dirty = false) : SyncStep i st (st.to i (.synced none))
  | isDirty (h : st.phase i = .idle) (hdirty : st.dirty = true) : SyncStep i st (st.to i .syncing)
  | syncLock (h : st.phase i = .syncing)
      (hfree : ∀ j, (st.phase j).syncR = false ∧ (st.phase j).syncW = false) : SyncStep i st (st.to i .locked)
  | cleanNow (h : st.phase i = .locked) (hdirty : st.dirty = false) : SyncStep i st (st.to i (.out none))
  | stillDirty (h : st.phase i = .locked) (hdirty : st.dirty = true) : SyncStep i st (st.to i .alloc)
  | noMem (h : st.phase i = .alloc) : SyncStep i st (st.to i (.out (some .enomem)))
  | submit (h : st.phase i = .alloc) : SyncStep i st (st.to i (.flying st.log.length))
  | endOk (sub : ℕ) (h : st.phase i = .flying sub) (dev : ℕ → UInt8) (hdev : ∀ b, st.Held sub b (dev b)) :
      SyncStep i st { st.to i (.ended none sub) with dev := dev }
  | endErr (sub : ℕ) (h : st.phase i = .flying sub) (e : Errno) (dev : ℕ → UInt8)
      (hdev : ∀ b, dev b = st.dev b ∨ st.Held sub b (dev b)) :
      SyncStep i st { st.to i (.ended (some e) sub) with dev := dev }
  | clear (sub : ℕ) (h : st.phase i = .ended none sub) : SyncStep i st { st.to i (.out none) with dirty := false }
  | failed (e : Errno) (sub : ℕ) (h : st.phase i = .ended (some e) sub) : SyncStep i st (st.to i (.out (some e)))
  | syncUnlock (err : Option Errno) (h : st.phase i = .out err) : SyncStep i st (st.to i (.synced err))
  | again (err : Option Errno) (h : st.phase i = .synced err) : SyncStep i st (st.to i .idle)

end

/-- Modification `k` is on the device, or a later one overwrote it there. -/
def SyncState.OnDevice {ι : Type} (st : SyncState ι) (k : ℕ) (m : PageMod ι) : Prop :=
  ∀ b v, m.bytes b = some v → st.dev b = v ∨
    ∃ k' m', k < k' ∧ st.log[k']? = some m' ∧ m'.bytes b = some (st.dev b)

/-! ### The invariant -/

/-- The flag was set under the hold that the thread still has. -/
def SyncPhase.flagged : SyncPhase → Bool
  | .marked | .modifying | .modified | .written => true
  | _ => false

/-- The number of modifications before the bio. -/
def SyncPhase.sub : SyncPhase → Option ℕ
  | .flying sub | .ended _ sub => some sub
  | _ => none

/-- `dio_clu_sync` returns 0. -/
def SyncPhase.clean : SyncPhase → Bool
  | .out none | .synced none => true
  | _ => false

section

variable {ι : Type}

/-- Modification `k` is one that its thread has marked. -/
def SyncState.Covered (st : SyncState ι) (k : ℕ) : Prop := ∃ m, st.log[k]? = some m ∧ k < st.ret m.thread

/-- The device holds no value from before modification `k`. -/
def SyncState.Safe (st : SyncState ι) (k : ℕ) : Prop := ∀ b, st.Held (k + 1) b (st.dev b)

structure SyncOk (st : SyncState ι) : Prop where
  retLe : ∀ i, st.ret i ≤ st.log.length
  excl : ∀ i j, (st.phase i).syncW = true → j ≠ i → (st.phase j).syncR = false ∧ (st.phase j).syncW = false
  flagged : ∀ i, (st.phase i).flagged = true → st.dirty = true
  safe : st.dirty = false → ∀ k, st.Covered k → st.Safe k
  flight : ∀ i n, (st.phase i).sub = some n → ∀ k, st.Covered k → k < n
  ended : ∀ i n, st.phase i = .ended none n → ∀ b, st.Held n b (st.dev b)
  clean : ∀ i, (st.phase i).clean = true → ∀ k m, st.log[k]? = some m → m.thread = i → k < st.ret i → st.Safe k

variable {st st' : SyncState ι} {i j : ι} {p : SyncPhase} {n k b : ℕ} {v : UInt8}

lemma syncOk_init (dirty : Bool) (pages dev : ℕ → UInt8) : SyncOk (SyncState.init dirty pages dev : SyncState ι) := by
  constructor <;> simp [SyncState.init, SyncState.Covered, SyncPhase.syncW, SyncPhase.flagged, SyncPhase.sub,
    SyncPhase.clean]

lemma SyncState.Held.mono {n' : ℕ} (h : st.Held n b v) (hle : n' ≤ n) : st.Held n' b v := by
  obtain ⟨t, ht, hlen, hv⟩ := h
  exact ⟨t, hle.trans ht, hlen, hv⟩

/-- What the page held it held before a further modification. -/
lemma SyncState.Held.append (h : st.Held n b v) (m : PageMod ι) :
    { st with log := st.log ++ [m] }.Held n b v := by
  obtain ⟨t, ht, hlen, hv⟩ := h
  refine ⟨t, ht, by simp; omega, ?_⟩
  rw [hv, SyncState.pagesAt, SyncState.pagesAt, take_append_of_le_length hlen]

/-- A byte that a modification set holds its value or that of a later one. -/
lemma pagesAt_of_mod {m : PageMod ι} (hm : st.log[k]? = some m) (hv : m.bytes b = some v) {t : ℕ} (hk : k < t) :
    st.pagesAt t b = v ∨ ∃ k' m', k < k' ∧ st.log[k']? = some m' ∧ m'.bytes b = some (st.pagesAt t b) := by
  induction t with
  | zero => omega
  | succ t ih =>
    cases hlt : st.log[t]? with
    | none =>
      -- past the last modification
      have hlen : st.log.length ≤ t := List.getElem?_eq_none_iff.mp hlt
      have hsame : st.pagesAt (t + 1) = st.pagesAt t := by
        rw [SyncState.pagesAt, SyncState.pagesAt, take_of_length_le hlen, take_of_length_le (by omega)]
      have hkt : k < t := by
        obtain ⟨hk', -⟩ := List.getElem?_eq_some_iff.mp hm
        omega
      rw [hsame]
      exact ih hkt
    | some m' =>
      have hstep : st.pagesAt (t + 1) b = (m'.bytes b).getD (st.pagesAt t b) := by
        rw [SyncState.pagesAt, take_add_one, hlt, Option.toList_some, foldl_append]
        rfl
      rcases Nat.lt_or_ge k t with hkt | hkt
      · cases hb : m'.bytes b with
        | none =>
          rw [hstep, hb, Option.getD_none]
          exact ih hkt
        | some w =>
          rw [hstep, hb, Option.getD_some]
          exact .inr ⟨t, m', hkt, hlt, hb⟩
      · obtain rfl : k = t := by omega
        rw [hm, Option.some.injEq] at hlt
        rw [hstep, ← hlt, hv]
        exact .inl rfl

lemma SyncState.Safe.onDevice {m : PageMod ι} (h : st.Safe k) (hm : st.log[k]? = some m) : st.OnDevice k m := by
  intro b v hv
  obtain ⟨t, hk, -, hdev⟩ := h b
  rw [hdev]
  exact pagesAt_of_mod hm hv hk

/-! ### Steps -/

lemma SyncOk.setDirty (h : SyncOk st) : SyncOk { st with dirty := true } :=
  ⟨h.retLe, h.excl, fun _ _ => rfl, fun hd => (nomatch hd), h.flight, h.ended, h.clean⟩

/-- A further modification is not marked. -/
lemma SyncOk.covered_append (h : SyncOk st) {m : PageMod ι}
    (hk : { st with log := st.log ++ [m] }.Covered k) : st.Covered k := by
  obtain ⟨m', hm', hlt⟩ := hk
  have hlen : k < st.log.length := lt_of_lt_of_le hlt (h.retLe _)
  rw [List.getElem?_append_left hlen] at hm'
  exact ⟨m', hm', hlt⟩

lemma SyncOk.append (h : SyncOk st) (m : PageMod ι) : SyncOk { st with log := st.log ++ [m] } where
  retLe i := by
    rw [length_append]
    exact (h.retLe i).trans (Nat.le_add_right _ _)
  excl := h.excl
  flagged := h.flagged
  safe hd k hk b := (h.safe hd k (h.covered_append hk) b).append m
  flight i n hn k hk := h.flight i n hn k (h.covered_append hk)
  ended i n hn b := (h.ended i n hn b).append m
  clean i hi k m' hm' hthread hlt b := by
    have hlen : k < st.log.length := lt_of_lt_of_le hlt (h.retLe _)
    rw [List.getElem?_append_left hlen] at hm'
    exact (h.clean i hi k m' hm' hthread hlt b).append m

lemma SyncPhase.syncR_of_flagged (h : p.flagged = true) : p.syncR = true := by
  cases p <;> simp [SyncPhase.flagged] at h <;> rfl

/-- The bio of a thread that holds the lock ended with bytes of the pages on the device. -/
lemma SyncOk.endBio (h : SyncOk st) (hi : st.phase i = .flying n) {dev : ℕ → UInt8}
    (hdev : ∀ b, dev b = st.dev b ∨ st.Held n b (dev b)) : SyncOk { st with dev := dev } := by
  have hsafe : ∀ k, st.Covered k → st.Safe k → { st with dev := dev }.Safe k := by
    intro k hk hs b
    rcases hdev b with he | hheld
    · show st.Held (k + 1) b (dev b)
      rw [he]
      exact hs b
    · exact hheld.mono (h.flight i n (by rw [hi]; rfl) k hk)
  refine ⟨h.retLe, h.excl, h.flagged, fun hd k hk => hsafe k hk (h.safe hd k hk), h.flight, fun j n' hj b => ?_,
    fun j hj k m hm hthread hlt => ?_⟩
  · -- no other bio has ended
    by_cases hji : j = i
    · rw [hji, hi] at hj
      cases hj
    · have hw := (h.excl i j (by rw [hi]; rfl) hji).2
      rw [hj] at hw
      cases hw
  · exact hsafe k ⟨m, hm, hthread ▸ hlt⟩ (h.clean j hj k m hm hthread hlt)

/-- After a successful bio everything marked is on the device: the flag can be cleared. -/
lemma SyncOk.clear (h : SyncOk st) (hi : st.phase i = .ended none n) : SyncOk { st with dirty := false } := by
  refine ⟨h.retLe, h.excl, fun j hj => ?_, fun _ k hk b => ?_, h.flight, h.ended, h.clean⟩
  · -- no thread that set the flag still holds the lock
    by_cases hji : j = i
    · rw [hji, hi] at hj
      cases hj
    · have hr := (h.excl i j (by rw [hi]; rfl) hji).1
      rw [SyncPhase.syncR_of_flagged hj] at hr
      cases hr
  · exact (h.ended i n hi b).mono (h.flight i n (by rw [hi]; rfl) k hk)

/-- What the new phase of a thread must satisfy if nothing else changes. -/
structure SyncPhase.Fits (p : SyncPhase) (st : SyncState ι) (i : ι) : Prop where
  read : p.syncR = true → ∀ j, j ≠ i → (st.phase j).syncW = false
  write : p.syncW = true → ∀ j, j ≠ i → (st.phase j).syncR = false ∧ (st.phase j).syncW = false
  flagged : p.flagged = true → st.dirty = true
  flight : ∀ n, p.sub = some n → ∀ k, st.Covered k → k < n
  ended : ∀ n, p = .ended none n → ∀ b, st.Held n b (st.dev b)
  clean : p.clean = true → ∀ k m, st.log[k]? = some m → m.thread = i → k < st.ret i → st.Safe k

lemma SyncPhase.syncW_of_sub (h : p.sub = some n) : p.syncW = true := by
  cases p <;> simp [SyncPhase.sub] at h <;> rfl

/-- A phase with no hold. -/
lemma fits_of_free (hr : p.syncR = false) (hw : p.syncW = false)
    (hclean : p.clean = true → ∀ k m, st.log[k]? = some m → m.thread = i → k < st.ret i → st.Safe k) : p.Fits st i where
  read h := absurd h (by simp [hr])
  write h := absurd h (by simp [hw])
  flagged h := absurd (SyncPhase.syncR_of_flagged h) (by simp [hr])
  flight _ h := absurd (SyncPhase.syncW_of_sub h) (by simp [hw])
  ended _ h := absurd hw (by simp [h, SyncPhase.syncW])
  clean := hclean

/-- A phase that holds the lock for reading. -/
lemma fits_of_reader (hw : p.syncW = false) (hclean : p.clean = false)
    (hfree : ∀ j, j ≠ i → (st.phase j).syncW = false) (hflag : p.flagged = true → st.dirty = true) : p.Fits st i where
  read _ := hfree
  write h := absurd h (by simp [hw])
  flagged := hflag
  flight _ h := absurd (SyncPhase.syncW_of_sub h) (by simp [hw])
  ended _ h := absurd hw (by simp [h, SyncPhase.syncW])
  clean h := absurd h (by simp [hclean])

/-- A phase that holds the lock for writing, with no bio. -/
lemma fits_of_writer (hr : p.syncR = false) (hsub : p.sub = none)
    (hfree : ∀ j, j ≠ i → (st.phase j).syncR = false ∧ (st.phase j).syncW = false)
    (hclean : p.clean = true → ∀ k m, st.log[k]? = some m → m.thread = i → k < st.ret i → st.Safe k) : p.Fits st i where
  read h := absurd h (by simp [hr])
  write _ := hfree
  flagged h := absurd (SyncPhase.syncR_of_flagged h) (by simp [hr])
  flight _ h := absurd h (by simp [hsub])
  ended _ h := absurd hsub (by simp [h, SyncPhase.sub])
  clean := hclean

/-- A reader keeps writers out. -/
lemma SyncOk.noWriter (h : SyncOk st) (hi : (st.phase i).syncR = true) (j : ι) (hj : j ≠ i) :
    (st.phase j).syncW = false := by
  by_contra hw
  rw [Bool.not_eq_false] at hw
  have hr := (h.excl j i hw hj.symm).1
  rw [hi] at hr
  cases hr

/-- With the flag clear, what the thread has marked is on the device. -/
lemma SyncOk.safe_own (h : SyncOk st) (hdirty : st.dirty = false) (k : ℕ) (m : PageMod ι) (hm : st.log[k]? = some m)
    (hthread : m.thread = i) (hlt : k < st.ret i) : st.Safe k :=
  h.safe hdirty k ⟨m, hm, hthread ▸ hlt⟩

variable [DecidableEq ι]

lemma SyncState.to_self : (st.to i p).phase i = p := Function.update_self ..

lemma SyncState.to_of_ne (h : j ≠ i) : (st.to i p).phase j = st.phase j := Function.update_of_ne h ..

/-- Of the thread that goes on and of the others. -/
lemma SyncState.forall_to (P : ι → SyncPhase → Prop) (hi : P i p) (h : ∀ j, j ≠ i → P j (st.phase j)) (j : ι) :
    P j ((st.to i p).phase j) :=
  (Function.forall_update_iff st.phase P).mpr ⟨hi, h⟩ j

lemma SyncOk.to (h : SyncOk st) (hp : p.Fits st i) : SyncOk (st.to i p) where
  retLe := h.retLe
  excl := by
    intro a c ha hca
    by_cases hai : a = i
    · subst hai
      rw [SyncState.to_self] at ha
      rw [SyncState.to_of_ne hca]
      exact hp.write ha c hca
    · rw [SyncState.to_of_ne hai] at ha
      by_cases hci : c = i
      · subst hci
        rw [SyncState.to_self]
        constructor
        · by_contra hr
          exact absurd ha (by simp [hp.read (by simpa using hr) a hai])
        · by_contra hw
          exact absurd ha (by simp [(hp.write (by simpa using hw) a hai).2])
      · rw [SyncState.to_of_ne hci]
        exact h.excl a c ha hca
  flagged := SyncState.forall_to (fun _ q => q.flagged = true → st.dirty = true) hp.flagged fun j _ => h.flagged j
  safe := h.safe
  flight := SyncState.forall_to (fun _ q => ∀ n, q.sub = some n → ∀ k, st.Covered k → k < n) hp.flight
    fun j _ => h.flight j
  ended := SyncState.forall_to (fun _ q => ∀ n, q = .ended none n → ∀ b, st.Held n b (st.dev b)) hp.ended
    fun j _ => h.ended j
  clean := SyncState.forall_to (fun j q => q.clean = true → ∀ k m, st.log[k]? = some m → m.thread = j →
    k < st.ret j → st.Safe k) hp.clean fun j _ => h.clean j

/-- The modifications of a thread are marked while the flag is set and no bio is in flight. -/
lemma SyncOk.setRet (h : SyncOk st) (hdirty : st.dirty = true) (hsub : ∀ j, (st.phase j).sub = none)
    (hclean : (st.phase i).clean = false) :
    SyncOk { st with ret := Function.update st.ret i st.log.length } where
  retLe := (Function.forall_update_iff st.ret fun _ n => n ≤ st.log.length).mpr ⟨le_refl _, fun j _ => h.retLe j⟩
  excl := h.excl
  flagged := h.flagged
  safe hd := absurd (hdirty.symm.trans hd) (by decide)
  flight j n hn := absurd ((hsub j).symm.trans hn) (Option.some_ne_none n).symm
  ended := h.ended
  clean j hj k m hm hthread hlt := by
    have hji : j ≠ i := fun he => by
      rw [he, hclean] at hj
      cases hj
    have hret : Function.update st.ret i st.log.length j = st.ret j := Function.update_of_ne hji ..
    exact h.clean j hj k m hm hthread (hret ▸ hlt)

/-- A thread that set the flag returns. No bio is in flight, since the thread still holds the lock. -/
lemma SyncOk.toRet (h : SyncOk st) (hflag : (st.phase i).flagged = true) : SyncOk (st.toRet i) := by
  have hread : (st.phase i).syncR = true ∧ (st.phase i).syncW = false := by
    cases hp : st.phase i <;> simp [hp, SyncPhase.flagged] at hflag <;> exact ⟨rfl, rfl⟩
  have hnoW : ∀ j, (st.phase j).syncW = false := by
    intro j
    by_contra hj
    rw [Bool.not_eq_false] at hj
    by_cases hji : j = i
    · rw [hji, hread.2] at hj
      cases hj
    · have hr := (h.excl j i hj (Ne.symm hji)).1
      rw [hread.1] at hr
      cases hr
  have hto : SyncOk (st.to i .idle) := h.to (by constructor <;> simp [SyncPhase.syncR, SyncPhase.syncW,
    SyncPhase.flagged, SyncPhase.sub, SyncPhase.clean])
  refine hto.setRet (h.flagged i hflag) (fun j => ?_) (by rw [SyncState.to_self]; rfl)
  refine SyncState.forall_to (fun _ q => q.sub = none) rfl (fun j _ => ?_) j
  have hj := hnoW j
  cases hp : st.phase j <;> simp [hp, SyncPhase.syncW] at hj <;> rfl

/-- **Every step** keeps the invariant. -/
theorem SyncOk.step (h : SyncOk st) (hstep : SyncStep i st st') : SyncOk st' := by
  cases hstep with
  | modify hp bytes => exact h.append _
  | markLock hp hfree => exact h.to (fits_of_reader rfl rfl (fun j _ => hfree j) fun hf => nomatch hf)
  | mark hp =>
    exact h.setDirty.to (fits_of_reader rfl rfl (h.noWriter (by rw [hp]; rfl)) fun _ => rfl)
  | markUnlock hp => exact h.toRet (by rw [hp]; rfl)
  | writeLock hp hfree => exact h.to (fits_of_reader rfl rfl (fun j _ => hfree j) fun hf => nomatch hf)
  | rwLock hp hfree =>
    exact h.to (fits_of_reader rfl rfl (h.noWriter (by rw [hp]; rfl)) fun hf => nomatch hf)
  | writeDirty hp =>
    exact h.setDirty.to (fits_of_reader rfl rfl (h.noWriter (by rw [hp]; rfl)) fun _ => rfl)
  | pagesIo hp bytes =>
    exact (h.append _).to (fits_of_reader rfl rfl (h.noWriter (by rw [hp]; rfl))
      fun _ => h.flagged i (by rw [hp]; rfl))
  | rwUnlock hp =>
    exact h.to (fits_of_reader rfl rfl (h.noWriter (by rw [hp]; rfl)) fun _ => h.flagged i (by rw [hp]; rfl))
  | writeUnlock hp => exact h.toRet (by rw [hp]; rfl)
  | clean hp hdirty => exact h.to (fits_of_free rfl rfl fun _ => h.safe_own hdirty)
  | isDirty hp hdirty => exact h.to (fits_of_free rfl rfl fun hc => nomatch hc)
  | syncLock hp hfree => exact h.to (fits_of_writer rfl rfl (fun j _ => hfree j) fun hc => nomatch hc)
  | cleanNow hp hdirty =>
    exact h.to (fits_of_writer rfl rfl (fun j => h.excl i j (by rw [hp]; rfl)) fun _ => h.safe_own hdirty)
  | stillDirty hp hdirty =>
    exact h.to (fits_of_writer rfl rfl (fun j => h.excl i j (by rw [hp]; rfl)) fun hc => nomatch hc)
  | noMem hp => exact h.to (fits_of_writer rfl rfl (fun j => h.excl i j (by rw [hp]; rfl)) fun hc => nomatch hc)
  | submit hp =>
    -- whatever is marked is in the pages
    refine h.to ⟨fun hr => (nomatch hr), fun _ j => h.excl i j (by rw [hp]; rfl), fun hf => (nomatch hf),
      fun n hn k hk => ?_, fun n hn => (nomatch hn), fun hc => (nomatch hc)⟩
    obtain ⟨m, -, hlt⟩ := hk
    obtain rfl : st.log.length = n := Option.some.inj hn
    exact lt_of_lt_of_le hlt (h.retLe _)
  | endOk n hp dev hdev =>
    exact (h.endBio hp fun b => .inr (hdev b)).to ⟨fun hr => (nomatch hr), fun _ j => h.excl i j (by rw [hp]; rfl),
      fun hf => (nomatch hf), fun n' hn => h.flight i n' (by rw [hp]; exact hn),
      fun n' hn => (SyncPhase.ended.inj hn).2 ▸ hdev, fun hc => (nomatch hc)⟩
  | endErr n hp e dev hdev =>
    exact (h.endBio hp hdev).to ⟨fun hr => (nomatch hr), fun _ j => h.excl i j (by rw [hp]; rfl),
      fun hf => (nomatch hf), fun n' hn => h.flight i n' (by rw [hp]; exact hn), fun _ hn => (nomatch hn),
      fun hc => (nomatch hc)⟩
  | clear n hp =>
    exact (h.clear hp).to (fits_of_writer rfl rfl (fun j => h.excl i j (by rw [hp]; rfl))
      fun _ => (h.clear hp).safe_own rfl)
  | failed e n hp => exact h.to (fits_of_writer rfl rfl (fun j => h.excl i j (by rw [hp]; rfl)) fun hc => nomatch hc)
  | syncUnlock err hp =>
    refine h.to (fits_of_free rfl rfl fun hc => h.clean i ?_)
    rw [hp]
    cases err with
    | none => rfl
    | some e => cases hc
  | again err hp => exact h.to (fits_of_free rfl rfl fun hc => nomatch hc)

/-- **A successful sync is durable.** In every run of any number of threads, whatever bios fail: when a
thread's `dio_clu_sync` returned 0, each modification that the thread made before its last
`dio_clu_write` or `dio_clu_set_dirty` returned is on the device, or a later one overwrote it there. -/
theorem sync_durable (dirty : Bool) (pages dev : ℕ → UInt8) (st : SyncState ι)
    (hreach : Reaches SyncStep (fun _ _ => True) (SyncState.init dirty pages dev) st) (i : ι)
    (hi : st.phase i = .synced none) (k : ℕ) (m : PageMod ι) (hm : st.log[k]? = some m) (hthread : m.thread = i)
    (hk : k < st.ret i) : st.OnDevice k m := by
  have hok : SyncOk st :=
    hreach.invariant (fun _ _ _ hok _ hstep => hok.step hstep) (syncOk_init dirty pages dev)
  exact (hok.clean i (by rw [hi]; rfl) k m hm hthread hk).onDevice hm

end

/-- The byte 0 set to 7. -/
def setFirst : PageMod Unit := ⟨(), fun b => if b = 0 then some 7 else none⟩

/-- A clean cluster of zeros and one thread. -/
def zeroClu : SyncState Unit := SyncState.init false (fun _ => 0) fun _ => 0

/-- The thread sets a byte, marks the cluster and syncs it. -/
theorem sync_durable_one : ∃ st : SyncState Unit, Reaches SyncStep (fun _ _ => True) zeroClu st ∧
    st.phase () = .synced none ∧ st.log[0]? = some setFirst ∧ st.OnDevice 0 setFirst := by
  have h₁ : Reaches SyncStep (fun _ _ => True) zeroClu { zeroClu with log := [setFirst] } :=
    Reaches.refl.step trivial (.modify rfl setFirst.bytes)
  have h₂ := h₁.step trivial (.markLock (i := ()) rfl fun _ => rfl)
  have h₃ := h₂.step trivial (.mark (i := ()) rfl)
  have h₄ := h₃.step trivial (.markUnlock (i := ()) rfl)
  have h₅ := h₄.step trivial (.isDirty (i := ()) rfl rfl)
  have h₆ := h₅.step trivial (.syncLock (i := ()) rfl fun _ => ⟨rfl, rfl⟩)
  have h₇ := h₆.step trivial (.stillDirty (i := ()) rfl rfl)
  have h₈ := h₇.step trivial (.submit (i := ()) rfl)
  have h₉ := h₈.step trivial (.endOk 1 (i := ()) rfl (setFirst.apply fun _ => 0) fun b => ⟨1, le_refl _, le_refl _, rfl⟩)
  have h₁₀ := h₉.step trivial (.clear 1 (i := ()) rfl)
  have h₁₁ := h₁₀.step trivial (.syncUnlock none (i := ()) rfl)
  exact ⟨_, h₁₁, rfl, rfl, sync_durable false _ _ _ h₁₁ () rfl 0 setFirst rfl rfl Nat.zero_lt_one⟩

end Nkfs
