import Nkfs.Object.Lifecycle

/-!
# An object is a growable byte array

`Arr` is the abstract object: a size and the bytes below it. `HoldsArr s id a` says that in `s` the
object `id` is the array `a`. `puts_gets_refine_array` runs a sequence of puts and gets of one object
beside the array: a put that starts at or below the size overwrites its range and returns 0, a get
returns the bytes from its offset to the end at most, and `-ERANGE` beyond the end. Something else
happens only if an allocation failed on the way.
-/

namespace Nkfs

open Lib.Bytes Lib.Program Lib.Assoc List

/-! ### Arrays and operations -/

/-- A byte array; what `data` holds from `size` on means nothing. -/
structure Arr where
  size : ℕ
  data : Mem

/-- The array with `len` bytes of `src` at `off`. -/
def Arr.put (a : Arr) (off : ℕ) (src : Mem) (len : ℕ) : Arr :=
  ⟨max a.size (off + len), copyIn a.data off src len⟩

/-- Source: `include/nkfs_const.h` `NKFS_NET_PKT_MAX_DSIZE` -/
def maxDsize : ℕ := 512 * 1024

/-- A request on the object, with the pages that hold its data or take it. -/
inductive ArrOp where
  | put (off len : ℕ) (pages : ℕ → Mem)
  | get (off len : ℕ) (pages : ℕ → Mem)

/-- What a request returned. -/
inductive ArrRes where
  | put (r : Except Errno Unit)
  | get (r : (ℕ → Mem) × Except Errno ℕ)

namespace ArrOp

/-- The request as the server makes it, on pages as `nkfs_pages_create` builds them. -/
def run (id : Key) : ArrOp → M ArrRes
  | put off len pages => do return .put (← sbPutObj id off 0 len pages (nrPages len))
  | get off len pages => do return .get (← sbGetObj id off 0 len pages (nrPages len))

/-- The array afterwards. -/
def arr (a : Arr) : ArrOp → Arr
  | put off len pages => a.put off (flat pages) len
  | get _ _ _ => a

/-- The request can be made on the array. -/
def Fits (a : Arr) : ArrOp → Prop
  | put off len _ => off ≤ a.size ∧ off + len < 2 ^ 64 ∧ 1 ≤ len ∧ len ≤ maxDsize
  | get off len _ => off < 2 ^ 64 ∧ 1 ≤ len ∧ len ≤ maxDsize

/-- What the request has to return on the array. -/
def Returns (a : Arr) : ArrOp → ArrRes → Prop
  | put _ _ _, .put r => r = .ok ()
  | get off len pages, .get r => GetDone a.size a.data off len pages r
  | _, _ => False

end ArrOp

/-- The requests in turn. -/
def runOps (id : Key) : List ArrOp → M (List ArrRes)
  | [] => return []
  | op :: ops => do
    let r ← op.run id
    let rs ← runOps id ops
    return r :: rs

/-- Every request can be made on the array as it is by then. -/
def AllFit : Arr → List ArrOp → Prop
  | _, [] => True
  | a, op :: ops => op.Fits a ∧ AllFit (op.arr a) ops

/-- Every request returned what it has to. -/
def AllReturn : Arr → List ArrOp → List ArrRes → Prop
  | _, [], [] => True
  | a, op :: ops, r :: rs => op.Returns a r ∧ AllReturn (op.arr a) ops rs
  | _, _, _ => False

/-- In `s` the device is in order and the object `id` is the array `a`. -/
def HoldsArr (s : Sb) (id : Key) (a : Arr) : Prop :=
  ∃ T os o, SysOk s true T os ∧ o ∈ os ∧ o.ino = id ∧ o.size = a.size ∧ Held s o a.data

/-- The device is in order. -/
def InOrder (s : Sb) : Prop := ∃ T os, SysOk s true T os

/-! ### One request -/

section step

variable {s s' : Sb} {id : Key} {a : Arr} {off len : ℕ} {pages : ℕ → Mem} {op : ArrOp}

lemma Held.ticked {o : Layout} {data : Mem} (h : Held s o data) (htick : Ticked s s') : Held s' o data := by
  intro t ht
  rw [htick.clus]
  exact h t ht

lemma HoldsArr.size_lt (h : HoldsArr s id a) : a.size < 2 ^ 63 := by
  obtain ⟨T, os, o, hsys, ho, -, hsize, hheld⟩ := h
  rw [← hsize]
  exact (hheld.size_le (hsys.objs o ho).stored hsys.dev).trans_lt hsys.dev

/-- A put on an array. -/
lemma sbPutObj_array (h : HoldsArr s id a) (hoff : off ≤ a.size) (hwrap : off + len < 2 ^ 64)
    (pages : ℕ → Mem) : Ends (sbPutObj id off 0 len pages (nrPages len)) s (fun r s' => InOrder s' ∧
      (s'.allocFails = s.allocFails ∧ r = .ok () ∧ HoldsArr s' id (a.put off (flat pages) len) ∨
        s.allocFails < s'.allocFails)) fun _ s' => s.allocFails < s'.allocFails := by
  obtain ⟨T, os, o, hsys, ho, rfl, hsize, hheld⟩ := h
  have hn := le_nrPages len
  have hlt : o.size < 2 ^ 63 := (hheld.size_le (hsys.objs o ho).stored hsys.dev).trans_lt hsys.dev
  have hin : PutIn true off len := ⟨by omega, Or.inl rfl⟩
  refine (sbPutObj_spec hsys o.ino hin hn pages).mono ?_ fun _ _ h => h.2
  rintro r s' (⟨-, -, hnone⟩ | ⟨l₁, o₁, l₂, o', rfl, hid, hstep, hsys', hres⟩)
  · exact absurd rfl (hnone o ho)
  refine ⟨⟨T, _, hsys'⟩, ?_⟩
  rcases hres with ⟨rfl, hf, s₁, htick, hw⟩ | ⟨e, -, hf, -⟩
  · obtain rfl := hsys.obj_unique ho (mem_append_right _ (mem_cons_self ..)) hid
    have hcuts := pageChunks_cuts (i := 0) hn (by omega) hwrap.le
    obtain ⟨hsize', hheld'⟩ := hw.held hcuts (hsize ▸ hoff) hwrap (by omega) (hheld.ticked htick)
    have hflat : (fun i => flat pages (0 * pageSize + i)) = flat pages := by
      funext i
      rw [zero_mul, zero_add]
    rw [hflat] at hheld'
    refine Or.inl ⟨hf, rfl, T, _, o', hsys', mem_append_right _ (mem_cons_self ..),
      hstep.ino, ?_, hheld'⟩
    rw [hsize', hsize]
    rfl
  · exact Or.inr hf

/-- A get on an array. -/
lemma sbGetObj_array (h : HoldsArr s id a) (hfits : (ArrOp.get off len pages).Fits a) :
    Runs (sbGetObj id off 0 len pages (nrPages len)) s fun r s' => InOrder s' ∧
      (s'.allocFails = s.allocFails ∧ GetDone a.size a.data off len pages r ∧ HoldsArr s' id a ∨
        s.allocFails < s'.allocFails) := by
  obtain ⟨T, os, o, hsys, ho, rfl, hsize, hheld⟩ := h
  obtain ⟨hoff, hpos, hlen⟩ := hfits
  have hlen : len ≤ 2 ^ 63 := hlen.trans (by decide)
  refine (sbGetObj_spec hsys ho hheld hoff (Or.inr hpos) hlen (le_nrPages len) pages).mono ?_
  rintro r s' ⟨htick, hres⟩
  have hsys' := hsys.quiet htick.step
  refine ⟨⟨T, os, hsys'⟩, ?_⟩
  rcases hres with ⟨hf, hdone⟩ | ⟨hf, -⟩
  · exact Or.inl ⟨hf, hsize ▸ hdone, T, os, o, hsys', ho, rfl, hsize, hheld.ticked htick⟩
  · exact Or.inr hf

/-- **One request** on an array. -/
theorem ArrOp.run_spec (h : HoldsArr s id a) (hfits : op.Fits a) :
    Ends (op.run id) s (fun r s' => InOrder s' ∧
      (s'.allocFails = s.allocFails ∧ op.Returns a r ∧ HoldsArr s' id (op.arr a) ∨
        s.allocFails < s'.allocFails)) fun _ s' => s.allocFails < s'.allocFails := by
  cases op with
  | put off len pages =>
    refine Ends.bind (sbPutObj_array h hfits.1 hfits.2.1 pages) ?_
    exact fun r s' hr => Runs.ends (Runs.pure hr)
  | get off len pages =>
    refine Ends.bind (sbGetObj_array h hfits).ends ?_
    exact fun r s' hr => Runs.ends (Runs.pure hr)

end step

/-! ### Sequences of requests -/

section run

variable {s : Sb} {id : Key} {a : Arr} {op : ArrOp} {ops : List ArrOp}

/-- Whatever happened, the device stays in order and failed allocations are not forgotten. -/
lemma ArrOp.run_order (h : InOrder s) (hfits : op.Fits a) : Ends (op.run id) s
    (fun _ s' => InOrder s' ∧ s.allocFails ≤ s'.allocFails) fun _ s' => s.allocFails ≤ s'.allocFails := by
  obtain ⟨T, os, hsys⟩ := h
  cases op with
  | put off len pages =>
    obtain ⟨-, hwrap, -, -⟩ := hfits
    have hin : PutIn true off len := ⟨by omega, Or.inl rfl⟩
    refine Ends.bind ((sbPutObj_spec hsys id hin (le_nrPages len) pages).mono (fun _ _ h => h)
      fun _ _ h => h.2.le) ?_
    rintro r s' (⟨-, rfl, -⟩ | ⟨l₁, o, l₂, o', -, -, hstep, hsys', -⟩)
    · exact Runs.ends (Runs.pure ⟨⟨T, os, hsys⟩, le_rfl⟩)
    · exact Runs.ends (Runs.pure ⟨⟨T, _, hsys'⟩, hstep.fails⟩)
  | get off len pages =>
    refine Ends.bind (sbGetObj_quiet hsys id hfits.1 (le_nrPages len) pages).ends ?_
    exact fun r s' htick => Runs.ends (Runs.pure ⟨⟨T, os, hsys.quiet htick.step⟩, htick.fails⟩)

lemma runOps_order (h : InOrder s) (hfit : AllFit a ops) : Ends (runOps id ops) s
    (fun _ s' => s.allocFails ≤ s'.allocFails) fun _ s' => s.allocFails ≤ s'.allocFails := by
  induction ops generalizing s a with
  | nil => exact Runs.ends (Runs.pure le_rfl)
  | cons op ops ih =>
    refine Ends.bind (ArrOp.run_order h hfit.1) ?_
    rintro r s₁ ⟨h₁, hle⟩
    refine Ends.bind ((ih h₁ hfit.2).mono (fun _ _ h => hle.trans h) fun _ _ h => hle.trans h) ?_
    exact fun rs s' hle' => Runs.ends (Runs.pure hle')

/-- A run beside the array, up to the first failed allocation. -/
lemma runOps_spec (h : HoldsArr s id a) (hfit : AllFit a ops) : Ends (runOps id ops) s
    (fun rs s' => AllReturn a ops rs ∧ HoldsArr s' id (ops.foldl ArrOp.arr a) ∨
      s.allocFails < s'.allocFails) fun _ s' => s.allocFails < s'.allocFails := by
  induction ops generalizing s a with
  | nil => exact Runs.ends (Runs.pure (Or.inl ⟨trivial, h⟩))
  | cons op ops ih =>
    refine Ends.bind (ArrOp.run_spec h hfit.1) ?_
    rintro r s₁ ⟨horder, ⟨hf, hret, h₁⟩ | hlt⟩
    · refine Ends.bind ((ih h₁ hfit.2).mono (fun _ _ h => h) fun _ _ h => hf ▸ h) ?_
      rintro rs s' (⟨hrets, h'⟩ | hlt)
      · exact Runs.ends (Runs.pure (Or.inl ⟨⟨hret, hrets⟩, h'⟩))
      · exact Runs.ends (Runs.pure (Or.inr (hf ▸ hlt)))
    · refine Ends.bind ((runOps_order horder hfit.2).mono (fun _ _ h => hlt.trans_le h)
        fun _ _ h => hlt.trans_le h) ?_
      exact fun rs s' hlt' => Runs.ends (Runs.pure (Or.inr hlt'))

/-- The state in which a run ended, whether it returned or stopped. -/
def endState {α : Type} : Except (Fault × Sb) (α × Sb) → Sb
  | .ok (_, s) => s
  | .error (_, s) => s

/-- **Object I/O is a growable byte array.** A sequence of puts and gets on an object in which no
allocation fails returns, reaches no `NKFS_BUG_ON`, and returns and leaves what the array does. -/
theorem puts_gets_refine_array (h : HoldsArr s id a) (hfit : AllFit a ops)
    (hmem : (endState (runOps id ops s)).allocFails = s.allocFails) : ∃ rs s',
      runOps id ops s = .ok (rs, s') ∧ AllReturn a ops rs ∧
        HoldsArr s' id (ops.foldl ArrOp.arr a) := by
  rcases runOps_spec h hfit with ⟨rs, s', hrun, ⟨hrets, h'⟩ | hlt⟩ | ⟨e, s', hrun, hlt⟩
  · exact ⟨rs, s', hrun, hrets, h'⟩
  · rw [hrun] at hmem
    exact absurd hmem hlt.ne'
  · rw [hrun] at hmem
    exact absurd hmem hlt.ne'

/-- A device with one empty object, and room on it. -/
lemma exists_emptyArr (k : Key) : ∃ s₀ s T b d c,
    sbFormat (65536 * blockSize) blankSb = .ok (.ok (), s₀) ∧ sbCreateObj k s₀ = .ok (.ok (), s) ∧
    s.allocFails = s₀.allocFails ∧ SysOk s false T [Layout.new b k d c] ∧ s.Ample 100 := by
  obtain ⟨s₀, root, hrun₀, hsys₀, henv₀, -⟩ := exists_format false
  have hnew := hsys₀.exists_create henv₀ (fun o ho => absurd ho not_mem_nil : ∀ o : Layout, o ∈ [] → o.ino ≠ k)
    (fun _ ho => absurd ho not_mem_nil) (Nat.zero_le _)
  obtain ⟨s, T, b, d, c, hrun, hsys, hlen, henv, hf⟩ := hnew
  exact ⟨s₀, s, T, b, d, c, hrun₀, hrun, hf, hsys, (hsys.ample_blank henv hlen (by simp)).mono (by omega)⟩

/-- The device after one piece was put into the empty object. -/
structure OnePut (k : Key) (off : ℕ) (pages : ℕ → Mem) (s₀ s s' : Sb) (o o' : Layout) : Prop where
  format : sbFormat (65536 * blockSize) blankSb = .ok (.ok (), s₀)
  create : sbCreateObj k s₀ = .ok (.ok (), s)
  put : sbPutObj k off 0 1 pages (nrPages 1) s = .ok (.ok (), s')
  fails : s.allocFails = s₀.allocFails
  fails' : s'.allocFails = s.allocFails
  empty : HoldsArr s k ⟨0, fun _ => 0⟩
  ample : s'.Ample 0
  new : ∃ b d c, o = Layout.new b k d c
  sys : ∃ T, SysOk s' false T [o']
  ino : o'.ino = k
  wrote : ∃ s₁, WroteAll false pages s₁ o (pageChunks (nrPages 1) off 1 0) s' o'

/-- A byte is put into the empty object; if the put is one piece, there is room for it. -/
lemma exists_onePut {off : ℕ} (k : Key) (pages : ℕ → Mem) (hin : PutIn false off 1)
    (hone : (pageChunks (nrPages 1) off 1 0).length = 1) :
    ∃ s₀ s s' o o', OnePut k off pages s₀ s s' o o' := by
  obtain ⟨s₀, s, T, b, d, c, hformat, hcreate, hf₀, hsys, hample⟩ := exists_emptyArr k
  have hholds : HoldsArr s k ⟨0, fun _ => 0⟩ := ⟨T, _, _, hsys.mono true, mem_singleton_self _,
    rfl, rfl, fun t ht => absurd ht (Nat.not_lt_zero t)⟩
  obtain ⟨r, s', hrun, ⟨-, -, hnone⟩ | ⟨l₁, o, l₂, o', hos, hid, hstep, hsys', hres⟩⟩ :=
    (sbPutObj_spec hsys k hin (le_nrPages 1) pages).runs fun _ _ h => Bool.false_ne_true h.1
  · exact absurd rfl (hnone _ (mem_singleton_self _))
  obtain ⟨rfl, rfl, rfl⟩ : l₁ = [] ∧ o = Layout.new b k d c ∧ l₂ = [] := by
    cases l₁ with
    | nil => simpa using hos.symm
    | cons x l₁ => simp at hos
  rcases hres with ⟨rfl, hf, s₁, -, hw⟩ | ⟨e, -, -, hfull⟩
  · have hample' : s'.Ample 0 := by
      refine ⟨?_, ?_, Nat.zero_le _⟩
      · rw [hstep.env]
        exact hample.fails
      · rw [hstep.env]
        exact hample.covers
    exact ⟨s₀, s, s', _, o', hformat, hcreate, hrun, hf₀, hf, hholds, hample', ⟨b, d, c, rfl⟩, ⟨T, hsys'⟩,
      hstep.ino.trans hid, s₁, hw⟩
  · refine absurd (hample.mono ?_) (hfull hone)
    show 1 + 1 + 0 + 8 ≤ 100
    decide

/-- The byte at the beginning makes an array of one byte. -/
lemma exists_oneByte (k : Key) (pages : ℕ → Mem) : ∃ s₀ s s' o o', OnePut k 0 pages s₀ s s' o o' ∧
    HoldsArr s' k ((ArrOp.put 0 1 pages).arr ⟨0, fun _ => 0⟩) := by
  have hin : PutIn false 0 1 := ⟨by decide, Or.inr (by decide)⟩
  obtain ⟨s₀, s, s', o, o', h⟩ := exists_onePut k pages hin (by decide)
  have harr := sbPutObj_array h.empty (le_refl 0) (show 0 + 1 < 2 ^ 64 by decide) pages
  rcases (harr.result h.put).2 with ⟨-, -, h'⟩ | hlt
  · exact ⟨s₀, s, s', o, o', h, h'⟩
  · exact absurd h.fails' hlt.ne'

/-- One byte is put into an empty object and got from it. -/
theorem puts_gets_refine_array_oneByte : ∃ s rs s',
    HoldsArr s (keyByU64 1) ⟨0, fun _ => 0⟩ ∧
    runOps (keyByU64 1) [.put 0 1 fun _ _ => 7, .get 0 1 fun _ _ => 0] s = .ok (rs, s') ∧
    AllReturn ⟨0, fun _ => 0⟩ [.put 0 1 fun _ _ => 7, .get 0 1 fun _ _ => 0] rs := by
  obtain ⟨_, s, s₁, _, _, hput, h₁⟩ := exists_oneByte (keyByU64 1) fun _ _ => 7
  have hfits : AllFit ⟨0, fun _ => 0⟩ [.put 0 1 fun _ _ => 7, .get 0 1 fun _ _ => 0] :=
    ⟨⟨le_rfl, by decide, le_rfl, by decide⟩, ⟨by decide, le_rfl, by decide⟩, trivial⟩
  obtain ⟨T, os, o, hsys, ho, hid, hsize, hheld⟩ := h₁
  have hget := sbGetObj_spec hsys ho hheld (show 0 < 2 ^ 64 by decide) (Or.inr one_pos) (by decide) (le_nrPages 1)
    fun _ _ => 0
  obtain ⟨r, s₂, hget, -, ⟨hf₂, -⟩ | ⟨-, hfull⟩⟩ := hget
  · have hrun : runOps (keyByU64 1) [.put 0 1 fun _ _ => 7, .get 0 1 fun _ _ => 0] s =
        .ok ([.put (.ok ()), .get r], s₂) := by
      rw [hid] at hget
      exact (run_bind_ok (run_bind_ok hput.put)).trans (run_bind_ok (run_bind_ok (run_bind_ok hget)))
    have hmem : (endState (runOps (keyByU64 1) [.put 0 1 fun _ _ => 7, .get 0 1 fun _ _ => 0]
        s)).allocFails = s.allocFails := by
      rw [hrun]
      exact hf₂.trans hput.fails'
    obtain ⟨rs, s', hrun', hrets, -⟩ := puts_gets_refine_array hput.empty hfits hmem
    exact ⟨s, rs, s', hput.empty, hrun', hrets⟩
  · exact absurd hput.ample hfull

end run

end Nkfs
