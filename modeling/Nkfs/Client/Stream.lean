import Nkfs.Lib.Bytes

/-!
# The connection of a client (`client/lib/client.c`)

`con_send` and `con_recv` call the socket until all bytes are through. A failed call ends the loop and leaves its
error in the connection, and every later call returns that error. A call that moves nothing is repeated, and at the
end of the stream `recv` moves nothing for good. So a call ends exactly when the connection has failed before or the
stream does not end early (`transfer_ok_iff`), and a call that ends has done its part of the stream or returns the
error it leaves.

What the socket does is a sequence of results, one for each call. A run of a loop is cut after `fuel` calls;
`Progress.running` is then where it stands.
-/

namespace Nkfs.Client

open Lib.Bytes

/-! ### The code -/

/-- What a call of the socket returns: a number of bytes, or -1 with the `errno` it sets. -/
inductive SockResult where
  | moved (n : ℕ)
  | failed (errno : ℤ) (h : errno ≠ 0)

/-- The bytes that a call was willing to move. -/
def SockResult.len : SockResult → ℕ
  | .moved n => n
  | .failed _ _ => 0

/-- A connection and its socket. `results` are the results of the calls, of which `calls` were made; `input` are the
bytes that the peer sends, of which `recvd` were received.
Source: `include/nkfs_client.h` `struct nkfs_con` -/
structure Con where
  err : ℤ
  results : ℕ → SockResult
  calls : ℕ
  input : ℕ → UInt8
  recvd : ℕ
  sent : List UInt8

inductive Dir where
  | send
  | recv
  deriving DecidableEq, Repr

/-- A call that moves `n` bytes, from or to the buffer at `total`. -/
def move : Dir → Con → Mem → ℕ → ℕ → Con × Mem
  | .send, con, buf, total, n => ({ con with calls := con.calls + 1, sent := con.sent ++ slice buf total n }, buf)
  | .recv, con, buf, total, n =>
    ({ con with calls := con.calls + 1, recvd := con.recvd + n },
      copyIn buf total (fun i => con.input (con.recvd + i)) n)

inductive Progress where
  | running
  | done (ret : ℤ)
  deriving DecidableEq, Repr

/-- The loop of `con_send` and `con_recv`. No call moves more than it is asked for. -/
def xferLoop (dir : Dir) (size : ℕ) : ℕ → ℕ → Con → Mem → Progress × Con × Mem
  | 0, _, con, buf => (.running, con, buf)
  | fuel + 1, total, con, buf =>
    match con.results con.calls with
    | .failed errno _ => (.done errno, { con with calls := con.calls + 1, err := errno }, buf)
    | .moved n =>
      let n := min n (size - total)
      let r := move dir con buf total n
      if total + n < size then xferLoop dir size fuel (total + n) r.1 r.2 else (.done 0, r.1, r.2)

/-- The test of `con->err`, then the loop. -/
def conXfer (dir : Dir) (fuel : ℕ) (con : Con) (buf : Mem) (size : ℕ) : Progress × Con × Mem :=
  if con.err ≠ 0 then (.done con.err, con, buf) else xferLoop dir size fuel 0 con buf

/-- Source: `client/lib/client.c` `con_send` -/
def conSend (fuel : ℕ) (con : Con) (buf : Mem) (size : ℕ) : Progress × Con × Mem := conXfer .send fuel con buf size

/-- Source: `client/lib/client.c` `con_recv` -/
def conRecv (fuel : ℕ) (con : Con) (buf : Mem) (size : ℕ) : Progress × Con × Mem := conXfer .recv fuel con buf size

/-! ### What was moved -/

/-- The first `k` bytes were moved, in order. -/
structure Part (dir : Dir) (con : Con) (buf : Mem) (k : ℕ) (con' : Con) (buf' : Mem) : Prop where
  results : con'.results = con.results
  input : con'.input = con.input
  recvd : con'.recvd = con.recvd + if dir = .recv then k else 0
  sent : con'.sent = con.sent ++ if dir = .send then slice buf 0 k else []
  buf : buf' = if dir = .recv then copyIn buf 0 (fun i => con.input (con.recvd + i)) k else buf

section part

variable {dir : Dir} {con con' : Con} {buf buf' : Mem} {k n size : ℕ}

lemma Part.refl (dir : Dir) (con : Con) (buf : Mem) : Part dir con buf 0 con buf := by
  cases dir with
  | send => exact ⟨rfl, rfl, rfl, by simp [slice], by simp⟩
  | recv => exact ⟨rfl, rfl, by simp, by simp, by simp [copyIn_none]⟩

/-- Only the socket's bytes and the buffer count. -/
lemma Part.congr {con'' : Con} (h : Part dir con buf k con' buf') (hr : con''.results = con'.results)
    (hi : con''.input = con'.input) (hv : con''.recvd = con'.recvd) (hs : con''.sent = con'.sent) :
    Part dir con buf k con'' buf' :=
  ⟨hr.trans h.results, hi.trans h.input, hv.trans h.recvd, hs.trans h.sent, h.buf⟩

/-- The next `n` bytes. -/
lemma Part.move (h : Part dir con buf k con' buf') (n : ℕ) :
    Part dir con buf (k + n) (move dir con' buf' k n).1 (move dir con' buf' k n).2 := by
  cases dir with
  | send =>
    have hbuf : buf' = buf := h.buf
    refine ⟨h.results, h.input, h.recvd, ?_, hbuf⟩
    show con'.sent ++ slice buf' k n = _
    rw [h.sent, hbuf, if_pos rfl, if_pos rfl, List.append_assoc, slice_add, zero_add]
  | recv =>
    have hbuf := h.buf
    have hrecvd := h.recvd
    rw [if_pos rfl] at hbuf hrecvd
    refine ⟨h.results, h.input, ?_, h.sent, ?_⟩
    · show con'.recvd + n = _
      rw [hrecvd, if_pos rfl, add_assoc]
    · show copyIn buf' k (fun i => con'.input (con'.recvd + i)) n = _
      have happ := copyIn_append buf (fun i => con.input (con.recvd + i)) 0 k n
      rw [zero_add] at happ
      rw [hbuf, hrecvd, h.input, if_pos rfl, ← happ]
      simp only [add_assoc]

lemma move_err : (move dir con buf k n).1.err = con.err := by
  cases dir <;> rfl

lemma move_calls : (move dir con buf k n).1.calls = con.calls + 1 := by
  cases dir <;> rfl

lemma move_results : (move dir con buf k n).1.results = con.results := by
  cases dir <;> rfl

end part

/-! ### The loop -/

/-- Where a call stands after a number of rounds. -/
structure Stands (dir : Dir) (con : Con) (buf : Mem) (size : ℕ) (r : Progress × Con × Mem) (k : ℕ) : Prop where
  part : Part dir con buf k r.2.1 r.2.2
  running : r.1 = .running → k ≤ size ∧ r.2.1.err = con.err
  zero : r.1 = .done 0 → k = size ∧ r.2.1.err = con.err
  failed : ∀ ret, r.1 = .done ret → ret ≠ 0 → k < size ∧ r.2.1.err = ret

section loop

variable {dir : Dir} {con con₀ : Con} {buf buf₀ : Mem} {size total fuel n : ℕ}

lemma xferLoop_failed {errno : ℤ} {h : errno ≠ 0} (hr : con.results con.calls = .failed errno h) :
    xferLoop dir size (fuel + 1) total con buf =
      (.done errno, { con with calls := con.calls + 1, err := errno }, buf) := by
  rw [xferLoop, hr]

lemma xferLoop_moved (hr : con.results con.calls = .moved n) : xferLoop dir size (fuel + 1) total con buf =
    if total + min n (size - total) < size then
      xferLoop dir size fuel (total + min n (size - total)) (move dir con buf total (min n (size - total))).1
        (move dir con buf total (min n (size - total))).2
    else (.done 0, move dir con buf total (min n (size - total))) := by
  rw [xferLoop, hr]

/-- The loop moves a part of the bytes, all of them if it ends with 0, and leaves the error that it returns. -/
lemma xferLoop_stands (hpart : Part dir con₀ buf₀ total con buf) (herr : con.err = con₀.err) (hlt : total < size) :
    ∃ k, Stands dir con₀ buf₀ size (xferLoop dir size fuel total con buf) k := by
  induction fuel generalizing total con buf with
  | zero => exact ⟨total, hpart, fun _ => ⟨hlt.le, herr⟩, nofun, nofun⟩
  | succ fuel ih =>
    cases hr : con.results con.calls with
    | failed errno h =>
      rw [xferLoop_failed hr]
      refine ⟨total, hpart.congr rfl rfl rfl rfl, nofun, ?_, ?_⟩
      · intro h0
        exact absurd (Progress.done.inj h0) h
      · intro ret hret _
        exact ⟨hlt, Progress.done.inj hret⟩
    | moved n =>
      have hnext := hpart.move (min n (size - total))
      rw [xferLoop_moved hr]
      by_cases hmore : total + min n (size - total) < size
      · rw [if_pos hmore]
        exact ih hnext (move_err.trans herr) hmore
      · rw [if_neg hmore]
        have hall : total + min n (size - total) = size := by omega
        refine ⟨_, hnext, nofun, fun _ => ⟨hall, move_err.trans herr⟩, ?_⟩
        intro ret hret hne
        exact absurd (Progress.done.inj hret).symm hne

/-- From `total` bytes on, the calls move less than is missing and then nothing any more. -/
def Stalls (size total : ℕ) (con : Con) : Prop :=
  ∃ j, (∀ i < j, ∃ n, con.results (con.calls + i) = .moved n) ∧
    total + ∑ i ∈ Finset.range j, (con.results (con.calls + i)).len < size ∧
    ∀ i, j ≤ i → con.results (con.calls + i) = .moved 0

/-- A call that moves something short of the size makes no difference. -/
lemma stalls_succ {con' : Con} (hr : con.results con.calls = .moved n) (hlt : total + n < size)
    (hres : con'.results = con.results) (hcalls : con'.calls = con.calls + 1) :
    Stalls size (total + n) con' ↔ Stalls size total con := by
  have hshift : ∀ i, con'.results (con'.calls + i) = con.results (con.calls + (i + 1)) := by
    intro i
    rw [hres, hcalls, add_assoc, add_comm 1 i]
  have hsum : ∀ j, total + ∑ i ∈ Finset.range (j + 1), (con.results (con.calls + i)).len =
      total + n + ∑ i ∈ Finset.range j, (con'.results (con'.calls + i)).len := by
    intro j
    simp only [hshift]
    rw [Finset.sum_range_succ', add_zero, hr]
    simp only [SockResult.len]
    omega
  constructor
  · rintro ⟨j, hmoved, hless, hzero⟩
    refine ⟨j + 1, fun i hi => ?_, by rw [hsum]; exact hless, fun i hi => ?_⟩
    · cases i with
      | zero => exact ⟨n, hr⟩
      | succ i =>
        rw [← hshift]
        exact hmoved i (by omega)
    · obtain ⟨i, rfl⟩ := Nat.exists_eq_add_of_le' (show 1 ≤ i by omega)
      rw [← hshift]
      exact hzero i (by omega)
  · rintro ⟨j, hmoved, hless, hzero⟩
    cases j with
    | zero =>
      -- the call already moved nothing
      have hn : n = 0 := by
        have h0 := hzero 0 le_rfl
        rw [add_zero, hr] at h0
        exact SockResult.moved.inj h0
      refine ⟨0, fun i hi => absurd hi (Nat.not_lt_zero i), by simpa using hlt, fun i _ => ?_⟩
      rw [hshift]
      exact hzero (i + 1) (Nat.zero_le _)
    | succ j =>
      refine ⟨j, fun i hi => ?_, by rw [← hsum]; exact hless, fun i hi => ?_⟩
      · rw [hshift]
        exact hmoved (i + 1) (by omega)
      · rw [hshift]
        exact hzero (i + 1) (by omega)

/-- A stream that ends early keeps the loop running. -/
lemma Stalls.running (h : Stalls size total con) : (xferLoop dir size fuel total con buf).1 = .running := by
  induction fuel generalizing total con buf with
  | zero => rfl
  | succ fuel ih =>
    obtain ⟨n, hr, hlt⟩ : ∃ n, con.results con.calls = .moved n ∧ total + n < size := by
      obtain ⟨j, hmoved, hless, hzero⟩ := h
      cases j with
      | zero => exact ⟨0, hzero 0 le_rfl, by simpa using hless⟩
      | succ j =>
        obtain ⟨n, hn⟩ := hmoved 0 (Nat.succ_pos j)
        refine ⟨n, hn, lt_of_le_of_lt ?_ hless⟩
        rw [Finset.sum_range_succ', hn]
        simp only [SockResult.len]
        omega
    have hmin : min n (size - total) = n := by omega
    rw [xferLoop_moved hr, hmin, if_pos hlt]
    exact ih ((stalls_succ hr hlt move_results move_calls).mpr h)

/-- Any other stream ends it. -/
lemma exists_done (hlt : total < size) (h : ¬ Stalls size total con) :
    ∃ fuel ret, (xferLoop dir size fuel total con buf).1 = .done ret := by
  -- by how much is missing, and then by how far the next call is that moves something or fails
  induction hd : size - total using Nat.strong_induction_on generalizing total con buf with
  | _ d ihd =>
  obtain ⟨i, hi⟩ : ∃ i, con.results (con.calls + i) ≠ .moved 0 := by
    by_contra hall
    push Not at hall
    exact h ⟨0, fun i hi => absurd hi (Nat.not_lt_zero i), by simpa using hlt, fun i _ => hall i⟩
  have hnow : ∀ {con : Con} {buf : Mem}, ¬ Stalls size total con → con.results con.calls ≠ .moved 0 →
      ∃ fuel ret, (xferLoop dir size fuel total con buf).1 = .done ret := by
    intro con buf h hne
    cases hr : con.results con.calls with
    | failed errno herr => exact ⟨1, errno, by rw [xferLoop_failed hr]⟩
    | moved n =>
      have hn : 0 < n := by
        rw [hr] at hne
        exact Nat.pos_of_ne_zero fun h0 => hne (by rw [h0])
      by_cases hmore : total + min n (size - total) < size
      · have hmin : min n (size - total) = n := by omega
        rw [hmin] at hmore
        obtain ⟨fuel, ret, hdone⟩ := ihd (size - (total + n)) (by omega) hmore
          (fun hs => h ((stalls_succ hr hmore move_results move_calls).mp hs)) rfl
        refine ⟨fuel + 1, ret, ?_⟩
        rw [xferLoop_moved hr, hmin, if_pos hmore]
        exact hdone
      · exact ⟨1, 0, by rw [xferLoop_moved hr, if_neg hmore]⟩
  induction i generalizing con buf with
  | zero => exact hnow h hi
  | succ i ihi =>
    by_cases h0 : con.results con.calls = .moved 0
    · have hstep : Stalls size (total + 0) (move dir con buf total 0).1 ↔ Stalls size total con :=
        stalls_succ h0 hlt move_results move_calls
      have hnext : (move dir con buf total 0).1.results ((move dir con buf total 0).1.calls + i) ≠ .moved 0 := by
        rw [move_results, move_calls, add_assoc, add_comm 1 i]
        exact hi
      obtain ⟨fuel, ret, hdone⟩ := ihi (fun hs => h (hstep.mp hs)) hnext
      refine ⟨fuel + 1, ret, ?_⟩
      rw [xferLoop_moved h0, Nat.zero_min, if_pos (show total + 0 < size from hlt)]
      exact hdone
    · exact hnow h h0

end loop

/-! ### Calls -/

/-- The call returns; it returns 0 exactly when all bytes were moved, in order; and an error that it returns is what
every later call returns. -/
def CallOk (dir : Dir) (con : Con) (buf : Mem) (size : ℕ) : Prop :=
  (∃ fuel ret, (conXfer dir fuel con buf size).1 = .done ret) ∧
    ∀ fuel ret con' buf', conXfer dir fuel con buf size = (.done ret, con', buf') →
      (∃ k ≤ size, Part dir con buf k con' buf' ∧ (ret = 0 ↔ k = size)) ∧
      (ret ≠ 0 → con'.err = ret ∧
        ∀ dir' fuel' buf'' size', conXfer dir' fuel' con' buf'' size' = (.done ret, con', buf''))

/-- The stream ends before `size` bytes: from some call on, none moves anything, and before it none has failed. -/
def EndsEarly (size : ℕ) (con : Con) : Prop :=
  ∃ j, (∀ i < j, ∃ n, con.results (con.calls + i) = .moved n) ∧
    ∑ i ∈ Finset.range j, (con.results (con.calls + i)).len < size ∧
    ∀ i, j ≤ i → con.results (con.calls + i) = .moved 0

section calls

variable {dir : Dir} {con : Con} {buf : Mem} {size fuel : ℕ}

lemma endsEarly_iff : EndsEarly size con ↔ Stalls size 0 con := by
  unfold EndsEarly Stalls
  simp only [zero_add]

lemma conXfer_failed (h : con.err ≠ 0) : conXfer dir fuel con buf size = (.done con.err, con, buf) := if_pos h

lemma conXfer_loop (h : con.err = 0) : conXfer dir fuel con buf size = xferLoop dir size fuel 0 con buf :=
  if_neg (not_not.mpr h)

/-- However far a call gets, it has moved a part of the bytes. -/
lemma conXfer_stands (dir : Dir) (fuel : ℕ) (con : Con) (buf : Mem) (hsize : 0 < size) :
    ∃ k, Stands dir con buf size (conXfer dir fuel con buf size) k := by
  by_cases herr : con.err = 0
  · rw [conXfer_loop herr]
    exact xferLoop_stands (Part.refl dir con buf) rfl hsize
  · rw [conXfer_failed herr]
    refine ⟨0, Part.refl dir con buf, nofun, ?_, ?_⟩
    · intro h0
      exact absurd (Progress.done.inj h0) herr
    · intro ret hret _
      exact ⟨hsize, Progress.done.inj hret⟩

/-- **Sending and receiving.** A call is exact, returns, and leaves its error for good, exactly if the connection had
failed or its stream does not end early. -/
theorem transfer_ok_iff (dir : Dir) (con : Con) (buf : Mem) (size : ℕ) (hsize : 0 < size) :
    CallOk dir con buf size ↔ con.err ≠ 0 ∨ ¬ EndsEarly size con := by
  rw [endsEarly_iff]
  constructor
  · rintro ⟨⟨fuel, ret, hdone⟩, -⟩
    by_contra hno
    rw [not_or, not_not, not_not] at hno
    rw [conXfer_loop hno.1, hno.2.running] at hdone
    cases hdone
  · intro hends
    refine ⟨?_, fun fuel ret con' buf' hrun => ?_⟩
    · by_cases herr : con.err = 0
      · obtain ⟨fuel, ret, hdone⟩ := exists_done hsize (hends.resolve_left (not_not.mpr herr))
        exact ⟨fuel, ret, by rw [conXfer_loop herr]; exact hdone⟩
      · exact ⟨0, con.err, by rw [conXfer_failed herr]⟩
    · obtain ⟨k, hst⟩ := conXfer_stands dir fuel con buf hsize
      rw [hrun] at hst
      by_cases hret : ret = 0
      · subst hret
        obtain ⟨rfl, -⟩ := hst.zero rfl
        exact ⟨⟨k, le_rfl, hst.part, iff_of_true rfl rfl⟩, fun h => absurd rfl h⟩
      · obtain ⟨hlt, herr⟩ := hst.failed ret rfl hret
        refine ⟨⟨k, hlt.le, hst.part, iff_of_false hret hlt.ne⟩, fun _ => ⟨herr, fun dir' fuel' buf'' size' => ?_⟩⟩
        have hne : con'.err ≠ 0 := by
          rw [show con'.err = ret from herr]
          exact hret
        rw [conXfer_failed hne, show con'.err = ret from herr]

end calls

/-- A new connection on which every call moves one byte. -/
theorem transfer_ok_bytewise :
    CallOk .recv { err := 0, results := fun _ => .moved 1, calls := 0, input := fun _ => 0, recvd := 0, sent := [] }
      (fun _ => 0) 5 := by
  apply (transfer_ok_iff _ _ _ 5 (by decide)).mpr
  right
  rintro ⟨j, -, -, hzero⟩
  exact absurd (SockResult.moved.inj (hzero j le_rfl)) one_ne_zero

/-- At the end of the stream `con_recv` does not return. -/
theorem not_transfer_ok : ¬ ∀ (dir : Dir) (con : Con) (buf : Mem) (size : ℕ), 0 < size → CallOk dir con buf size := by
  intro hall
  let con : Con := { err := 0, results := fun _ => .moved 0, calls := 0, input := fun _ => 0, recvd := 0, sent := [] }
  have hstalls : Stalls 1 0 con := ⟨0, fun i hi => absurd hi (Nat.not_lt_zero i), by decide, fun _ _ => rfl⟩
  obtain ⟨⟨fuel, ret, hdone⟩, -⟩ := hall .recv con (fun _ => 0) 1 Nat.one_pos
  rw [conXfer_loop rfl, hstalls.running] at hdone
  cases hdone

end Nkfs.Client
