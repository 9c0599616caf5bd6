import Nkfs.Client.Stream
import Nkfs.Net.Packet

/-!
# Reading an object as a client

`nkfs_get_object` sends a request for `data_size` bytes and reads the reply, then as many bytes as the reply
announces. The check of a packet bounds that number by a constant, not by `data_size`, so a reply with a larger
number is received over the end of the caller's buffer (`getSafe_iff`).
-/

namespace Nkfs.Client

open Lib.Bytes

/-! ### The code -/

/-- `-EINVAL` -/
def einvalRet : ℤ := -22

/-- What a read of an object has come to. `written` counts the bytes that were stored in the caller's buffer,
`pread` is what `*pread` was set to. -/
structure GetRun where
  progress : Progress
  con : Con
  data : Mem
  written : ℕ
  pread : Option ℕ

/-- The request. -/
def getCmd (csum : List UInt8 → UInt64) (objId : List UInt8) (off dataSize : ℕ) : Mem :=
  let cmd : Mem := fun _ => 0
  let cmd := storeLe cmd dsizeOff 4 dataSize
  let cmd := storeLe cmd (uOff + 16) 8 off
  let cmd := storeLe cmd typeOff 4 2
  let cmd := copyIn cmd uOff (fun i => objId.getD i 0) 16
  netPktSign csum cmd

/-- The part of `nkfs_get_object` after a reply without error: the data and its checksum. -/
def getData (csum : List UInt8 → UInt64) (fuel : ℕ) (con : Con) (reply data : Mem) : GetRun :=
  if pktDsize reply ≠ 0 then
    match conRecv fuel con data (pktDsize reply) with
    | (.done 0, con', data') =>
      if loadLe reply dsumOff 8 ≠ (csum (slice data' 0 (pktDsize reply))).toNat then
        ⟨.done einvalRet, con', data', con'.recvd - con.recvd, none⟩
      else ⟨.done 0, con', data', con'.recvd - con.recvd, some (pktDsize reply)⟩
    | (p, con', data') => ⟨p, con', data', con'.recvd - con.recvd, none⟩
  else ⟨.done 0, con, data, 0, some 0⟩

/-- `fuel` bounds the socket calls of each transfer. Source: `client/lib/client.c` `nkfs_get_object` -/
def getObject (csum : List UInt8 → UInt64) (fuel : ℕ) (con : Con) (objId : List UInt8) (off : ℕ) (data : Mem)
    (dataSize : ℕ) : GetRun :=
  match conSend fuel con (getCmd csum objId off dataSize) pktSize with
  | (.done 0, con, _) =>
    match conRecv fuel con (fun _ => 0) pktSize with
    | (.done 0, con, reply) =>
      match netPktCheck csum reply with
      | .error _ => ⟨.done einvalRet, con, data, 0, none⟩
      | .ok () =>
        if pktErr reply ≠ 0 then ⟨.done (intOf (pktErr reply)), con, data, 0, none⟩
        else getData csum fuel con reply data
    | (p, con, _) => ⟨p, con, data, 0, none⟩
  | (p, con, _) => ⟨p, con, data, 0, none⟩

/-! ### What is written -/

/-- The bytes that the peer sends next are the packet. -/
def Arrives (con : Con) (reply : Mem) : Prop := ∀ i < pktSize, con.input (con.recvd + i) = reply i

/-- No run of the call stores more than `dataSize` bytes or returns more. -/
def GetSafe (csum : List UInt8 → UInt64) (reply : Mem) (dataSize : ℕ) : Prop :=
  ∀ (fuel : ℕ) (con : Con) (objId : List UInt8) (off : ℕ) (data : Mem), Arrives con reply →
    let r := getObject csum fuel con objId off data dataSize
    r.written ≤ dataSize ∧ (r.progress = .done 0 → ∃ n ≤ dataSize, r.pread = some n)

section get

variable {csum : List UInt8 → UInt64} {con : Con} {reply reply' data : Mem} {fuel dataSize : ℕ}

/-- Two packets with the same bytes. -/
lemma pkt_congr (csum : List UInt8 → UInt64) (h : ∀ i < pktSize, reply i = reply' i) : pktDsize reply = pktDsize reply' ∧
    pktErr reply = pktErr reply' ∧ netPktCheck csum reply = netPktCheck csum reply' := by
  have hload : ∀ {off n : ℕ}, off + n ≤ pktSize → loadLe reply off n = loadLe reply' off n := fun hle =>
    loadLe_congr fun i hi => h _ (by omega)
  have hsum : netPktSum csum reply = netPktSum csum reply' := by
    unfold netPktSum
    rw [slice_zero_congr fun i hi => h i (hi.trans (by decide))]
  refine ⟨hload (by decide), hload (by decide), ?_⟩
  unfold netPktCheck pktDsize
  rw [hload (show dsizeOff + 4 ≤ pktSize by decide), hload (show sign1Off + 4 ≤ pktSize by decide),
    hload (show sign2Off + 4 ≤ pktSize by decide), hload (show pktSumOff + 8 ≤ pktSize by decide), hsum]

/-- The bytes that a transfer has received. -/
lemma conRecv_le (fuel : ℕ) (con : Con) (data : Mem) {size : ℕ} (hsize : 0 < size) :
    (conRecv fuel con data size).2.1.recvd - con.recvd ≤ size := by
  obtain ⟨k, hst⟩ := conXfer_stands .recv fuel con data hsize
  have hrecvd := hst.part.recvd
  rw [if_pos rfl] at hrecvd
  have hk : k ≤ size := by
    cases hp : (conXfer .recv fuel con data size).1 with
    | running => exact (hst.running hp).1
    | done ret =>
      by_cases hret : ret = 0
      · exact (hst.zero (hp.trans (by rw [hret]))).1.le
      · exact (hst.failed ret hp hret).1.le
  rw [conRecv]
  omega

/-- The data of a reply: at most what it announces is stored, and that is what is returned. -/
lemma getData_spec (csum : List UInt8 → UInt64) (fuel : ℕ) (con : Con) (reply data : Mem) :
    (getData csum fuel con reply data).written ≤ pktDsize reply ∧
    ((getData csum fuel con reply data).progress = .done 0 →
      (getData csum fuel con reply data).pread = some (pktDsize reply)) := by
  unfold getData
  by_cases hsize : pktDsize reply = 0
  · rw [if_neg (not_not.mpr hsize), hsize]
    exact ⟨le_rfl, fun _ => rfl⟩
  rw [if_pos hsize]
  have hle := conRecv_le fuel con data (Nat.pos_of_ne_zero hsize)
  generalize conRecv fuel con data (pktDsize reply) = r at hle
  obtain ⟨p, con', data'⟩ := r
  split
  · next heq =>
      obtain ⟨rfl, rfl, rfl⟩ : p = .done 0 ∧ con' = _ ∧ data' = _ := by simpa using heq
      split
      · exact ⟨hle, nofun⟩
      · exact ⟨hle, fun _ => rfl⟩
  · next hno heq =>
      obtain ⟨rfl, rfl, rfl⟩ : p = _ ∧ con' = _ ∧ data' = _ := by simpa using heq
      exact ⟨hle, fun hp => absurd hp hno⟩

/-- A call that has gone through, in either direction. -/
lemma conXfer_zero {dir : Dir} {size : ℕ} {con' : Con} {data' : Mem} (hsize : 0 < size)
    (h : conXfer dir fuel con data size = (.done 0, con', data')) : Part dir con data size con' data' := by
  obtain ⟨k, hst⟩ := conXfer_stands dir fuel con data hsize
  rw [h] at hst
  obtain ⟨rfl, -⟩ := hst.zero rfl
  exact hst.part

/-- A call either fails before the data or comes to it, with the packet that was sent. -/
lemma getObject_cases (fuel : ℕ) (objId : List UInt8) (off : ℕ) (data : Mem) (dataSize : ℕ) (harr : Arrives con reply)
    (hcheck : netPktCheck csum reply = .ok ()) (herr : pktErr reply = 0) :
    let r := getObject csum fuel con objId off data dataSize
    (r.written = 0 ∧ r.progress ≠ .done 0) ∨
      ∃ con' reply', (∀ i < pktSize, reply' i = reply i) ∧ r = getData csum fuel con' reply' data := by
  dsimp only
  unfold getObject
  split
  · next con₁ _ hsend =>
      have hpart₁ : Part .send con _ pktSize con₁ _ := conXfer_zero (by decide) hsend
      split
      · next con₂ reply' hrecv =>
          have hpart₂ : Part .recv con₁ _ pktSize con₂ reply' := conXfer_zero (by decide) hrecv
          have hbuf := hpart₂.buf
          have hrecvd := hpart₁.recvd
          rw [if_pos rfl] at hbuf
          have hsame : ∀ i < pktSize, reply' i = reply i := by
            intro i hi
            rw [hbuf, copyIn_zero _ _ hi, hpart₁.input, hrecvd]
            exact harr i hi
          obtain ⟨-, herr', hcheck'⟩ := pkt_congr csum hsame
          rw [hcheck', hcheck]
          dsimp only
          rw [if_neg (by rw [herr', herr]; exact not_not.mpr rfl)]
          exact .inr ⟨con₂, reply', hsame, rfl⟩
      · next hno _ => exact .inl ⟨rfl, hno⟩
  · next hno _ => exact .inl ⟨rfl, hno⟩

/-! ### A peer that sends it all -/

/-- Every call of the socket moves all it is asked for, and the peer sends the packet and more. -/
def Con.flood (reply : Mem) : Con where
  err := 0
  results _ := .moved (2 ^ 32)
  calls := 0
  input := reply
  recvd := 0
  sent := []

/-- One call is enough then. -/
lemma conXfer_flood {dir : Dir} {size : ℕ} (herr : con.err = 0) (hres : ∀ k, con.results k = .moved (2 ^ 32))
    (hpos : 0 < size) (hle : size ≤ 2 ^ 32) : conXfer dir 1 con data size = (.done 0, move dir con data 0 size) := by
  have hmin : min (2 ^ 32) (size - 0) = size := by omega
  rw [conXfer_loop herr, xferLoop_moved (hres _), hmin, if_neg (by omega)]

/-- All that the reply announces is stored, whatever the caller's buffer. -/
lemma getObject_flood (objId : List UInt8) (off : ℕ) (data : Mem) (dataSize : ℕ)
    (hcheck : netPktCheck csum reply = .ok ()) (herr : pktErr reply = 0) :
    (getObject csum 1 (.flood reply) objId off data dataSize).written = pktDsize reply := by
  have hmax := dsize_le_of_check hcheck
  have hlimit : netPktMaxDsize ≤ 2 ^ 32 := by decide
  have hsame : ∀ i < pktSize, copyIn (fun _ => 0) 0 (fun i => reply (0 + i)) pktSize i = reply i := by
    intro i hi
    rw [copyIn_zero _ _ hi, zero_add]
  obtain ⟨hsize', herr', hcheck'⟩ := pkt_congr csum hsame
  unfold getObject conSend conRecv
  rw [conXfer_flood rfl (fun _ => rfl) (by decide) (by decide)]
  simp only [move]
  rw [conXfer_flood rfl (fun _ => rfl) (by decide) (by decide)]
  simp only [move, Con.flood, hcheck', hcheck]
  rw [if_neg (by rw [herr', herr]; exact not_not.mpr rfl), getData, hsize']
  by_cases h0 : pktDsize reply = 0
  · rw [if_neg (not_not.mpr h0), h0]
  · rw [if_pos h0, conRecv, conXfer_flood rfl (fun _ => rfl) (Nat.pos_of_ne_zero h0) (hmax.trans hlimit)]
    simp only [move]
    split_ifs <;> exact Nat.add_sub_cancel_left ..

/-- **Replies to a read.** A reply that passed the check is safe for a buffer exactly when it announces no more than
the buffer has. -/
theorem getSafe_iff (hcheck : netPktCheck csum reply = .ok ()) (herr : pktErr reply = 0) :
    GetSafe csum reply dataSize ↔ pktDsize reply ≤ dataSize := by
  constructor
  · intro hsafe
    have hle := (hsafe 1 (.flood reply) [] 0 (fun _ => 0) fun i _ => by rw [Con.flood, Nat.zero_add]).1
    rw [getObject_flood [] 0 _ dataSize hcheck herr] at hle
    exact hle
  · intro hle fuel con objId off data harr
    dsimp only
    rcases getObject_cases fuel objId off data dataSize harr hcheck herr with
      ⟨hzero, hno⟩ | ⟨con', reply', hsame, hget⟩
    · rw [hzero]
      exact ⟨Nat.zero_le _, fun h0 => absurd h0 hno⟩
    · obtain ⟨hwritten, hpread⟩ := getData_spec csum fuel con' reply' data
      have hsize := (pkt_congr csum hsame).1
      rw [hget]
      rw [hsize] at hwritten hpread
      exact ⟨hwritten.trans hle, fun h0 => ⟨_, hle, hpread h0⟩⟩

end get

end Nkfs.Client
