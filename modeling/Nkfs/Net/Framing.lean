import Nkfs.Net.Server

/-!
# Framing of a connection

Each function of the connection either does its part of the stream exactly, or leaves the connection
failed, which only a socket call that fails can cause (`Broken`). From this the handlers follow one
by one, then a round of the thread (`serve_spec`) and its runs.
-/

namespace Nkfs

open Lib.Bytes Lib.Program List

/-- No call of the socket fails. -/
def Sock.Fine (s : Sock) : Prop := ∀ t, s.readOk t = true ∧ s.wrote t = none

/-- The connection failed because a call of the socket did. -/
def Broken (con con' : Con) : Prop := con'.err ≠ none ∧ ¬ con.sock.Fine

/-- Working, with what is left to read and what was written. -/
structure Live (con con' : Con) (inp out : List UInt8) : Prop where
  err : con'.err = none
  inp : con'.inp = inp
  out : con'.out = out
  sock : con'.sock = con.sock

section

variable {csum : List UInt8 → UInt64} {con con' con'' : Con} {a b bs : List UInt8} {pkt reply data : Mem}
  {o : Outcome} {err : Except Errno Unit}

lemma Broken.of_live {inp out : List UInt8} (hl : Live con con' inp out) (hb : Broken con' con'') :
    Broken con con'' := ⟨hb.1, hl.sock ▸ hb.2⟩

/-! ### The socket -/

lemma conFail_run {e : Errno} : conFail e con = .ok ((), con.failed e) := rfl

lemma Con.failed_err {e : Errno} : (con.failed e).err ≠ none := by
  rw [Con.failed]
  cases con.err <;> exact Option.some_ne_none _

lemma conRecv_spec (herr : con.err = none) (hinp : con.inp = a ++ b) :
    Runs (conRecv a.length) con fun r con' =>
      (r = .ok a ∧ Live con con' b con.out) ∨ ((∃ e, r = .error e) ∧ Broken con con') := by
  obtain ⟨err, inp, out, sock, tick⟩ := con
  obtain rfl : err = none := herr
  obtain rfl : inp = a ++ b := hinp
  refine Runs.get ?_
  show Runs (if sock.readOk tick = true ∧ a.length ≤ (a ++ b).length then _ else _) _ _
  by_cases hok : sock.readOk tick = true
  · rw [if_pos ⟨hok, by rw [length_append]; omega⟩]
    refine Runs.set (Runs.pure (.inl ⟨?_, rfl, drop_left, rfl, rfl⟩))
    rw [take_left]
  · rw [if_neg fun h => hok h.1]
    exact Runs.set (Runs.step conFail_run
      (Runs.pure (.inr ⟨⟨_, rfl⟩, Con.failed_err, fun hfine => hok (hfine _).1⟩)))

lemma conSend_spec (herr : con.err = none) (bs : List UInt8) : Runs (conSend bs) con fun r con' =>
    (r = .ok () ∧ Live con con' con.inp (con.out ++ bs)) ∨ ((∃ e, r = .error e) ∧ Broken con con') := by
  obtain ⟨err, inp, out, sock, tick⟩ := con
  obtain rfl : err = none := herr
  refine Runs.get ?_
  dsimp only
  cases hw : sock.wrote tick with
  | none => exact Runs.set (Runs.pure (.inl ⟨rfl, rfl, rfl, rfl, rfl⟩))
  | some k =>
    refine Runs.set (Runs.step conFail_run (Runs.pure (.inr ⟨⟨_, rfl⟩, Con.failed_err, fun hfine => ?_⟩)))
    have hnone : sock.wrote tick = none := (hfine _).2
    rw [hw] at hnone
    cases hnone

lemma conSendReply_spec (herr : con.err = none) (reply : Mem) (err : Except Errno Unit) :
    Runs (conSendReply csum reply err) con fun r con' =>
      (r = .ok () ∧ Live con con' con.inp
        (con.out ++ slice (netPktSign csum (storeLe reply errOff 4 (resCode err))) 0 pktSize)) ∨
      ((∃ e, r = .error e) ∧ Broken con con') := conSend_spec herr _

/-! ### Pages -/

lemma le_pagesFor (len : ℕ) : len ≤ pagesFor len * pageSize := by
  have hmod := Nat.div_add_mod len pageSize
  have hlt : len % pageSize < pageSize := Nat.mod_lt _ (by decide)
  rw [pagesFor]
  split_ifs with h
  · rw [Nat.add_mul, mul_comm (len / pageSize)]
    omega
  · rw [add_zero, mul_comm]
    omega

/-- The length of the next piece of `len + 1` bytes. -/
lemma piece_spec (len : ℕ) : let l := if len + 1 > pageSize then pageSize else len + 1
    0 < l ∧ l ≤ len + 1 ∧ l ≤ pageSize ∧ (len + 1 ≤ pageSize → l = len + 1) ∧
      (pageSize < len + 1 → l = pageSize) := by
  have hpos : 0 < pageSize := by decide
  dsimp only
  split_ifs with h
  · exact ⟨hpos, by omega, le_refl _, by omega, fun _ => rfl⟩
  · exact ⟨by omega, le_refl _, by omega, fun _ => rfl, by omega⟩

lemma recvLoop_spec {left : ℕ} (herr : con.err = none) (hinp : con.inp = a ++ b)
    (hleft : a.length ≤ left * pageSize) : Runs (recvLoop left a.length) con fun r con' =>
      (r = .ok a ∧ Live con con' b con.out) ∨ ((∃ e, r = .error e) ∧ Broken con con') := by
  induction left generalizing con a with
  | zero =>
    obtain rfl : a = [] := length_eq_zero_iff.mp (by omega)
    exact Runs.pure (.inl ⟨rfl, herr, hinp, rfl, rfl⟩)
  | succ left ih =>
    cases hlen : a.length with
    | zero =>
      obtain rfl := length_eq_zero_iff.mp hlen
      exact Runs.pure (.inl ⟨rfl, herr, hinp, rfl, rfl⟩)
    | succ read =>
      obtain ⟨hpos, hle, hpage, hall, hfull⟩ := piece_spec read
      rw [recvLoop]
      generalize (if read + 1 > pageSize then pageSize else read + 1) = l at *
      have htake : (a.take l).length = l := by rw [length_take]; omega
      have hdrop : (a.drop l).length = read + 1 - l := by rw [length_drop]; omega
      have hsplit : con.inp = a.take l ++ (a.drop l ++ b) := by
        rw [hinp, ← append_assoc, take_append_drop]
      have hrecv := conRecv_spec herr hsplit
      rw [htake] at hrecv
      refine hrecv.bind fun r con₁ hr => ?_
      rcases hr with ⟨rfl, hl⟩ | ⟨⟨e, rfl⟩, hb⟩
      · have hrest := ih (a := a.drop l) hl.err hl.inp (by
          rw [hdrop]
          rw [hlen, Nat.add_mul] at hleft
          rcases Nat.lt_or_ge pageSize (read + 1) with h | h
          · rw [hfull h]
            omega
          · rw [hall h]
            omega)
        rw [hdrop] at hrest
        refine hrest.bind fun r con₂ hr => ?_
        rcases hr with ⟨rfl, hl₂⟩ | ⟨⟨e, rfl⟩, hb⟩
        · refine Runs.pure (.inl ⟨?_, hl₂.err, hl₂.inp, hl₂.out.trans hl.out, hl₂.sock.trans hl.sock⟩)
          rw [take_append_drop]
        · exact Runs.pure (.inr ⟨⟨e, rfl⟩, hb.of_live hl⟩)
      · exact Runs.step conFail_run (Runs.pure (.inr ⟨⟨e, rfl⟩, Con.failed_err, hb.2⟩))

lemma sendLoop_spec {left len off : ℕ} (herr : con.err = none) (hleft : len ≤ left * pageSize) :
    Runs (sendLoop data left len off) con fun r con' =>
      (r = .ok () ∧ Live con con' con.inp (con.out ++ slice data off len)) ∨
      ((∃ e, r = .error e) ∧ Broken con con') := by
  induction left generalizing con len off with
  | zero =>
    obtain rfl : len = 0 := by omega
    exact Runs.pure (.inl ⟨rfl, herr, rfl, (append_nil _).symm, rfl⟩)
  | succ left ih =>
    cases len with
    | zero => exact Runs.pure (.inl ⟨rfl, herr, rfl, (append_nil _).symm, rfl⟩)
    | succ len =>
      obtain ⟨hpos, hle, hpage, hall, hfull⟩ := piece_spec len
      rw [sendLoop]
      generalize (if len + 1 > pageSize then pageSize else len + 1) = l at *
      refine (conSend_spec herr _).bind fun r con₁ hr => ?_
      rcases hr with ⟨rfl, hl⟩ | ⟨⟨e, rfl⟩, hb⟩
      · have hrest : Runs (sendLoop data left (len + 1 - l) (off + l)) con₁ _ := ih hl.err (by
          rw [Nat.add_mul] at hleft
          rcases Nat.lt_or_ge pageSize (len + 1) with h | h
          · rw [hfull h]
            omega
          · rw [hall h]
            omega)
        refine hrest.mono fun r con₂ hr => ?_
        rcases hr with ⟨rfl, hl₂⟩ | ⟨he, hb⟩
        · refine .inl ⟨rfl, hl₂.err, hl₂.inp.trans hl.inp, ?_, hl₂.sock.trans hl.sock⟩
          rw [hl₂.out, hl.out, append_assoc, ← slice_add, Nat.add_sub_cancel' hle]
        · exact .inr ⟨he, hb.of_live hl⟩
      · exact Runs.step conFail_run (Runs.pure (.inr ⟨⟨e, rfl⟩, Con.failed_err, hb.2⟩))

/-! ### Handlers -/

lemma resCode_lt (err : Except Errno Unit) : resCode err < 256 ^ 4 := by
  rcases err with e | _
  · cases e <;> decide
  · show 0 < 256 ^ 4
    decide

lemma resCode_error (e : Errno) : resCode (.error e) ≠ 0 := by
  cases e <;> decide

/-- One reply was sent, with its data if it answers a get with success. -/
def Answers (csum : List UInt8 → UInt64) (get : Prop) [Decidable get] (con con' : Con) : Prop :=
  ∃ reply data, netPktCheck csum reply = .ok () ∧ con'.out = con.out ++ slice reply 0 pktSize ++ data ∧
    data.length = if get ∧ pktErr reply = 0 then pktDsize reply else 0

/-- The packet that `conSendReply` sends. -/
def sentReply (csum : List UInt8 → UInt64) (reply : Mem) (err : Except Errno Unit) : Mem :=
  netPktSign csum (storeLe reply errOff 4 (resCode err))

lemma pktDsize_sentReply : pktDsize (sentReply csum reply err) = pktDsize reply := by
  rw [sentReply, pktDsize_sign, pktDsize, loadLe_storeLe_of_disjoint (by decide)]
  rfl

lemma pktErr_sentReply : pktErr (sentReply csum reply err) = resCode err := by
  rw [sentReply, pktErr_sign, pktErr, loadLe_storeLe, Nat.mod_eq_of_lt (resCode_lt err)]

lemma netPktCheck_sentReply (hsize : pktDsize reply ≤ netPktMaxDsize) :
    netPktCheck csum (sentReply csum reply err) = .ok () := by
  refine netPktCheck_sign ?_
  rw [pktDsize, loadLe_storeLe_of_disjoint (by decide)]
  exact hsize

/-- A reply without data. -/
lemma conSendReply_answers {get : Prop} [Decidable get] (herr : con.err = none)
    (hsize : pktDsize reply ≤ netPktMaxDsize) (hnone : get → err = .ok () → pktDsize reply = 0) :
    Runs (conSendReply csum reply err) con fun _ con' =>
      (con'.err = none ∧ con'.inp = con.inp ∧ Answers csum get con con') ∨ Broken con con' := by
  refine (conSendReply_spec herr reply err).mono fun r con' hr => ?_
  rcases hr with ⟨-, hl⟩ | ⟨-, hb⟩
  · refine .inl ⟨hl.err, hl.inp, sentReply csum reply err, [], netPktCheck_sentReply hsize, ?_, ?_⟩
    · rw [hl.out, append_nil]
      rfl
    · rw [pktErr_sentReply, pktDsize_sentReply]
      split_ifs with h
      · rcases err with e | _
        · exact absurd h.2 (resCode_error e)
        · exact (hnone h.1 rfl).symm
      · rfl
  · exact .inr hb

lemma loadLe_zero (off n : ℕ) : loadLe zeroPkt off n = 0 := by
  induction n generalizing off with
  | zero => rfl
  | succ n ih =>
    rw [loadLe, ih]
    rfl

lemma pktDsize_zero : pktDsize zeroPkt = 0 := loadLe_zero _ _

/-- The handlers that only reply. -/
lemma conReply_spec {get : Prop} [Decidable get] (herr : con.err = none) (hget : ¬ get) (u : Mem) :
    Runs (conReply csum zeroPkt err u) con fun _ con' =>
      (con'.err = none ∧ con'.inp = con.inp ∧ Answers csum get con con') ∨ Broken con con' := by
  refine conSendReply_answers herr ?_ fun h => absurd h hget
  have hdsize : pktDsize (copyIn zeroPkt uOff u uSize) = 0 := by
    rw [← pktDsize_zero]
    exact loadLe_congr fun i hi => copyIn_of_lt (by
      show dsizeOff + i < uOff
      rw [dsizeOff, uOff]
      omega)
  rw [hdsize]
  exact Nat.zero_le _

/-- **`nkfs_con_get_obj`** on a request for at least one byte -/
theorem conGetObj_spec (herr : con.err = none) (hpos : pktDsize pkt ≠ 0) (hsize : pktDsize pkt ≤ netPktMaxDsize) :
    Runs (conGetObj csum o pkt zeroPkt) con fun _ con' =>
      (con'.err = none ∧ con'.inp = con.inp ∧ Answers csum True con con') ∨ Broken con con' := by
  have hfail : ∀ e : Errno, Runs (do
      let _ ← conSendReply csum zeroPkt (.error e)
      return .error e : N (Except Errno Unit)) con fun _ con' =>
      (con'.err = none ∧ con'.inp = con.inp ∧ Answers csum True con con') ∨ Broken con con' := by
    intro e
    have hsend : Runs (conSendReply csum zeroPkt (.error e)) con fun _ con' =>
        (con'.err = none ∧ con'.inp = con.inp ∧ Answers csum True con con') ∨ Broken con con' :=
      conSendReply_answers herr (by rw [pktDsize_zero]; exact Nat.zero_le _) fun _ h => nomatch h
    exact hsend.bind fun _ con' hr => Runs.pure hr
  rw [conGetObj, if_neg (not_or.mpr ⟨hpos, by omega⟩)]
  cases o.pagesMem with
  | false => exact hfail .enomem
  | true =>
    rw [if_neg (by decide)]
    rcases o.getObj with e | ⟨read, data⟩
    · exact hfail e
    · dsimp only
      by_cases hread : read = 0
      · have hdsize : pktDsize (storeLe zeroPkt dsizeOff 4 read) = 0 := by
          rw [pktDsize, loadLe_storeLe, hread]
          rfl
        rw [if_pos hread]
        exact conSendReply_answers herr (by rw [hdsize]; exact Nat.zero_le _) fun _ _ => hdsize
      · rw [if_neg hread, pagesDsum]
        by_cases hlt : pktDsize pkt < read
        · rw [if_pos hlt]
          exact hfail .einval
        · rw [if_neg hlt]
          dsimp only
          have hmax : netPktMaxDsize < 256 ^ 4 := by decide
          generalize hm : storeLe (storeLe zeroPkt dsumOff 8 _) dsizeOff 4 read = m
          have hdsize : pktDsize m = read := by
            rw [← hm, pktDsize, loadLe_storeLe, Nat.mod_eq_of_lt (by omega)]
          refine (conSendReply_spec herr m (.ok ())).bind fun r con₁ hr => ?_
          rcases hr with ⟨rfl, hl⟩ | ⟨⟨e, rfl⟩, hb⟩
          · rw [conSendPages, if_neg hlt]
            have hle := le_pagesFor (pktDsize pkt)
            refine (sendLoop_spec hl.err (by omega)).mono fun r con₂ hr => ?_
            rcases hr with ⟨-, hl₂⟩ | ⟨-, hb⟩
            · refine .inl ⟨hl₂.err, hl₂.inp.trans hl.inp, sentReply csum m (.ok ()), slice data 0 read,
                netPktCheck_sentReply (by omega), ?_, ?_⟩
              · rw [hl₂.out, hl.out]
                rfl
              · rw [slice_length, pktErr_sentReply, pktDsize_sentReply, hdsize]
                exact (if_pos ⟨trivial, rfl⟩).symm
            · exact .inr (hb.of_live hl)
          · exact Runs.pure (.inr hb)

/-- **`nkfs_con_put_obj`** on a request whose pages can be allocated -/
theorem conPutObj_spec (herr : con.err = none) (hinp : con.inp = a ++ b) (hlen : a.length = pktDsize pkt)
    (hsize : pktDsize pkt ≤ netPktMaxDsize) (hmem : pktDsize pkt ≠ 0 → o.pagesMem = true) :
    Runs (conPutObj csum o pkt zeroPkt) con fun _ con' =>
      (con'.err = none ∧ con'.inp = b ∧ Answers csum False con con') ∨ Broken con con' := by
  -- the payload is read, or the connection failed
  have hrecv : Runs (conRecvPages csum o pkt) con fun r con' =>
      Live con con' b con.out ∨ ((∃ e, r = .error e) ∧ Broken con con') := by
    rw [conRecvPages]
    by_cases hzero : pktDsize pkt = 0
    · rw [if_pos (.inl hzero)]
      obtain rfl : a = [] := List.length_eq_zero_iff.mp (by omega)
      exact Runs.pure (.inl ⟨herr, hinp, rfl, rfl⟩)
    · rw [if_neg (not_or.mpr ⟨hzero, by omega⟩), hmem hzero, if_neg (by decide), ← hlen]
      refine (recvLoop_spec herr hinp (le_pagesFor _)).bind fun r con₁ hr => ?_
      rcases hr with ⟨rfl, hl⟩ | ⟨⟨e, rfl⟩, hb⟩
      · dsimp only
        rw [pagesDsum, if_neg (Nat.lt_irrefl _)]
        dsimp only
        split_ifs
        · exact Runs.pure (.inl hl)
        · exact Runs.pure (.inl hl)
      · exact Runs.pure (.inr ⟨⟨e, rfl⟩, hb⟩)
  have hreply : ∀ {con₁ : Con} (err : Except Errno Unit), Live con con₁ b con.out →
      Runs (conSendReply csum zeroPkt err) con₁ fun _ con' =>
        (con'.err = none ∧ con'.inp = b ∧ Answers csum False con con') ∨ Broken con con' := by
    intro con₁ err hl
    have hsend : Runs (conSendReply csum zeroPkt err) con₁ fun _ con' =>
        (con'.err = none ∧ con'.inp = con₁.inp ∧ Answers csum False con₁ con') ∨ Broken con₁ con' :=
      conSendReply_answers hl.err (by rw [pktDsize_zero]; exact Nat.zero_le _) fun h => h.elim
    refine hsend.mono fun r con' hr => ?_
    rcases hr with ⟨herr', hinp', hans⟩ | hb
    · refine .inl ⟨herr', hinp'.trans hl.inp, ?_⟩
      rwa [Answers, hl.out] at hans
    · exact .inr (hb.of_live hl)
  refine hrecv.bind fun r con₁ hr => ?_
  rcases r with e | data
  · rcases hr with hl | ⟨-, hb⟩
    · refine Runs.get ?_
      rw [if_pos hl.err]
      exact (hreply (.error e) hl).bind fun _ _ hr => Runs.pure hr
    · refine Runs.get ?_
      rw [if_neg hb.1]
      exact Runs.pure (.inr hb)
  · rcases hr with hl | ⟨⟨e, he⟩, -⟩
    · exact hreply o.putObj hl
    · cases he

/-! ### Rounds and runs -/

/-- **`nkfs_con_process_pkt`** on an admissible request whose packet was read -/
theorem conProcessPkt_spec {req : Req csum} (herr : con.err = none) (hinp : con.inp = req.payload ++ b)
    (hadm : Admissible req o) : Runs (conProcessPkt csum o (memOf req.bytes)) con fun _ con' =>
      con'.err ≠ none ∨ (con'.err = none ∧ con'.inp = b ∧ Answers csum (req.type = .getObj) con con') := by
  have hsize := dsize_le_of_check req.check
  -- the handlers without payload
  have hreply : ∀ err u, pktType (memOf req.bytes) ≠ .putObj → req.type ≠ .getObj →
      Runs (conReply csum zeroPkt err u) con fun _ con' =>
        con'.err ≠ none ∨ (con'.err = none ∧ con'.inp = b ∧ Answers csum (req.type = .getObj) con con') := by
    intro err u hput hget
    have hnil := req.payload_length
    rw [if_neg hput] at hnil
    rw [List.length_eq_zero_iff.mp hnil, List.nil_append] at hinp
    refine (conReply_spec herr hget u).mono fun _ con' hr => ?_
    rcases hr with ⟨herr', hinp', hans⟩ | hb
    · exact .inr ⟨herr', hinp'.trans hinp, hans⟩
    · exact .inl hb.1
  rw [conProcessPkt]
  split_ifs with hmem
  · exact Runs.step conFail_run (Runs.pure (.inl Con.failed_err))
  · cases htype : pktType (memOf req.bytes) with
    | putObj =>
      have hlen := req.payload_length
      rw [if_pos htype] at hlen
      refine (conPutObj_spec herr hinp hlen hsize (hadm.2 htype)).mono fun _ con' hr => ?_
      rcases hr with ⟨herr', hinp', hans⟩ | hb
      · refine .inr ⟨herr', hinp', ?_⟩
        have hget : ¬ req.type = .getObj := by rw [Req.type, htype]; decide
        simpa only [Answers, hget, false_and, if_false] using hans
      · exact .inl hb.1
    | getObj =>
      have hnil := req.payload_length
      rw [if_neg (by rw [htype]; decide)] at hnil
      rw [List.length_eq_zero_iff.mp hnil, List.nil_append] at hinp
      refine (conGetObj_spec herr (hadm.1 htype) hsize).mono fun _ con' hr => ?_
      rcases hr with ⟨herr', hinp', hans⟩ | hb
      · refine .inr ⟨herr', hinp'.trans hinp, ?_⟩
        have hget : req.type = .getObj := htype
        simpa only [Answers, hget, true_and] using hans
      · exact .inl hb.1
    | echo => exact hreply _ _ (by rw [htype]; decide) (by rw [Req.type, htype]; decide)
    | deleteObj => exact hreply _ _ (by rw [htype]; decide) (by rw [Req.type, htype]; decide)
    | queryObj => exact hreply _ _ (by rw [htype]; decide) (by rw [Req.type, htype]; decide)
    | createObj => exact hreply _ _ (by rw [htype]; decide) (by rw [Req.type, htype]; decide)
    | neighHandshake => exact hreply _ _ (by rw [htype]; decide) (by rw [Req.type, htype]; decide)
    | neighHeartbeat => exact hreply _ _ (by rw [htype]; decide) (by rw [Req.type, htype]; decide)
    | unknown => exact hreply _ _ (by rw [htype]; decide) (by rw [Req.type, htype]; decide)

/-- The packet of a request is read, or the socket failed. -/
lemma conRecvPkt_spec (req : Req csum) (herr : con.err = none) (hinp : con.inp = req.bytes ++ b) :
    Runs (conRecvPkt csum) con fun r con' =>
      (r = .ok (memOf req.bytes) ∧ Live con con' b con.out) ∨ ((∃ e, r = .error e) ∧ Broken con con') := by
  have hrecv := conRecv_spec herr hinp
  rw [req.length] at hrecv
  refine hrecv.bind fun r con₁ hr => ?_
  rcases hr with ⟨rfl, hl⟩ | ⟨⟨e, rfl⟩, hb⟩
  · dsimp only
    rw [req.check]
    exact Runs.pure (.inl ⟨rfl, hl⟩)
  · exact Runs.pure (.inr ⟨⟨e, rfl⟩, hb⟩)

/-- **A round of the thread** on an admissible request -/
theorem serve_spec {req : Req csum} (herr : con.err = none) (hinp : con.inp = req.stream ++ b)
    (hadm : Admissible req o) : Runs (serve csum o) con fun _ con' =>
      con'.err ≠ none ∨ (con'.err = none ∧ con'.inp = b ∧ Handled req con con') := by
  rw [serve]
  split_ifs with hmem
  · exact Runs.intro conFail_run (.inl Con.failed_err)
  · rw [Req.stream, List.append_assoc] at hinp
    refine (conRecvPkt_spec req herr hinp).bind fun r con₁ hr => ?_
    rcases hr with ⟨rfl, hl⟩ | ⟨⟨e, rfl⟩, hb⟩
    · refine (conProcessPkt_spec hl.err hl.inp hadm).bind fun _ con₂ hr => Runs.pure ?_
      rcases hr with hfail | ⟨herr₂, hinp₂, hans⟩
      · exact .inl hfail
      · refine .inr ⟨herr₂, hinp₂, ?_, ?_⟩
        · rw [hinp, hinp₂, Req.stream, List.append_assoc]
        · rwa [Answers, hl.out] at hans
    · exact Runs.pure (.inl hb.1)

/-- A get of no bytes is not answered. -/
lemma serve_get_zero {req : Req csum} (herr : con.err = none) (hinp : con.inp = req.stream ++ b)
    (hfine : con.sock.Fine) (hpkt : o.pktMem = true) (hreply : o.replyMem = true)
    (hget : req.type = .getObj) (hzero : req.dsize = 0) :
    Runs (serve csum o) con fun _ con' => con'.err = none ∧ con'.out = con.out := by
  rw [serve, if_neg (by rw [hpkt]; decide)]
  rw [Req.stream, append_assoc] at hinp
  refine (conRecvPkt_spec req herr hinp).bind fun r con₁ hr => ?_
  rcases hr with ⟨rfl, hl⟩ | ⟨-, hb⟩
  · dsimp only
    rw [Req.type] at hget
    rw [conProcessPkt, if_neg (by rw [hreply]; decide), hget, conGetObj, if_pos (.inl hzero)]
    exact Runs.pure ⟨hl.err, hl.out⟩
  · exact absurd hfine hb.2

/-- The payload of a put without pages is not read. -/
lemma serve_put_nomem {req : Req csum} (herr : con.err = none) (hinp : con.inp = req.stream ++ b)
    (hfine : con.sock.Fine) (hpkt : o.pktMem = true) (hreply : o.replyMem = true)
    (hput : req.type = .putObj) (hpos : req.dsize ≠ 0) (hmem : o.pagesMem = false) :
    Runs (serve csum o) con fun _ con' => con'.err = none ∧ con'.inp = req.payload ++ b := by
  have hsize := dsize_le_of_check req.check
  rw [Req.dsize] at hpos
  rw [serve, if_neg (by rw [hpkt]; decide)]
  rw [Req.stream, append_assoc] at hinp
  refine (conRecvPkt_spec req herr hinp).bind fun r con₁ hr => ?_
  rcases hr with ⟨rfl, hl⟩ | ⟨-, hb⟩
  · dsimp only
    rw [Req.type] at hput
    have hrecv : conRecvPages csum o (memOf req.bytes) = pure (.error .enomem) := by
      rw [conRecvPages, if_neg (not_or.mpr ⟨hpos, by omega⟩), if_pos hmem]
    rw [conProcessPkt, if_neg (by rw [hreply]; decide), hput, conPutObj, hrecv]
    have hsend : Runs (conSendReply csum zeroPkt (.error .enomem)) con₁ fun _ con' =>
        con'.err = none ∧ con'.inp = req.payload ++ b := by
      refine (conSendReply_spec hl.err zeroPkt _).mono fun _ con' hr => ?_
      rcases hr with ⟨-, hl'⟩ | ⟨-, hb⟩
      · exact ⟨hl'.err, hl'.inp.trans hl.inp⟩
      · exact absurd (hl.sock ▸ hfine) hb.2
    refine Runs.bind (Runs.step rfl (Runs.get ?_)) fun _ con' hr => Runs.pure hr
    rw [if_pos hl.err]
    exact hsend.bind fun _ con' hr => Runs.pure hr
  · exact absurd hfine hb.2

/-- **Framing.** A run of admissible requests is handled in turn until the connection fails. A request
that is not admissible is not handled, whatever follows, on a connection that does not fail. -/
theorem serve_framed (csum : List UInt8 → UInt64) :
    (∀ (run : List (Req csum × Outcome)) (con : Con) (tail : List UInt8), con.err = none →
      con.inp = run.flatMap (fun x => x.1.stream) ++ tail → (∀ x ∈ run, Admissible x.1 x.2) → FramedRun run con) ∧
    (∀ (req : Req csum) (o : Outcome) (con : Con) (tail : List UInt8), con.err = none →
      con.inp = req.stream ++ tail → con.sock.Fine → o.pktMem = true → o.replyMem = true →
      ¬ Admissible req o → ¬ FramedRun [(req, o)] con) := by
  constructor
  · intro run
    induction run with
    | nil => exact fun _ _ _ _ _ => trivial
    | cons x run ih =>
      intro con tail herr hinp hadm
      rw [List.flatMap_cons, List.append_assoc] at hinp
      obtain ⟨_, con', hserve, hr⟩ := serve_spec herr hinp (hadm x List.mem_cons_self)
      refine ⟨con', hserve, ?_⟩
      rcases hr with hfail | ⟨herr', hinp', hhandled⟩
      · exact .inl hfail
      · exact .inr ⟨hhandled, ih con' tail herr' hinp' fun y hy => hadm y (List.mem_cons_of_mem _ hy)⟩
  · intro req o con tail herr hinp hfine hpkt hreply hadm ⟨con', hserve, hr⟩
    rw [Admissible, not_and_or, Classical.not_imp, not_not, Classical.not_imp, Classical.not_imp,
      Bool.not_eq_true] at hadm
    rcases hadm with ⟨hget, hzero⟩ | ⟨hput, hpos, hmem⟩
    · -- nothing was sent
      obtain ⟨herr', hout⟩ := (serve_get_zero herr hinp hfine hpkt hreply hget hzero).result hserve
      rcases hr with hfail | ⟨⟨-, reply, data, -, hsent, -⟩, -⟩
      · exact hfail herr'
      · have hlen := congrArg List.length (hout.symm.trans hsent)
        rw [List.append_assoc, List.length_append, List.length_append, slice_length] at hlen
        have hpos : 0 < pktSize := by decide
        omega
    · -- the payload was left
      obtain ⟨herr', hinp'⟩ := (serve_put_nomem herr hinp hfine hpkt hreply hput hpos hmem).result hserve
      rcases hr with hfail | ⟨⟨hread, -⟩, -⟩
      · exact hfail herr'
      · have hlen := congrArg List.length (hinp.symm.trans hread)
        have hpayload := req.payload_length
        rw [Req.type] at hput
        rw [if_pos hput] at hpayload
        rw [Req.dsize] at hpos
        rw [hinp', List.length_append, List.length_append, List.length_append] at hlen
        omega

end

/-! ### Requests without payload -/

section

variable {csum : List UInt8 → UInt64}

lemma memOf_slice (m : Mem) {i n : ℕ} (h : i < n) : memOf (slice m 0 n) i = m i := by
  rw [memOf, getD_eq_getElem _ _ (by rw [slice_length]; exact h)]
  simp [slice]

lemma loadLe_memOf_slice (m : Mem) {off n : ℕ} (h : off + n ≤ pktSize) :
    loadLe (memOf (slice m 0 pktSize)) off n = loadLe m off n :=
  loadLe_congr fun i hi => memOf_slice m (by omega)

lemma netPktCheck_memOf_slice (m : Mem) :
    netPktCheck csum (memOf (slice m 0 pktSize)) = netPktCheck csum m := by
  have hsum : netPktSum csum (memOf (slice m 0 pktSize)) = netPktSum csum m := by
    rw [netPktSum, netPktSum, slice_zero_congr fun i hi => memOf_slice m (lt_trans hi (by decide))]
  rw [netPktCheck, netPktCheck, pktDsize, pktDsize, hsum, loadLe_memOf_slice m (by decide),
    loadLe_memOf_slice m (by decide), loadLe_memOf_slice m (by decide), loadLe_memOf_slice m (by decide)]

/-- The signed packet of a type with all other fields 0. -/
def barePkt (csum : List UInt8 → UInt64) (type : ℕ) : Mem := netPktSign csum (storeLe zeroPkt typeOff 4 type)

lemma pktDsize_bare (csum : List UInt8 → UInt64) (type : ℕ) : pktDsize (barePkt csum type) = 0 := by
  rw [barePkt, pktDsize_sign, pktDsize, loadLe_storeLe_of_disjoint (by decide), loadLe_zero]

lemma pktType_bare (csum : List UInt8 → UInt64) (type : ℕ) : pktType (barePkt csum type) = pktTypeOf (type % 256 ^ 4) := by
  rw [barePkt, pktType, loadLe_sign (by decide) (by decide), loadLe_storeLe]

/-- The request of a type without payload. -/
def bareReq (csum : List UInt8 → UInt64) (type : ℕ) : Req csum where
  bytes := slice (barePkt csum type) 0 pktSize
  payload := []
  length := slice_length _ _ _
  check := by
    rw [netPktCheck_memOf_slice]
    refine netPktCheck_sign ?_
    rw [pktDsize, loadLe_storeLe_of_disjoint (by decide), loadLe_zero]
    exact Nat.zero_le _
  payload_length := by
    have hdsize : pktDsize (memOf (slice (barePkt csum type) 0 pktSize)) = 0 := by
      rw [pktDsize, loadLe_memOf_slice _ (by decide)]
      exact pktDsize_bare csum type
    rw [hdsize, ite_self]
    rfl

lemma bareReq_type (type : ℕ) : (bareReq csum type).type = pktTypeOf (type % 256 ^ 4) := by
  rw [← pktType_bare csum type]
  exact congrArg pktTypeOf (loadLe_memOf_slice _ (by decide))

lemma bareReq_dsize (type : ℕ) : (bareReq csum type).dsize = 0 := by
  rw [← pktDsize_bare csum type]
  exact loadLe_memOf_slice _ (by decide)

end

/-- A connection with the bytes to read and a socket that works. -/
def freshCon (inp : List UInt8) : Con :=
  { err := none, inp := inp, out := [], sock := { readOk := fun _ => true, wrote := fun _ => none }, tick := 0 }

/-- Every allocation and operation succeeds. -/
def fineOutcome : Outcome :=
  { pktMem := true, replyMem := true, pagesMem := true, getObj := .ok (0, zeroPkt), putObj := .ok (),
    other := .ok (), u := zeroPkt }

/-- An echo and a put without data are handled in turn; a get of no bytes is not. -/
theorem serve_framed_echo :
    FramedRun [(bareReq (fun _ => 0) 1, fineOutcome), (bareReq (fun _ => 0) 3, fineOutcome)]
      (freshCon ((bareReq (fun _ => 0) 1).stream ++ (bareReq (fun _ => 0) 3).stream)) ∧
    ¬ FramedRun [(bareReq (fun _ => 0) 2, fineOutcome)] (freshCon (bareReq (fun _ => 0) 2).stream) := by
  constructor
  · refine (serve_framed _).1 _ _ [] rfl ?_ fun x hx => ?_
    · simp [freshCon]
    · simp only [List.mem_cons, List.not_mem_nil, or_false] at hx
      rcases hx with rfl | rfl
      · constructor
        · intro hget
          rw [bareReq_type] at hget
          cases hget
        · exact fun _ hpos => absurd (bareReq_dsize 1) hpos
      · constructor
        · intro hget
          rw [bareReq_type] at hget
          cases hget
        · exact fun _ hpos => absurd (bareReq_dsize 3) hpos
  · refine (serve_framed _).2 _ _ _ [] rfl (List.append_nil _).symm (fun _ => ⟨rfl, rfl⟩) rfl rfl fun h => ?_
    exact h.1 (bareReq_type 2) (bareReq_dsize 2)

/-- **A reply is lost.** For no checksum is every stream of requests handled in turn until the
connection fails: a get of no bytes is consumed without a reply. -/
theorem not_serve_framed : ¬ ∃ csum : List UInt8 → UInt64,
    ∀ (run : List (Req csum × Outcome)) (con : Con) (tail : List UInt8), con.err = none →
      con.inp = run.flatMap (fun x => x.1.stream) ++ tail → FramedRun run con := by
  rintro ⟨csum, hall⟩
  have hinp : (freshCon (bareReq csum 2).stream).inp = (bareReq csum 2).stream ++ [] := (List.append_nil _).symm
  obtain ⟨con', hserve, hr⟩ := hall [(bareReq csum 2, fineOutcome)] (freshCon (bareReq csum 2).stream) [] rfl
    (by simp [freshCon])
  obtain ⟨herr', hout⟩ := (serve_get_zero rfl hinp (fun _ => ⟨rfl, rfl⟩) rfl rfl (bareReq_type 2)
    (bareReq_dsize 2)).result hserve
  rcases hr with hfail | ⟨⟨-, reply, data, -, hsent, -⟩, -⟩
  · exact hfail herr'
  · have hlen := congrArg List.length (hout.symm.trans hsent)
    rw [List.append_assoc, List.length_append, List.length_append, slice_length] at hlen
    have hpos : 0 < pktSize := by decide
    omega

end Nkfs
