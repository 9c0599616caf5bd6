import Nkfs.Client.Object
import Nkfs.Route.Heartbeat

/-!
# Replies of peers

What a peer sends back is checked for its signatures, its checksum and a constant bound on the payload. The
receivers then go by two more numbers of the packet: a heartbeat walks `nr_neighs` entries of the array `neigh`,
which has sixteen, and a client that reads an object receives `dsize` bytes into a buffer of `data_size`. Neither
is compared with the room there is. An accepted reply is read within bounds exactly when its own numbers are
(`reply_bounds_iff`).
-/

namespace Nkfs

open Lib.Bytes Lib.Program Lib.SearchTree

/-! ### The program -/

/-- `NKFS_NET_PKT_MAX_NEIGHS` -/
def pktMaxNeighs : ℕ := 16

/-- Offset of `u.neigh_heartbeat.neigh`: four ids stand before it. -/
def pktNeighOff : ℕ := uOff + 64

/-- Offset of `u.neigh_heartbeat.nr_neighs`. -/
def pktNrNeighsOff : ℕ := pktNeighOff + 8 * pktMaxNeighs

def pktNrNeighs (pkt : Mem) : ℤ := intOf (loadLe pkt pktNrNeighsOff 4)

/-- Why a heartbeat stops: a fault of the table, or a read of `neigh[i]` past the end of the array. -/
inductive ReplyFault where
  | table (e : RefFault)
  | oob (i : ℕ)

/-- A step on the table. -/
def onTable {α : Type} (x : R α) : Prog Host ReplyFault α := fun h =>
  match x h with
  | .ok r => .ok r
  | .error (e, h') => .error (.table e, h')

/-- `reply->u.neigh_heartbeat.neigh[i]` -/
def readPeer (reply : Mem) (i : ℕ) : Prog Host ReplyFault NetPeer :=
  if i < pktMaxNeighs then
    return ⟨.ofNat (loadLe reply (pktNeighOff + 8 * i) 4), intOf (loadLe reply (pktNeighOff + 8 * i + 4) 4)⟩
  else stop (.oob i)

/-- The loop over the neighbours of the reply from `neigh[i]` on, with `left` rounds to go. What `nkfs_route_neigh_add`
returns is overwritten. -/
def addReplyNeighs (rb : Balancer ℕ) (reply : Mem) : ℕ → ℕ → Prog Host ReplyFault Unit
  | _, 0 => return ()
  | i, left + 1 => do
    let x ← readPeer reply i
    let _ ← onTable (neighAdd rb x.ip x.port)
    addReplyNeighs rb reply (i + 1) left

/-- How far the heartbeat gets before it has a packet, or the bytes that were received. -/
inductive ReplyIo where
  | connect (err : Errno)
  | nomem
  | talk (recv : Except Errno Mem)

/-- The end with an error. -/
def replyFailed (p : ℕ) (ret : ℤ) : Prog Host ReplyFault ℤ := do
  let n ← onTable (readNeigh p)
  onTable (writeNeigh p { n with state := { n.state with hbtOk := false } })
  return ret

/-- `nkfs_neigh_do_heartbeat` down to the packet: `neighDoHeartbeat` starts from the neighbours in it. The check is
that of `nkfs_con_recv_pkt`. Source: `core/route.c` `nkfs_neigh_do_heartbeat` -/
def neighDoHeartbeatPkt (csum : List UInt8 → UInt64) (rb : Balancer ℕ) (start now : UInt64) (io : ReplyIo) (p : ℕ) :
    Prog Host ReplyFault ℤ := do
  let n ← onTable (readNeigh p)
  if n.state.inited = false ∨ n.state.shaked = false then return 0
  else do
    onTable (writeNeigh p { n with hbtTime := start })
    match io with
    | .connect err => replyFailed p (intOf (errCode err))
    | .nomem => return 0
    | .talk recv => do
      let _ ← onTable (readHostId n.hid)
      match recv with
      | .error err => replyFailed p (intOf (errCode err))
      | .ok reply =>
        match netPktCheck csum reply with
        | .error err => replyFailed p (intOf (errCode err))
        | .ok () =>
          if pktErr reply ≠ 0 then replyFailed p (intOf (pktErr reply))
          else do
            addReplyNeighs rb reply 0 (pktNrNeighs reply).toNat
            let n ← onTable (readNeigh p)
            onTable (writeNeigh p
              { n with state := { n.state with hbtOk := true }, hbtDelay := now - n.hbtTime })
            return 0

/-- No heartbeat of a host that gets the reply reads past the end of the array, in whatever state the host is. -/
def HbtReadsInside (csum : List UInt8 → UInt64) (reply : Mem) : Prop :=
  ∀ (rb : Balancer ℕ) (netId hostId : ObjId) (fails : ℕ → Bool) (ops : List HbtOp) (h : Host) (p : ℕ)
    (start now : UInt64), HbtOp.runAll rb ops (Host.create netId hostId fails) = .ok ((), h) → p ∈ h.neighList →
    ∀ i h', neighDoHeartbeatPkt csum rb start now (.talk (.ok reply)) p h ≠ .error (.oob i, h')

section

variable {h h' : Host} {p : ℕ} {n : Neigh} {rb : Balancer ℕ} {csum : List UInt8 → UInt64} {reply : Mem}

/-! ### The loop -/

lemma onTable_ok {α : Type} {x : R α} {a : α} (hx : x h = .ok (a, h')) : onTable x h = .ok (a, h') := by
  unfold onTable
  rw [hx]

lemma onTable_runs {α : Type} {x : R α} {Q : α → Host → Prop} (hx : Runs x h Q) : Runs (onTable x) h Q := by
  obtain ⟨a, h', hrun, hQ⟩ := hx
  exact ⟨a, h', onTable_ok hrun, hQ⟩

lemma readPeer_inside {i : ℕ} (hi : i < pktMaxNeighs) : ∃ x, readPeer reply i h = .ok (x, h) := by
  unfold readPeer
  rw [if_pos hi]
  exact ⟨_, rfl⟩

lemma readPeer_outside {i : ℕ} (hi : ¬ i < pktMaxNeighs) : readPeer reply i h = .error (.oob i, h) := by
  unfold readPeer
  rw [if_neg hi]
  rfl

/-- **The loop over the neighbours** of a reply goes through while they are inside the array, and stops at the
first entry behind it. -/
theorem addReplyNeighs_ends (rb : Balancer ℕ) (reply : Mem) (i left : ℕ) (hi : i ≤ pktMaxNeighs) (hok : HostOk h)
    (hset : AllSettled h) (hp : p ∈ h.neighList) : Ends (addReplyNeighs rb reply i left) h
      (fun _ h' => i + left ≤ pktMaxNeighs ∧ p ∈ h'.neighList ∧ h'.neighMem p = h.neighMem p)
      (fun e _ => pktMaxNeighs < i + left ∧ e = .oob pktMaxNeighs) := by
  induction left generalizing i h with
  | zero => exact (Runs.pure ⟨hi, hp, rfl⟩).ends
  | succ left ih =>
    unfold addReplyNeighs
    by_cases hlt : i < pktMaxNeighs
    · obtain ⟨x, hx⟩ : ∃ x, readPeer reply i h = .ok (x, h) := readPeer_inside hlt
      refine Ends.step hx (Ends.bind (onTable_runs (neighAdd_spec hok)).ends ?_)
      rintro _ h₁ ⟨hok₁, hgrew, -⟩
      have hlater : Later (fun _ => True) h h₁ := hgrew.later hset
      refine (ih (i + 1) hlt hok₁ hlater.settled (hlater.mem p hp)).mono ?_ ?_
      · rintro _ h' ⟨hle, hp', hsame⟩
        exact ⟨by omega, hp', hsame.trans (hlater.neighMem p hp trivial)⟩
      · rintro e _ ⟨hgt, he⟩
        exact ⟨by omega, he⟩
    · obtain rfl : i = pktMaxNeighs := by omega
      exact .inr (Stops.of_left ⟨_, h, readPeer_outside hlt, by omega, rfl⟩)

/-! ### A heartbeat with an accepted reply -/

/-- The heartbeat returns or stops behind the array, as the number of neighbours says. -/
lemma neighDoHeartbeatPkt_ends (rb : Balancer ℕ) (start now : UInt64) (hok : HostOk h) (hset : AllSettled h) (hp : p ∈ h.neighList)
    (hn : h.neighMem p = some n) (hinit : n.state.inited = true) (hshaked : n.state.shaked = true)
    (hcheck : netPktCheck csum reply = .ok ()) (herr : pktErr reply = 0) :
    Ends (neighDoHeartbeatPkt csum rb start now (.talk (.ok reply)) p) h
      (fun ret _ => (pktNrNeighs reply).toNat ≤ pktMaxNeighs ∧ ret = 0)
      (fun e _ => pktMaxNeighs < (pktNrNeighs reply).toNat ∧ e = .oob pktMaxNeighs) := by
  have hsome : n.hid.isSome := by
    rw [← (hset p n hp hn).2]
    exact hshaked
  obtain ⟨hok₁, hset₁⟩ := hok.setHbt hset hp hn n.state.hbtOk start n.hbtDelay
  unfold neighDoHeartbeatPkt
  refine Ends.step (onTable_ok (readNeigh_run hn)) ?_
  rw [if_neg (by simp [hinit, hshaked])]
  refine Ends.step (onTable_ok writeNeigh_run) ?_
  refine Ends.step (onTable_ok (readHostId_run (hok.hids.attached p n hn) hsome)) ?_
  simp only [hcheck, herr, ne_eq, not_true_eq_false, if_false]
  have hloop := addReplyNeighs_ends rb reply 0 (pktNrNeighs reply).toNat (Nat.zero_le _) hok₁ hset₁ hp
  rw [zero_add] at hloop
  refine Ends.bind hloop ?_
  rintro _ h₂ ⟨hle, -, hsame⟩
  rw [Host.setNeigh_self] at hsame
  refine Ends.step (onTable_ok (readNeigh_run hsame)) (Ends.step (onTable_ok writeNeigh_run) ?_)
  exact (Runs.pure ⟨hle, rfl⟩).ends

/-- A heartbeat with a neighbour that is not shaken ends before it. -/
lemma neighDoHeartbeatPkt_idle (start now : UInt64) (io : ReplyIo) (hn : h.neighMem p = some n)
    (hstate : n.state.inited = false ∨ n.state.shaked = false) :
    neighDoHeartbeatPkt csum rb start now io p h = .ok (0, h) := by
  unfold neighDoHeartbeatPkt
  rw [run_bind_ok (onTable_ok (readNeigh_run hn)), if_pos hstate]
  rfl

/-- **Replies to a heartbeat.** An accepted reply is read inside the array exactly when it announces no more
neighbours than that has. -/
theorem hbtReadsInside_iff (hcheck : netPktCheck csum reply = .ok ()) (herr : pktErr reply = 0) :
    HbtReadsInside csum reply ↔ pktNrNeighs reply ≤ pktMaxNeighs := by
  constructor
  · intro hinside
    obtain ⟨h, hrun, hok, hset, -, -, -, htable⟩ := exists_shaken
    obtain ⟨p, ps, hlist, hinfo, -⟩ := List.map_eq_cons_iff.mp htable
    have hp : p ∈ h.neighList := by
      rw [hlist]
      exact List.mem_cons_self ..
    obtain ⟨n, hn⟩ := hok.neighs.exists_neigh hp
    rw [Host.info_eq hn, NeighInfo.mk.injEq] at hinfo
    obtain ⟨-, -, hstate, -⟩ := hinfo
    have hends := neighDoHeartbeatPkt_ends .plain 0 0 hok hset hp hn (by rw [hstate]) (by rw [hstate]) hcheck herr
    rcases hends with ⟨ret, h', -, hle, -⟩ | ⟨e, h', hstop, -, rfl⟩
    · exact Int.toNat_le.mp hle
    · exact absurd hstop (hinside _ _ _ _ _ h p 0 0 hrun hp _ h')
  · intro hle rb netId hostId fails ops h p start now hrun hp i h' hstop
    obtain ⟨hok, hset⟩ := HbtOp.runAll_keeps ops (hostOk_create netId hostId fails) (fun _ _ hp => nomatch hp) hrun
    obtain ⟨n, hn⟩ := hok.neighs.exists_neigh hp
    by_cases hstate : n.state.inited = false ∨ n.state.shaked = false
    · rw [neighDoHeartbeatPkt_idle start now _ hn hstate] at hstop
      cases hstop
    · obtain ⟨hinit, hshaked⟩ : n.state.inited = true ∧ n.state.shaked = true := by simpa using hstate
      have hends := neighDoHeartbeatPkt_ends rb start now hok hset hp hn hinit hshaked hcheck herr
      rcases hends with ⟨ret, h₁, hret, -⟩ | ⟨e, h₁, -, hgt, -⟩
      · rw [hret] at hstop
        cases hstop
      · omega

/-- **Replies of peers.** An accepted reply without error is read within bounds by both receivers if and only if it
announces at most as many neighbours as the packet holds and at most as many bytes as the caller asked for. -/
theorem reply_bounds_iff (csum : List UInt8 → UInt64) (reply : Mem) (dataSize : ℕ)
    (hcheck : netPktCheck csum reply = .ok ()) (herr : pktErr reply = 0) :
    (HbtReadsInside csum reply ∧ Client.GetSafe csum reply dataSize) ↔
      pktNrNeighs reply ≤ pktMaxNeighs ∧ pktDsize reply ≤ dataSize := by
  rw [hbtReadsInside_iff hcheck herr, Client.getSafe_iff hcheck herr]

end

/-- A packet of zeroes but for a number of neighbours, signed. -/
def signedReply (nrNeighs : ℕ) : Mem := netPktSign (fun _ => 0) (storeLe (fun _ => 0) pktNrNeighsOff 4 nrNeighs)

lemma signedReply_fields (nrNeighs : ℕ) : pktDsize (signedReply nrNeighs) = 0 ∧ pktErr (signedReply nrNeighs) = 0 ∧
    pktNrNeighs (signedReply nrNeighs) = intOf (nrNeighs % 256 ^ 4) := by
  unfold signedReply
  refine ⟨?_, ?_, ?_⟩
  · rw [pktDsize_sign, pktDsize, loadLe_storeLe_of_disjoint (by decide)]
    rfl
  · rw [pktErr_sign, pktErr, loadLe_storeLe_of_disjoint (by decide)]
    rfl
  · rw [pktNrNeighs, loadLe_sign (by decide) (by decide), loadLe_storeLe]

lemma signedReply_accepted (nrNeighs : ℕ) : netPktCheck (fun _ => 0) (signedReply nrNeighs) = .ok () := by
  refine netPktCheck_sign ?_
  rw [pktDsize, loadLe_storeLe_of_disjoint (by decide)]
  exact Nat.zero_le _

/-- A full array of neighbours and no data. -/
theorem reply_bounds_full : netPktCheck (fun _ => 0) (signedReply 16) = .ok () ∧ pktErr (signedReply 16) = 0 ∧
    HbtReadsInside (fun _ => 0) (signedReply 16) ∧ Client.GetSafe (fun _ => 0) (signedReply 16) 0 := by
  obtain ⟨hsize, herr, hnr⟩ := signedReply_fields 16
  refine ⟨signedReply_accepted 16, herr, ?_⟩
  refine (reply_bounds_iff _ _ _ (signedReply_accepted 16) herr).mpr ⟨?_, hsize.le⟩
  rw [hnr]
  decide

/-- One neighbour more than the array has. -/
theorem not_reply_bounds : ¬ ∀ (csum : List UInt8 → UInt64) (reply : Mem) (dataSize : ℕ),
    netPktCheck csum reply = .ok () → pktErr reply = 0 →
      HbtReadsInside csum reply ∧ Client.GetSafe csum reply dataSize := by
  intro hall
  obtain ⟨-, herr, hnr⟩ := signedReply_fields 17
  have hle := (hbtReadsInside_iff (signedReply_accepted 17) herr).mp (hall _ _ 0 (signedReply_accepted 17) herr).1
  rw [hnr] at hle
  revert hle
  decide

end Nkfs
